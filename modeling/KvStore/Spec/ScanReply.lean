import KvStore.ForStd.JoinedPairs
import KvStore.Native.CommandProcessor

/-!
# What the reply to a `SCAN` tells

The pairs in the reply are joined by blanks and equals signs, which values and keys may hold as
well. `scanResponse_inj` says for which results the reply determines the pairs. It tells how
many they are, so the last value may hold anything.
-/

namespace KvStore.CommandProcessor

/-- A key that the protocol reference advises: not empty, and without white space and control
    characters. -/
def IsKey (key : Bytes) : Prop :=
  key ≠ [] ∧ ∀ ch ∈ key, 32 < ch ∧ ch ≠ 127

instance : DecidablePred IsKey := fun key => by
  unfold IsKey
  infer_instance

/-- What `Scan` can return: such keys in ascending order, and values that `PUT` accepts. -/
structure ScanResult (pairs : List (Bytes × Bytes)) : Prop where
  ascending : pairs.Pairwise fun pair pair' => pair.1 < pair'.1
  isKey : ∀ pair ∈ pairs, IsKey pair.1
  nonempty : ∀ pair ∈ pairs, pair.2 ≠ []

/-- The result holds nothing that looks like the beginning of a pair: no equals sign in a key,
    and in no value but the last a blank, a key that could come later and an equals sign. -/
structure ScanResult.Plain (pairs : List (Bytes × Bytes)) : Prop where
  keys : ∀ pair ∈ pairs, '='.toUInt8 ∉ pair.1
  values : ∀ pair ∈ pairs.dropLast, ∀ key, IsKey key → '='.toUInt8 ∉ key → pair.1 < key →
    ¬ ' '.toUInt8 :: (key ++ ['='.toUInt8]) <:+: pair.2

/-- The reply: the number of pairs, and the pairs. -/
theorem scanResponse_eq (pairs : List (Bytes × Bytes)) :
    scanResponse pairs = ascii "RESULT " ++ (toDecimal pairs.length ++
      (joinPairs ' '.toUInt8 '='.toUInt8 pairs ++ crlf)) := by
  simp [scanResponse, joinPairs, ascii]

/-- What follows the number of pairs does not begin with a digit. -/
private theorem takeWhile_joinPairs (pairs : List (Bytes × Bytes)) :
    (joinPairs ' '.toUInt8 '='.toUInt8 pairs ++ crlf).takeWhile isDecimalDigit = [] := by
  cases pairs with
  | nil => rfl
  | cons pair pairs => exact List.takeWhile_cons_of_neg (by decide)

private theorem dropWhile_joinPairs (pairs : List (Bytes × Bytes)) :
    (joinPairs ' '.toUInt8 '='.toUInt8 pairs ++ crlf).dropWhile isDecimalDigit =
      joinPairs ' '.toUInt8 '='.toUInt8 pairs ++ crlf := by
  cases pairs with
  | nil => rfl
  | cons pair pairs => exact List.dropWhile_cons_of_neg (by decide)

/-- What follows the number of pairs can be taken apart. -/
theorem ScanResult.separable {pairs : List (Bytes × Bytes)} (h : ScanResult pairs)
    (hplain : ScanResult.Plain pairs) :
    Separable ' '.toUInt8 '='.toUInt8 (fun key => IsKey key ∧ '='.toUInt8 ∉ key) (· < ·) pairs where
  isKey pair hpair := ⟨h.isKey pair hpair, hplain.keys pair hpair⟩
  ordered := h.ascending
  values pair hpair key hkey hlt := hplain.values pair hpair key hkey.1 hkey.2 hlt

/-- The reply to a `SCAN` tells the number of pairs, and what follows it. -/
private theorem scanResponse_split {pairs pairs' : List (Bytes × Bytes)}
    (heq : scanResponse pairs = scanResponse pairs') :
    pairs.length = pairs'.length ∧
      joinPairs ' '.toUInt8 '='.toUInt8 pairs = joinPairs ' '.toUInt8 '='.toUInt8 pairs' := by
  rw [scanResponse_eq, scanResponse_eq, List.append_cancel_left_eq] at heq
  constructor
  · have htake := congrArg (List.takeWhile isDecimalDigit) heq
    rw [List.takeWhile_append_of_pos fun _ => isDecimalDigit_of_mem_toDecimal,
      List.takeWhile_append_of_pos fun _ => isDecimalDigit_of_mem_toDecimal, takeWhile_joinPairs,
      takeWhile_joinPairs, List.append_nil, List.append_nil] at htake
    rw [← ofDecimal_toDecimal pairs.length, htake, ofDecimal_toDecimal]
  · have hdrop := congrArg (List.dropWhile isDecimalDigit) heq
    rw [List.dropWhile_append_of_pos fun _ => isDecimalDigit_of_mem_toDecimal,
      List.dropWhile_append_of_pos fun _ => isDecimalDigit_of_mem_toDecimal, dropWhile_joinPairs,
      dropWhile_joinPairs] at hdrop
    exact List.append_cancel_right hdrop

/-- The reply to a `SCAN` determines the result, when nothing in front of its last value looks
    like the beginning of a pair. -/
theorem scanResponse_inj {pairs pairs' : List (Bytes × Bytes)} (h : ScanResult pairs)
    (hplain : ScanResult.Plain pairs) (h' : ScanResult pairs') (hplain' : ScanResult.Plain pairs')
    (heq : scanResponse pairs = scanResponse pairs') : pairs = pairs' := by
  obtain ⟨hlength, hpairs⟩ := scanResponse_split heq
  have hblank : ∀ key, IsKey key ∧ '='.toUInt8 ∉ key → ' '.toUInt8 ∉ key := by
    intro key hkey hmem
    exact absurd (hkey.1.2 _ hmem).1 (by decide)
  exact joinPairs_inj hblank (fun key hkey => hkey.2) (by decide) (h.separable hplain)
    (h'.separable hplain') hlength hpairs

/-- The result with the pairs `a=1` and `b=x c=y`, the last value of which holds what looks like
    a pair. -/
theorem scanResponse_inj_two :
    ScanResult [(ascii "a", ascii "1"), (ascii "b", ascii "x c=y")] ∧
      [(ascii "a", ascii "1"), (ascii "b", ascii "x c=y")] =
        [(ascii "a", ascii "1"), (ascii "b", ascii "x c=y")] := by
  have hresult : ScanResult [(ascii "a", ascii "1"), (ascii "b", ascii "x c=y")] :=
    ⟨by decide, by decide +kernel, by decide⟩
  have hplain : ScanResult.Plain [(ascii "a", ascii "1"), (ascii "b", ascii "x c=y")] := by
    refine ⟨by simp only [List.forall_mem_cons]; decide, fun pair hpair key _ _ _ hinfix => ?_⟩
    -- the first value holds no equals sign
    have hmem : '='.toUInt8 ∈ pair.2 := hinfix.subset (by simp)
    rw [List.mem_singleton.mp hpair] at hmem
    exact absurd hmem (by decide)
  exact ⟨hresult, scanResponse_inj hresult hplain hresult hplain rfl⟩

/-- Two results with the same reply: in the first two, a key holds an equals sign, in the other
    two, a value holds a blank, a key and an equals sign. -/
theorem scanResponse_ambiguous :
    (ScanResult [(ascii "a", ascii "b=c")] ∧ ScanResult [(ascii "a=b", ascii "c")] ∧
        scanResponse [(ascii "a", ascii "b=c")] = scanResponse [(ascii "a=b", ascii "c")]) ∧
      ScanResult [(ascii "a", ascii "x b=y"), (ascii "c", ascii "z")] ∧
      ScanResult [(ascii "a", ascii "x"), (ascii "b", ascii "y c=z")] ∧
      scanResponse [(ascii "a", ascii "x b=y"), (ascii "c", ascii "z")] =
        scanResponse [(ascii "a", ascii "x"), (ascii "b", ascii "y c=z")] := by
  refine ⟨⟨⟨?_, ?_, ?_⟩, ⟨?_, ?_, ?_⟩, rfl⟩, ⟨?_, ?_, ?_⟩, ⟨?_, ?_, ?_⟩, rfl⟩
  all_goals decide +kernel

end KvStore.CommandProcessor
