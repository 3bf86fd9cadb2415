import Mathlib.Data.List.TakeWhile
import KvStore.Native.Protocol

/-!
# The lengths that the codec reads

`TryParseSize` hands a text to `std::strtoul` and asks that all of it is read, up to the
first `NUL`. `tryParseSize_eq_some_iff` says which texts it accepts: besides digits these
are digits behind blanks and a sign, and before a `NUL` and whatever follows it.
-/

namespace KvStore

/-- What `std::strtoul` makes of a number behind a sign. -/
inductive Signed : Bytes → Nat → Nat → Prop where
  | none (n : Nat) : Signed [] n n
  | plus (n : Nat) : Signed ['+'.toUInt8] n n
  | minus (n : Nat) : Signed ['-'.toUInt8] n ((sizeMod - n) % sizeMod)

/-- Digits behind a sign, and what `std::strtoul` makes of them. -/
structure SignedDigits (sign digits : Bytes) (size : Nat) : Prop where
  ne_nil : digits ≠ []
  isDigit : ∀ d ∈ digits, isDecimalDigit d
  lt : ofDecimal digits < sizeMod
  signed : Signed sign (ofDecimal digits) size

/-- The texts that are read as a size. -/
def LengthText (text : Bytes) (size : Nat) : Prop :=
  ∃ blanks sign digits tail, text = blanks ++ (sign ++ digits) ++ tail ∧
    (∀ ch ∈ blanks, isspace ch) ∧ SignedDigits sign digits size ∧ tail.headD 0 = 0

/-- The bytes of the digits. -/
private theorem isDecimalDigit_bounds {ch : UInt8} (h : isDecimalDigit ch) :
    48 ≤ ch.toNat ∧ ch.toNat ≤ 57 := by
  simp only [isDecimalDigit, Bool.and_eq_true, decide_eq_true_eq, UInt8.le_iff_toNat_le] at h
  exact h

/-- A digit is none of the bytes below. -/
theorem ne_of_isDecimalDigit {ch other : UInt8} (h : isDecimalDigit ch)
    (hother : other.toNat < 48) : ch ≠ other := by
  rintro rfl
  have := isDecimalDigit_bounds h
  omega

/-- A digit is no space. -/
private theorem not_isspace_of_isDecimalDigit {ch : UInt8} (h : isDecimalDigit ch) :
    isspace ch = false := by
  have := isDecimalDigit_bounds h
  have hhigh : ¬ ch ≤ 13 := by
    rw [UInt8.le_iff_toNat_le]
    show ¬ ch.toNat ≤ 13
    omega
  simp [isspace, ne_of_isDecimalDigit h (show (32 : UInt8).toNat < 48 by decide), hhigh]

/-- Where a run of bytes that meet the condition ends. -/
private theorem span_eq {p : UInt8 → Bool} {front back : Bytes} (hfront : ∀ ch ∈ front, p ch)
    (hback : ∀ ch ∈ back.head?, p ch = false) :
    (front ++ back).takeWhile p = front ∧ (front ++ back).dropWhile p = back := by
  rw [List.takeWhile_append_of_pos hfront, List.dropWhile_append_of_pos hfront]
  cases back with
  | nil => simp
  | cons ch back => simp [hback ch rfl]

/-- The characters before the first `NUL`. -/
private theorem cStr_append {front tail : Bytes} (hfront : ∀ ch ∈ front, ch ≠ 0)
    (htail : tail.headD 0 = 0) : cStr (front ++ tail) = front := by
  refine (span_eq (by simpa using hfront) fun ch hch => ?_).1
  cases tail with
  | nil => cases hch
  | cons first tail =>
    obtain rfl : first = ch := by simpa using hch
    simpa using htail

/-- A sign in front of digits. -/
private theorem signOf_append {sign digits : Bytes} {size : Nat} (h : SignedDigits sign digits size) :
    ∃ negative, signOf (sign ++ digits) = (negative, sign.length) ∧
      size = if negative then (sizeMod - ofDecimal digits) % sizeMod else ofDecimal digits := by
  obtain ⟨hne, hdigits, -, hsigned⟩ := h
  obtain ⟨first, rest, rfl⟩ := List.exists_cons_of_ne_nil hne
  have hfirst := hdigits first (by simp)
  cases hsigned with
  | none =>
    have hminus : first ≠ '-'.toUInt8 := ne_of_isDecimalDigit hfirst (by decide)
    have hplus : first ≠ '+'.toUInt8 := ne_of_isDecimalDigit hfirst (by decide)
    exact ⟨false, by simp only [List.nil_append, signOf, if_neg hminus, if_neg hplus]; rfl, rfl⟩
  | plus => exact ⟨false, rfl, rfl⟩
  | minus => exact ⟨true, rfl, rfl⟩

/-- No blank is in front of digits, with or without a sign. -/
private theorem head_not_isspace {sign digits : Bytes} {size : Nat}
    (h : SignedDigits sign digits size) : ∀ ch ∈ (sign ++ digits).head?, isspace ch = false := by
  obtain ⟨hne, hdigits, -, hsigned⟩ := h
  obtain ⟨first, rest, rfl⟩ := List.exists_cons_of_ne_nil hne
  intro ch hch
  cases hsigned with
  | none =>
    obtain rfl : first = ch := by simpa using hch
    exact not_isspace_of_isDecimalDigit (hdigits first (by simp))
  | plus =>
    obtain rfl : '+'.toUInt8 = ch := by simpa using hch
    decide
  | minus =>
    obtain rfl : '-'.toUInt8 = ch := by simpa using hch
    decide

/-- `std::strtoul` on the texts that it reads to their end. -/
private theorem strtoul_eq {blanks sign digits : Bytes} {size : Nat}
    (hblanks : ∀ ch ∈ blanks, isspace ch) (h : SignedDigits sign digits size) :
    strtoul (blanks ++ (sign ++ digits)) =
      { parsed := size, offset := (blanks ++ (sign ++ digits)).length, outOfRange := false } := by
  obtain ⟨htake, hdrop⟩ := span_eq hblanks (head_not_isspace h)
  obtain ⟨negative, hsign, hsize⟩ := signOf_append h
  have hspan : digits.takeWhile isDecimalDigit = digits :=
    List.takeWhile_eq_self_iff.mpr h.isDigit
  have hin : ¬ sizeMod ≤ ofDecimal digits := Nat.not_le.mpr h.lt
  simp only [strtoul, htake, hdrop, hsign, List.drop_left, hspan, if_neg h.ne_nil, if_neg hin,
    List.length_append, ← Nat.add_assoc]
  cases negative with
  | false => rw [hsize]; rfl
  | true => rw [hsize]; rfl

private theorem ne_zero_of_isspace {ch : UInt8} (h : isspace ch) : ch ≠ 0 := by
  rintro rfl
  cases h

/-- The sign that `signOf` finds, whatever follows it. -/
private theorem exists_signOf (body : Bytes) (n : Nat) :
    ∃ sign, (signOf body).2 = sign.length ∧ body = sign ++ body.drop sign.length ∧
      Signed sign n (if (signOf body).1 then (sizeMod - n) % sizeMod else n) := by
  cases body with
  | nil => exact ⟨[], rfl, rfl, .none n⟩
  | cons ch body =>
    by_cases hminus : ch = '-'.toUInt8
    · subst hminus
      exact ⟨['-'.toUInt8], rfl, rfl, .minus n⟩
    · by_cases hplus : ch = '+'.toUInt8
      · subst hplus
        exact ⟨['+'.toUInt8], rfl, rfl, .plus n⟩
      · simp only [signOf, if_neg hminus, if_neg hplus]
        exact ⟨[], rfl, rfl, .none n⟩

/-- A text is a C string and what is behind its first `NUL`. -/
private theorem exists_cStr (text : Bytes) :
    ∃ tail, text = cStr text ++ tail ∧ tail.headD 0 = 0 ∧ ∀ ch ∈ cStr text, ch ≠ 0 := by
  refine ⟨text.dropWhile (· ≠ 0), List.takeWhile_append_dropWhile.symm, ?_, fun ch hch => ?_⟩
  · have hhead := List.head?_dropWhile_not (fun ch : UInt8 => ch ≠ 0) text
    rw [List.headD_eq_head?_getD]
    split at hhead
    · rename_i heq
      rw [heq]
      simpa using hhead
    · rename_i heq
      rw [heq]
      rfl
  · simpa using List.mem_takeWhile_imp hch

/-- `std::strtoul` reads a string to its end only if it is a number behind blanks. -/
private theorem exists_of_strtoul {str : Bytes} (hrange : (strtoul str).outOfRange = false)
    (hoffset : (strtoul str).offset ≠ 0) (hend : str.length ≤ (strtoul str).offset) :
    ∃ blanks sign digits, str = blanks ++ (sign ++ digits) ∧ (∀ ch ∈ blanks, isspace ch) ∧
      SignedDigits sign digits (strtoul str).parsed := by
  have hstr : str.takeWhile isspace ++ str.dropWhile isspace = str :=
    List.takeWhile_append_dropWhile
  have hblanks : ∀ ch ∈ str.takeWhile isspace, isspace ch := fun ch => List.mem_takeWhile_imp
  unfold strtoul at hrange hoffset hend ⊢
  generalize str.takeWhile isspace = blanks at *
  generalize str.dropWhile isspace = body at *
  simp only at hrange hoffset hend ⊢
  -- the sign, the digits behind it, and what the digits leave
  obtain ⟨sign, hsign, hbody, hsigned⟩ := exists_signOf body
    (ofDecimal ((body.drop (signOf body).2).takeWhile isDecimalDigit))
  rw [hsign] at hrange hoffset hend hsigned ⊢
  have hafter : (body.drop sign.length).takeWhile isDecimalDigit ++
      (body.drop sign.length).dropWhile isDecimalDigit = body.drop sign.length :=
    List.takeWhile_append_dropWhile
  have hdigits : ∀ d ∈ (body.drop sign.length).takeWhile isDecimalDigit, isDecimalDigit d :=
    fun d => List.mem_takeWhile_imp
  generalize (body.drop sign.length).takeWhile isDecimalDigit = digits at *
  generalize (body.drop sign.length).dropWhile isDecimalDigit = left at *
  rw [← hafter] at hbody
  split at hoffset
  · exact absurd rfl hoffset
  · rename_i hne
    rw [if_neg hne] at hrange hend ⊢
    split at hrange
    · cases hrange
    · rename_i hlt
      rw [if_neg hlt] at hend ⊢
      have hleft : left = [] := by
        have hlength := congrArg List.length hstr
        rw [hbody] at hlength
        simp only [List.length_append] at hlength
        have hend' : str.length ≤ blanks.length + sign.length + digits.length := by
          split at hend <;> exact hend
        exact List.eq_nil_of_length_eq_zero (by omega)
      rw [hleft, List.append_nil] at hbody
      refine ⟨blanks, sign, digits, by rw [← hbody, hstr], hblanks, hne, hdigits,
        Nat.not_le.mp hlt, ?_⟩
      cases hneg : (signOf body).1 <;> simpa [hneg] using hsigned

/-- The texts that `TryParseSize` accepts, and the sizes it reads. -/
theorem tryParseSize_eq_some_iff (text : Bytes) (size : Nat) :
    tryParseSize text = some size ↔ LengthText text size := by
  constructor
  · intro h
    obtain ⟨tail, htext, htail, hzero⟩ := exists_cStr text
    unfold tryParseSize at h
    split at h
    · cases h
    · simp only at h
      split at h
      · cases h
      · rename_i hread
        simp only [not_or, Bool.not_eq_true, not_not] at hread
        obtain ⟨hrange, hoffset, hend⟩ := hread
        cases h
        -- the byte at the offset is the zero that ends the string
        have hlength : (cStr text).length ≤ (strtoul (cStr text)).offset := by
          by_contra hless
          rw [List.getD_eq_getElem?_getD, List.getElem?_eq_getElem (by omega)] at hend
          exact hzero _ (List.getElem_mem _) hend
        obtain ⟨blanks, sign, digits, hstr, hblanks, hsigned⟩ :=
          exists_of_strtoul hrange hoffset hlength
        exact ⟨blanks, sign, digits, tail, hstr ▸ htext, hblanks, hsigned, htail⟩
  · rintro ⟨blanks, sign, digits, tail, rfl, hblanks, hsigned, htail⟩
    -- the C string is the text in front of the tail
    have hzero : ∀ ch ∈ blanks ++ (sign ++ digits), ch ≠ 0 := by
      intro ch hch
      simp only [List.mem_append] at hch
      rcases hch with hch | hch | hch
      · exact ne_zero_of_isspace (hblanks ch hch)
      · cases hsigned.signed with
        | none => cases hch
        | plus =>
          rw [List.mem_singleton.mp hch]
          decide
        | minus =>
          rw [List.mem_singleton.mp hch]
          decide
      · exact ne_of_isDecimalDigit (hsigned.isDigit ch hch) (by decide)
    have hlength : (blanks ++ (sign ++ digits)).length ≠ 0 := by
      have := List.length_pos_iff.mpr hsigned.ne_nil
      simp only [List.length_append]
      omega
    have hne : blanks ++ (sign ++ digits) ++ tail ≠ [] := by
      intro hnil
      rw [(List.append_eq_nil_iff.mp hnil).1] at hlength
      exact hlength rfl
    rw [tryParseSize, if_neg hne, cStr_append hzero htail, strtoul_eq hblanks hsigned]
    simp [hsigned.ne_nil]

/-- Decimal digits that denote a number. -/
structure Denotes (digits : Bytes) (n : Nat) : Prop where
  ne_nil : digits ≠ []
  isDigit : ∀ d ∈ digits, isDecimalDigit d
  value : ofDecimal digits = n

/-- Decimal text denotes its number. -/
theorem denotes_toDecimal (n : Nat) : Denotes (toDecimal n) n :=
  ⟨toDecimal_ne_nil n, fun _ => isDecimalDigit_of_mem_toDecimal, ofDecimal_toDecimal n⟩

/-- Digits are read as the number that they denote. -/
theorem Denotes.tryParseSize_eq {digits : Bytes} {n : Nat} (h : Denotes digits n)
    (hlt : n < sizeMod) : tryParseSize digits = some n := by
  obtain ⟨hne, hdigits, rfl⟩ := h
  exact (tryParseSize_eq_some_iff _ _).mpr
    ⟨[], [], digits, [], by simp, by simp, ⟨hne, hdigits, hlt, .none _⟩, rfl⟩

/-- If only digits are read, the size is the number that they denote. -/
theorem LengthText.denotes {text : Bytes} {size : Nat} (h : LengthText text size)
    (hdigits : ∀ d ∈ text, isDecimalDigit d) : Denotes text size := by
  obtain ⟨blanks, sign, digits, tail, rfl, hblanks, ⟨hne, -, -, hsigned⟩, htail⟩ := h
  have hnil : blanks = [] := by
    rw [List.eq_nil_iff_forall_not_mem]
    intro ch hch
    have := not_isspace_of_isDecimalDigit (hdigits ch (by simp [hch]))
    rw [hblanks ch hch] at this
    cases this
  -- a number ends at the end of the text or at a `NUL`, which is no digit
  have htail' : tail = [] := by
    cases tail with
    | nil => rfl
    | cons ch tail =>
      obtain rfl : ch = 0 := htail
      cases hdigits 0 (by simp)
  subst hnil htail'
  cases hsigned with
  | none => exact ⟨by simpa using hne, hdigits, by simp⟩
  | plus => cases hdigits '+'.toUInt8 (by simp)
  | minus => cases hdigits '-'.toUInt8 (by simp)

end KvStore
