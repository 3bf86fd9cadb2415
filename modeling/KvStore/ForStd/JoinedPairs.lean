import Mathlib.Data.List.Infix

/-!
# Pairs of strings that are joined

`joinPairs sep eq` writes a list of pairs as one string, with `sep` in front of each pair and
`eq` between its two parts. The string and the number of pairs determine the list if no second
part but the last holds what looks like the beginning of another pair (`joinPairs_inj`).
-/

variable {α : Type*}

/-- The pairs, each as `sep`, the first part, `eq` and the second part. -/
def joinPairs (sep eq : α) (pairs : List (List α × List α)) : List α :=
  pairs.flatMap fun pair => sep :: (pair.1 ++ eq :: pair.2)

/-- The first parts are keys and stand in the order `R`. No second part but the last holds the
    beginning of a pair whose key could come later. -/
structure Separable (sep eq : α) (IsKey : List α → Prop) (R : List α → List α → Prop)
    (pairs : List (List α × List α)) : Prop where
  isKey : ∀ pair ∈ pairs, IsKey pair.1
  ordered : pairs.Pairwise fun pair pair' => R pair.1 pair'.1
  values : ∀ pair ∈ pairs.dropLast, ∀ key, IsKey key → R pair.1 key →
    ¬ sep :: (key ++ [eq]) <:+: pair.2

variable {sep eq : α} {IsKey : List α → Prop} {R : List α → List α → Prop}

theorem Separable.tail {pair : List α × List α} {pairs : List (List α × List α)}
    (h : Separable sep eq IsKey R (pair :: pairs)) : Separable sep eq IsKey R pairs where
  isKey pair' hmem := h.isKey pair' (List.mem_cons_of_mem _ hmem)
  ordered := h.ordered.of_cons
  values pair' hmem := by
    cases pairs with
    | nil => simp at hmem
    | cons next pairs => exact h.values pair' (List.mem_cons_of_mem _ hmem)

/-- The first occurrence of a symbol splits a list in one way. -/
private theorem eq_of_append_cons {front front' back back' : List α} {a : α} (hfront : a ∉ front)
    (hfront' : a ∉ front') (h : front ++ a :: back = front' ++ a :: back') :
    front = front' ∧ back = back' := by
  induction front generalizing front' with
  | nil =>
    cases front' with
    | nil => exact ⟨rfl, (List.cons.inj h).2⟩
    | cons b front' =>
      have hb : a = b := (List.cons.inj h).1
      exact absurd (by simp [hb]) hfront'
  | cons b front ih =>
    rw [List.mem_cons, not_or] at hfront
    cases front' with
    | nil => exact absurd (List.cons.inj h).1.symm hfront.1
    | cons c front' =>
      obtain ⟨rfl, hrest⟩ := List.cons.inj h
      rw [List.mem_cons, not_or] at hfront'
      obtain ⟨rfl, rfl⟩ := ih hfront.2 hfront'.2 hrest
      exact ⟨rfl, rfl⟩

/-- A second part does not go on where another list of as many pairs has its next pair. -/
private theorem eq_nil_of_joinPairs {key value more : List α}
    {pairs pairs' : List (List α × List α)} (hsep : ∀ key, IsKey key → sep ∉ key)
    (hne : sep ≠ eq) (h : Separable sep eq IsKey R ((key, value) :: pairs))
    (h' : Separable sep eq IsKey R ((key, value ++ more) :: pairs'))
    (hlength : pairs.length = pairs'.length)
    (heq : joinPairs sep eq pairs = more ++ joinPairs sep eq pairs') : more = [] := by
  by_contra hmore
  cases pairs with
  | nil =>
    have hnil := (List.append_eq_nil_iff.mp heq.symm).1
    exact hmore hnil
  | cons pair pairs =>
    -- the beginning of the next pair, and what is behind it
    have hkey : IsKey pair.1 := h.isKey pair (by simp)
    have hjoin : joinPairs sep eq (pair :: pairs) =
        sep :: (pair.1 ++ [eq]) ++ (pair.2 ++ joinPairs sep eq pairs) := by
      simp [joinPairs]
    have hbegin : sep :: (pair.1 ++ [eq]) <+: joinPairs sep eq (pair :: pairs) := by
      rw [hjoin]
      exact List.prefix_append _ _
    have hpre : more <+: joinPairs sep eq (pair :: pairs) := by
      rw [heq]
      exact List.prefix_append _ _
    have hvalues : ¬ sep :: (pair.1 ++ [eq]) <+: more := by
      intro hlong
      have hR : R key pair.1 := List.rel_of_pairwise_cons h.ordered List.mem_cons_self
      -- the longer part is not the last of its list, which has as many pairs
      have hmem : (key, value ++ more) ∈ ((key, value ++ more) :: pairs').dropLast := by
        cases pairs' with
        | nil => cases hlength
        | cons pair' pairs' => exact List.mem_cons_self
      exact h'.values _ hmem pair.1 hkey hR
        (hlong.isInfix.trans (List.suffix_append value more).isInfix)
    -- the longer part ends within the beginning of the pair, where no other pair can begin
    obtain ⟨left, hleft⟩ := (List.prefix_or_prefix_of_prefix hbegin hpre).resolve_left hvalues
    rw [hjoin, ← hleft, List.append_assoc, List.append_cancel_left_eq] at heq
    cases left with
    | nil => exact hvalues ⟨[], by simpa using hleft.symm⟩
    | cons ch left =>
      obtain ⟨first, rest, rfl⟩ := List.exists_cons_of_ne_nil hmore
      have hch : ch ∈ pair.1 ++ [eq] := by
        rw [← (List.cons.inj hleft).2]
        simp
      cases pairs' with
      | nil => cases heq
      | cons pair' pairs' =>
        have hfirst : ch = sep := (List.cons.inj heq).1
        rw [hfirst, List.mem_append, List.mem_singleton] at hch
        exact hch.elim (hsep pair.1 hkey) hne

/-- The string and the number of the pairs determine them. -/
theorem joinPairs_inj (hsep : ∀ key, IsKey key → sep ∉ key) (hkey : ∀ key, IsKey key → eq ∉ key)
    (hne : sep ≠ eq) {pairs pairs' : List (List α × List α)} (h : Separable sep eq IsKey R pairs)
    (h' : Separable sep eq IsKey R pairs') (hlength : pairs.length = pairs'.length)
    (heq : joinPairs sep eq pairs = joinPairs sep eq pairs') : pairs = pairs' := by
  induction pairs generalizing pairs' with
  | nil =>
    cases pairs' with
    | nil => rfl
    | cons pair' pairs' => simp [joinPairs] at heq
  | cons pair pairs ih =>
    cases pairs' with
    | nil => simp [joinPairs] at heq
    | cons pair' pairs' =>
      obtain ⟨key, value⟩ := pair
      obtain ⟨key', value'⟩ := pair'
      have hsplit : key ++ eq :: (value ++ joinPairs sep eq pairs) =
          key' ++ eq :: (value' ++ joinPairs sep eq pairs') := by
        simpa [joinPairs] using heq
      obtain ⟨rfl, hrest⟩ := eq_of_append_cons (hkey _ (h.isKey _ List.mem_cons_self))
        (hkey _ (h'.isKey _ List.mem_cons_self)) hsplit
      -- neither of the second parts goes on where the other ends
      have hlength' : pairs.length = pairs'.length := Nat.succ.inj hlength
      rcases List.append_eq_append_iff.mp hrest with ⟨more, rfl, hmore⟩ | ⟨more, rfl, hmore⟩
      · obtain rfl := eq_nil_of_joinPairs hsep hne h h' hlength' hmore
        rw [List.append_nil, ih h.tail h'.tail hlength' hmore]
      · obtain rfl := eq_nil_of_joinPairs hsep hne h' h hlength'.symm hmore
        rw [List.append_nil, ih h.tail h'.tail hlength' hmore.symm]
