import Mathlib.Data.List.Basic
import Mathlib.Logic.Function.Basic
import Mathlib.Algebra.Order.Group.Nat

/-!
# Association lists as maps

Lemmas about `List.lookup` on lists of pairs: what inserting, replacing and removing a
pair does to the map that a list denotes, and that a list in ascending order of its keys
is determined by that map.
-/

namespace List

section Update

variable {α β : Type*} [DecidableEq α] {key : α} {front rest : List (α × β)}

/-- A key that no pair of the list has is not found. -/
theorem lookup_eq_none_of_forall_ne (h : ∀ e ∈ rest, e.1 ≠ key) : rest.lookup key = none := by
  rw [lookup_eq_none_iff]
  intro e he
  simpa using (h e he).symm

theorem lookup_cons_of_ne {k : α} (h : k ≠ key) (value : β) :
    ((key, value) :: rest).lookup k = rest.lookup k := by
  rw [lookup_cons, beq_false_of_ne h]

/-- A pair that is put between two parts of a list without its key. -/
theorem lookup_insert (value : β) (hfront : ∀ e ∈ front, e.1 ≠ key) (k : α) :
    (front ++ (key, value) :: rest).lookup k =
      Function.update (fun k => (front ++ rest).lookup k) key (some value) k := by
  by_cases hk : k = key
  · subst hk
    simp [lookup_append, lookup_eq_none_of_forall_ne hfront]
  · simp [lookup_append, lookup_cons_of_ne hk, hk]

/-- A pair whose value is replaced. -/
theorem lookup_replace (old value : β) (hfront : ∀ e ∈ front, e.1 ≠ key) (k : α) :
    (front ++ (key, value) :: rest).lookup k =
      Function.update (fun k => (front ++ (key, old) :: rest).lookup k) key (some value) k := by
  by_cases hk : k = key
  · subst hk
    simp [lookup_append, lookup_eq_none_of_forall_ne hfront]
  · simp [lookup_append, lookup_cons_of_ne hk, hk]

/-- A pair that is taken out of a list in which no other pair has its key. -/
theorem lookup_remove (old : β) (hfront : ∀ e ∈ front, e.1 ≠ key)
    (hrest : ∀ e ∈ rest, e.1 ≠ key) (k : α) :
    (front ++ rest).lookup k =
      Function.update (fun k => (front ++ (key, old) :: rest).lookup k) key none k := by
  by_cases hk : k = key
  · subst hk
    simp [lookup_append, lookup_eq_none_of_forall_ne hfront,
      lookup_eq_none_of_forall_ne hrest]
  · simp [lookup_append, lookup_cons_of_ne hk, hk]

end Update

section Sorted

variable {α β : Type*} [LinearOrder α] {l l' : List (α × β)}

/-- In a list in ascending order of its keys, a pair is found under its key. -/
theorem lookup_eq_some_iff_mem (h : l.Pairwise fun a b => a.1 < b.1) {k : α} {v : β} :
    l.lookup k = some v ↔ (k, v) ∈ l := by
  induction l with
  | nil => simp
  | cons e l ih =>
    obtain ⟨he, hl⟩ := pairwise_cons.mp h
    obtain ⟨a, b⟩ := e
    by_cases hk : k = a
    · subst hk
      have hnot : (k, v) ∉ l := fun hmem => (he _ hmem).false
      simp [hnot, eq_comm]
    · rw [lookup_cons_of_ne hk, ih hl]
      simp [hk]

/-- In an ascending list, the elements up to a bound are a prefix. -/
theorem takeWhile_eq_filter_of_pairwise {γ : Type*} {R : γ → γ → Prop} {p : γ → Bool}
    {l : List γ} (h : l.Pairwise R) (hp : ∀ a b, R a b → p b = true → p a = true) :
    l.takeWhile p = l.filter p := by
  induction l with
  | nil => rfl
  | cons a l ih =>
    obtain ⟨ha, hl⟩ := pairwise_cons.mp h
    cases hpa : p a with
    | true => rw [takeWhile_cons_of_pos hpa, filter_cons_of_pos hpa, ih hl]
    | false =>
      have hnil : l.filter p = [] := by
        rw [filter_eq_nil_iff]
        intro b hb hpb
        rw [hp a b (ha b hb) hpb] at hpa
        exact absurd hpa (by decide)
      rw [takeWhile_cons_of_neg (by simp [hpa]), filter_cons_of_neg (by simp [hpa]), hnil]

/-- In an ascending list, the elements from a bound on are a suffix. -/
theorem dropWhile_eq_filter_of_pairwise {γ : Type*} {R : γ → γ → Prop} {p : γ → Bool}
    {l : List γ} (h : l.Pairwise R) (hp : ∀ a b, R a b → p b = true → p a = true) :
    l.dropWhile p = l.filter fun a => !p a := by
  induction l with
  | nil => rfl
  | cons a l ih =>
    obtain ⟨ha, hl⟩ := pairwise_cons.mp h
    cases hpa : p a with
    | true => rw [dropWhile_cons_of_pos hpa, filter_cons_of_neg (by simp [hpa]), ih hl]
    | false =>
      have hall : l.filter (fun a => !p a) = l := by
        rw [filter_eq_self]
        intro b hb
        cases hpb : p b with
        | true =>
          rw [hp a b (ha b hb) hpb] at hpa
          exact absurd hpa (by decide)
        | false => rfl
      rw [dropWhile_cons_of_neg (by simp [hpa]), filter_cons_of_pos (by simp [hpa]), hall]

end Sorted

end List
