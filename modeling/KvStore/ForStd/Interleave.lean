import Mathlib.Data.List.Perm.Basic
import KvStore.ForStd.UpdateLog

/-!
# Interleavings

The calls of several threads in one order, in which those of each thread keep their own. If no
two different updates are of the same key, every order of them leaves the same map behind
(`Update.applyAll_congr`).
-/

/-- `merged` has the elements of all lists, those of each list in their order. -/
inductive Interleaves {α : Type} : List (List α) → List α → Prop where
  | nil {lists : List (List α)} (h : ∀ list ∈ lists, list = []) : Interleaves lists []
  | cons {front back : List (List α)} {first : α} {list merged : List α}
      (h : Interleaves (front ++ list :: back) merged) :
      Interleaves (front ++ (first :: list) :: back) (first :: merged)

/-- An interleaving has the items of all lists. -/
theorem Interleaves.perm {α : Type} {lists : List (List α)} {merged : List α}
    (h : Interleaves lists merged) : merged.Perm lists.flatten := by
  induction h with
  | nil h => rw [List.flatten_eq_nil_iff.mpr h]
  | @cons front back first list merged _ ih =>
    simp only [List.flatten_append, List.flatten_cons, List.cons_append] at ih ⊢
    exact (ih.cons first).trans List.perm_middle.symm

/-- The last call of a sequence. -/
theorem ConformsRun.concat {K V : Type} [LinearOrder K] {ops : List (MapOp K V)} {op : MapOp K V}
    {m m' : K → Option V} {results : List (MapResult K V)}
    (h : ConformsRun m (ops ++ [op]) results m') :
    ∃ front result m₁, results = front ++ [result] ∧ ConformsRun m ops front m₁ ∧
      op.Conforms m₁ result m' := by
  -- by induction on the calls in front of the last one
  induction ops generalizing m results with
  | nil =>
    cases results with
    | nil => exact h.elim
    | cons result results =>
      obtain ⟨m₁, hop, hrest⟩ := h
      cases results with
      | nil =>
        obtain rfl : m' = m₁ := hrest
        exact ⟨[], result, m, rfl, rfl, hop⟩
      | cons => exact hrest.elim
  | cons first ops ih =>
    cases results with
    | nil => exact h.elim
    | cons result results =>
      obtain ⟨m₁, hop, hrest⟩ := h
      obtain ⟨front, last, m₂, rfl, hfront, hlast⟩ := ih hrest
      exact ⟨result :: front, last, m₂, rfl, ⟨m₁, hop, hfront⟩, hlast⟩

namespace MapOp

variable {K V : Type}

/-- What a call changes. -/
def update? : MapOp K V → Option (Update K V)
  | put key value => some (.put key value)
  | delete key => some (.delete key)
  | _ => none

/-- Calls that do not clear the map apply their updates. -/
theorem applyAll_of_conforms [LinearOrder K] {ops : List (MapOp K V)} (hclear : .clear ∉ ops)
    {m m' : K → Option V} {results : List (MapResult K V)}
    (h : ConformsRun m ops results m') : m' = Update.applyAll m (ops.filterMap update?) := by
  -- by induction on the calls: only `put` and `delete` leave another map
  induction ops generalizing m results with
  | nil =>
    cases results with
    | nil => exact h
    | cons => exact h.elim
  | cons op ops ih =>
    cases results with
    | nil => exact h.elim
    | cons result results =>
      obtain ⟨m₁, hop, hrest⟩ := h
      have hops := ih (fun hmem => hclear (List.mem_cons_of_mem _ hmem)) hrest
      rw [hops]
      cases op with
      | put key value | delete key =>
        cases result <;> simp only [Conforms] at hop
        obtain ⟨-, rfl⟩ := hop
        rfl
      | get | scan | snapshot | size =>
        cases result <;> simp only [Conforms] at hop
        obtain ⟨-, rfl⟩ := hop
        rfl
      | clear => exact absurd List.mem_cons_self hclear

end MapOp

namespace Update

variable {K V : Type} [DecidableEq K] {us vs : List (Update K V)} {m : K → Option V}

/-- What updates leave under a key that one of them is of. -/
theorem applyAll_of_agree (hagree : ∀ u ∈ us, ∀ v ∈ us, u.key = v.key → u = v) {u : Update K V}
    (hu : u ∈ us) (m : K → Option V) : applyAll m us u.key = u.effect := by
  rw [applyAll_eq_lastEffect, lastEffect]
  cases hlast : (us.filter fun v => v.key = u.key).getLast? with
  | none =>
    have hnone := List.filter_eq_nil_iff.mp (List.getLast?_eq_none_iff.mp hlast) u hu
    simp at hnone
  | some v =>
    obtain ⟨hv, hkey⟩ := List.mem_filter.mp (List.mem_of_getLast? hlast)
    rw [hagree v hv u hu (of_decide_eq_true hkey)]
    rfl

/-- Updates leave a key alone that none of them is of. -/
theorem applyAll_of_forall_ne {k : K} (hkey : ∀ u ∈ us, u.key ≠ k) (m : K → Option V) :
    applyAll m us k = m k := by
  rw [applyAll_eq_lastEffect, (lastEffect_eq_none us k).mpr hkey]
  rfl

/-- Updates no two different of which are of the same key may be made in any order and any
    number of times, and one that would change nothing in the end may be left out. -/
theorem applyAll_congr (hagree : ∀ u ∈ us, ∀ v ∈ us, u.key = v.key → u = v) (hsub : vs ⊆ us)
    (hrest : ∀ u ∈ us, u ∈ vs ∨ applyAll m vs u.key = u.effect) :
    applyAll m vs = applyAll m us := by
  have hagree' : ∀ u ∈ vs, ∀ v ∈ vs, u.key = v.key → u = v :=
    fun u hu v hv => hagree u (hsub hu) v (hsub hv)
  funext k
  by_cases hk : ∃ u ∈ us, u.key = k
  · obtain ⟨u, hu, rfl⟩ := hk
    rw [applyAll_of_agree hagree hu]
    exact (hrest u hu).elim (fun hmem => applyAll_of_agree hagree' hmem m) id
  · push Not at hk
    rw [applyAll_of_forall_ne hk, applyAll_of_forall_ne fun u hu => hk u (hsub hu)]

end Update
