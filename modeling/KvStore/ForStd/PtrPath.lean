import Mathlib.Data.List.Basic

/-!
# Linked lists in a heap

A heap of singly linked cells is seen through `load`, which reads the pointer of a
cell: `none` if the cell cannot be read, `some none` if its pointer is null. The
predicate `PtrPath load p cells` says that following the pointers from `p` visits
exactly `cells` and ends at null. The lemmas say what a path keeps when pointers
elsewhere change, and when a cell is spliced in or taken out.
-/

/-- The pointers lead from `p` through exactly `cells` and then to null. -/
def PtrPath {α : Type*} (load : α → Option (Option α)) : α → List α → Prop
  | p, [] => load p = some none
  | p, q :: rest => load p = some (some q) ∧ PtrPath load q rest

/-- Following the pointers decides whether there is a path. -/
instance PtrPath.decidable {α : Type*} [DecidableEq α] (load : α → Option (Option α)) :
    ∀ p cells, Decidable (PtrPath load p cells)
  | p, [] => inferInstanceAs (Decidable (load p = some none))
  | p, q :: rest =>
    @instDecidableAnd _ _ (inferInstanceAs (Decidable (load p = some (some q))))
      (decidable load q rest)

namespace PtrPath

variable {α : Type*} {load load' : α → Option (Option α)} {p : α} {front rest cells : List α}

/-- The last cell of `front` is `p` or one of the cells. -/
private theorem getLastD_mem (p : α) (front : List α) : front.getLastD p ∈ p :: front := by
  rw [List.getLastD_eq_getLast?]
  cases hlast : front.getLast? with
  | none => exact List.mem_cons_self
  | some q => exact List.mem_cons_of_mem p (List.mem_of_getLast? hlast)

/-- The rest of a path is a path from the cell reached so far. -/
theorem suffix (h : PtrPath load p (front ++ rest)) : PtrPath load (front.getLastD p) rest := by
  induction front generalizing p with
  | nil => exact h
  | cons q front ih =>
    rw [List.getLastD_cons]
    exact ih h.2

/-- The pointer read at the start of a path. -/
theorem load_eq (h : PtrPath load p cells) : load p = some cells.head? := by
  cases cells with
  | nil => exact h
  | cons q rest => exact h.1

/-- The pointer read in the middle of a path. -/
theorem load_getLastD (h : PtrPath load p (front ++ rest)) :
    load (front.getLastD p) = some rest.head? :=
  h.suffix.load_eq

/-- The pointers leave no choice. -/
theorem unique {cells' : List α} (h : PtrPath load p cells) (h' : PtrPath load p cells') :
    cells = cells' := by
  induction cells generalizing p cells' with
  | nil =>
    cases cells' with
    | nil => rfl
    | cons q rest' => exact absurd (h.symm.trans h'.1) (by simp)
  | cons q rest ih =>
    cases cells' with
    | nil => exact absurd (h'.symm.trans h.1) (by simp)
    | cons q' rest' =>
      have hq : q = q' := by simpa using h.1.symm.trans h'.1
      subst hq
      rw [ih h.2 h'.2]

/-- What holds of the first cell and is passed on by the pointers holds of every cell. -/
theorem invariant {P : α → Prop} (h : PtrPath load p cells) (hp : P p)
    (hstep : ∀ q r, P q → load q = some (some r) → P r) : ∀ q ∈ p :: cells, P q := by
  induction cells generalizing p with
  | nil => simpa using hp
  | cons c rest ih =>
    have hrest := ih h.2 (hstep p c hp h.1)
    rintro q hq
    rcases List.mem_cons.mp hq with rfl | hq
    · exact hp
    · exact hrest q hq

/-- A cell that a cell of the path points to is on the path. -/
theorem mem_of_load {q r : α} (h : PtrPath load p cells) (hq : q ∈ p :: cells)
    (hload : load q = some (some r)) : r ∈ cells := by
  induction cells generalizing p with
  | nil =>
    rw [List.mem_singleton] at hq
    subst hq
    exact absurd (h.symm.trans hload) (by simp)
  | cons c rest ih =>
    rcases List.mem_cons.mp hq with rfl | hq
    · have hr : c = r := by simpa using h.1.symm.trans hload
      exact hr ▸ List.mem_cons_self
    · exact List.mem_cons_of_mem c (ih h.2 hq)

/-- A path whose pointers all lead upwards is sorted. -/
theorem pairwise {R : α → α → Prop} (h : PtrPath load p cells)
    (htrans : ∀ {a b c}, R a b → R b c → R a c)
    (hstep : ∀ q ∈ p :: cells, ∀ r, load q = some (some r) → R q r) :
    (p :: cells).Pairwise R := by
  induction cells generalizing p with
  | nil => exact List.pairwise_singleton R p
  | cons c rest ih =>
    have hrest := ih h.2 fun q hq => hstep q (List.mem_cons_of_mem p hq)
    have hc : R p c := hstep p List.mem_cons_self c h.1
    refine List.pairwise_cons.mpr ⟨fun r hr => ?_, hrest⟩
    rcases List.mem_cons.mp hr with rfl | hr
    · exact hc
    · exact htrans hc ((List.pairwise_cons.mp hrest).1 r hr)

/-- On a sorted path the pointer of a cell does not lead past a later cell. -/
theorem exists_next {R : α → α → Prop} {q r : α} (h : PtrPath load p cells)
    (hsorted : (p :: cells).Pairwise R) (hasymm : ∀ {a b}, R a b → ¬ R b a)
    (hq : q ∈ p :: cells) (hr : r ∈ p :: cells) (hqr : R q r) :
    ∃ c, load q = some (some c) ∧ (c = r ∨ R c r) := by
  induction cells generalizing p with
  | nil =>
    rw [List.mem_singleton] at hq hr
    subst hq hr
    exact absurd hqr (hasymm hqr)
  | cons c rest ih =>
    obtain ⟨hp, hrest⟩ := List.pairwise_cons.mp hsorted
    rcases List.mem_cons.mp hr with rfl | hbehind
    · -- nothing comes before the first cell
      rcases List.mem_cons.mp hq with rfl | hlater
      · exact absurd hqr (hasymm hqr)
      · exact absurd (hp q hlater) (hasymm hqr)
    · rcases List.mem_cons.mp hq with rfl | hlater
      · refine ⟨c, h.1, ?_⟩
        rcases List.mem_cons.mp hbehind with rfl | hmem
        · exact .inl rfl
        · exact .inr ((List.pairwise_cons.mp hrest).1 r hmem)
      · exact ih h.2 hrest hlater hbehind

/-- The parts of a path before and behind one of its cells. -/
theorem exists_front {q : α} (hq : q ∈ p :: cells) :
    ∃ front rest, cells = front ++ rest ∧ front.getLastD p = q := by
  rcases List.mem_cons.mp hq with rfl | hq
  · exact ⟨[], cells, rfl, rfl⟩
  · obtain ⟨front, rest, rfl⟩ := List.append_of_mem hq
    refine ⟨front ++ [q], rest, by simp, ?_⟩
    rw [List.getLastD_eq_getLast?, List.getLast?_concat]
    rfl

/-- A path depends only on the pointers of the cells it visits. -/
theorem congr (h : PtrPath load p cells) (hload : ∀ q ∈ p :: cells, load' q = load q) :
    PtrPath load' p cells := by
  induction cells generalizing p with
  | nil => exact (hload p (List.mem_singleton_self p)).trans h
  | cons q rest ih =>
    exact ⟨(hload p List.mem_cons_self).trans h.1,
      ih h.2 fun r hr => hload r (List.mem_cons_of_mem p hr)⟩

/-- A path whose part after `front` is replaced: only the pointer of the last cell of
    `front` may change among the cells before it. -/
theorem replace_suffix {rest' : List α} (h : PtrPath load p (front ++ rest))
    (hnodup : (p :: front).Nodup)
    (hload : ∀ q ∈ p :: front, q ≠ front.getLastD p → load' q = load q)
    (hrest : PtrPath load' (front.getLastD p) rest') : PtrPath load' p (front ++ rest') := by
  induction front generalizing p with
  | nil => exact hrest
  | cons q front ih =>
    rw [List.getLastD_cons] at hload hrest
    obtain ⟨hp, hnodup⟩ := List.nodup_cons.mp hnodup
    refine ⟨(hload p List.mem_cons_self ?_).trans h.1,
      ih h.2 hnodup (fun r hr => hload r (List.mem_cons_of_mem p hr)) hrest⟩
    -- the last cell of `front` is one of `q :: front`, which does not hold `p`
    rintro rfl
    exact hp (getLastD_mem q front)

/-- A cell spliced in between two parts of a path. -/
theorem insert {new : α} (h : PtrPath load p (front ++ rest))
    (hnodup : (p :: (front ++ rest)).Nodup) (hnew : load' new = some rest.head?)
    (hlast : load' (front.getLastD p) = some (some new))
    (hload : ∀ q ∈ p :: (front ++ rest), q ≠ front.getLastD p → load' q = load q) :
    PtrPath load' p (front ++ new :: rest) := by
  have hmem : ∀ q ∈ p :: front, q ∈ p :: (front ++ rest) := by simp; tauto
  -- the node that is changed is none of those behind the new one
  have hdisj : ∀ q ∈ rest, q ≠ front.getLastD p := by
    rintro q hq rfl
    rw [← List.cons_append, List.nodup_append] at hnodup
    exact hnodup.2.2 _ (getLastD_mem p front) _ hq rfl
  refine h.replace_suffix (List.Nodup.sublist (by simp) hnodup)
    (fun q hq => hload q (hmem q hq)) ⟨hlast, ?_⟩
  cases rest with
  | nil => exact hnew
  | cons q rest =>
    refine ⟨hnew, h.suffix.2.congr fun r hr => hload r ?_ (hdisj r hr)⟩
    exact List.mem_cons_of_mem p (List.mem_append_right front hr)

/-- A cell taken out of a path. -/
theorem remove {victim : α} (h : PtrPath load p (front ++ victim :: rest))
    (hnodup : (p :: (front ++ victim :: rest)).Nodup)
    (hlast : load' (front.getLastD p) = some rest.head?)
    (hload : ∀ q ∈ p :: (front ++ rest), q ≠ front.getLastD p → load' q = load q) :
    PtrPath load' p (front ++ rest) := by
  have hmem : ∀ q ∈ p :: front, q ∈ p :: (front ++ rest) := by simp; tauto
  have hdisj : ∀ q ∈ rest, q ≠ front.getLastD p := by
    rintro q hq rfl
    rw [← List.cons_append, List.nodup_append] at hnodup
    exact hnodup.2.2 _ (getLastD_mem p front) _ (List.mem_cons_of_mem victim hq) rfl
  refine h.replace_suffix (List.Nodup.sublist (by simp) hnodup)
    (fun q hq => hload q (hmem q hq)) ?_
  cases rest with
  | nil => exact hlast
  | cons q rest =>
    refine ⟨hlast, h.suffix.2.2.congr fun r hr => hload r ?_ (hdisj r hr)⟩
    exact List.mem_cons_of_mem p (List.mem_append_right front hr)

end PtrPath
