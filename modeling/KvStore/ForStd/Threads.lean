import Mathlib.Algebra.BigOperators.Group.Finset.Basic
import Mathlib.Algebra.BigOperators.Group.Finset.Piecewise
import Mathlib.Tactic.Abel

/-!
# Proof outlines for threads that share a state

Every thread stands at a point `pc t` of its program, and threads take turns to make
steps that change a shared state `s` and their own point. A proof outline gives an
invariant of the shared state, an assertion for every point, and a relation between the
points of two threads. It stays true if every step keeps the invariant, establishes the
assertion of its thread, and does not interfere with the assertions of the others
(`Outline.Holds.step`). A sum over all threads changes with the thread that moves
(`sum_update`).
-/

variable {σ T L : Type*}

/-- A proof outline. -/
structure Outline (σ T L : Type*) where
  inv : σ → Prop
  asserts : T → σ → L → Prop
  apart : L → L → Prop
  symm : ∀ {l m}, apart l m → apart m l

namespace Outline

/-- All of the outline is true. -/
structure Holds (o : Outline σ T L) (s : σ) (pc : T → L) : Prop where
  inv : o.inv s
  asserts : ∀ t, o.asserts t s (pc t)
  apart : ∀ t u, t ≠ u → o.apart (pc t) (pc u)

/-- A step of the thread `t` from `l` to `l'` is correct and free of interference. -/
structure Correct (o : Outline σ T L) (t : T) (s : σ) (l : L) (s' : σ) (l' : L) : Prop where
  inv : o.inv s'
  asserts : o.asserts t s' l'
  free : ∀ u m, u ≠ t → o.asserts u s m → o.apart l m → o.asserts u s' m
  apart : ∀ u m, u ≠ t → o.asserts u s m → o.apart l m → o.apart l' m

/-- The outline stays true. -/
theorem Holds.step [DecidableEq T] {o : Outline σ T L} {s s' : σ} {pc : T → L} {t : T} {l' : L}
    (h : o.Holds s pc) (hcorrect : o.Correct t s (pc t) s' l') :
    o.Holds s' (Function.update pc t l') where
  inv := hcorrect.inv
  asserts u := by
    -- the thread that moves asserts its next outline, the others are not disturbed
    by_cases hu : u = t
    · subst hu
      rw [Function.update_self]
      exact hcorrect.asserts
    · rw [Function.update_of_ne hu]
      exact hcorrect.free u _ hu (h.asserts u) (h.apart t u (Ne.symm hu))
  apart u v huv := by
    by_cases hu : u = t
    · subst hu
      rw [Function.update_self, Function.update_of_ne (Ne.symm huv)]
      exact hcorrect.apart v _ (Ne.symm huv) (h.asserts v) (h.apart u v huv)
    · rw [Function.update_of_ne hu]
      by_cases hv : v = t
      · subst hv
        rw [Function.update_self]
        exact o.symm (hcorrect.apart u _ hu (h.asserts u) (h.apart v u (Ne.symm huv)))
      · rw [Function.update_of_ne hv]
        exact h.apart u v huv

end Outline

/-- What the threads owe together, when one of them has moved. -/
theorem sum_update [Fintype T] [DecidableEq T] (f : L → Int) (pc : T → L) (t : T) (l : L) :
    ∑ u, f (Function.update pc t l u) = ∑ u, f (pc u) + (f l - f (pc t)) := by
  have hfun : (fun u => f (Function.update pc t l u)) =
      Function.update (fun u => f (pc u)) t (f l) :=
    funext fun u => Function.apply_update (fun _ => f) pc t l u
  rw [hfun, Finset.sum_update_of_mem (Finset.mem_univ t),
    Finset.sum_eq_add_sum_sdiff_singleton_of_mem (Finset.mem_univ t) fun u => f (pc u)]
  abel
