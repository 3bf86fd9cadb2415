import KvStore.ForStd.Lookup
import KvStore.ForStd.OrderedMap

/-!
# Logs of updates

The state of a map is the result of a log of updates, each of which sets or clears one
key. The last update of a key decides, so a log may be applied again to a state that
contains it (`applyAll_replay`), and an update matters only if it changes the state.
-/

/-- One update of a map. -/
inductive Update (K V : Type) where
  | put (key : K) (value : V)
  | delete (key : K)
  deriving DecidableEq, Repr

namespace Update

variable {K V : Type}

/-- The key that is updated. -/
def key : Update K V → K
  | put key _ => key
  | delete key => key

/-- What is under the key afterwards. -/
def effect : Update K V → Option V
  | put _ value => some value
  | delete _ => none

variable [DecidableEq K]

/-- The map after the update. -/
def apply (m : K → Option V) (u : Update K V) : K → Option V :=
  Function.update m u.key u.effect

/-- The map after a log of updates. -/
def applyAll (m : K → Option V) (us : List (Update K V)) : K → Option V :=
  us.foldl apply m

/-- What the last update of `k` in a log leaves under it, if there is one. -/
def lastEffect (us : List (Update K V)) (k : K) : Option (Option V) :=
  (us.filter fun u => u.key = k).getLast?.map effect

variable {m : K → Option V} {us : List (Update K V)} {k : K}

@[simp] theorem applyAll_nil (m : K → Option V) : applyAll m [] = m := rfl

@[simp] theorem applyAll_cons (m : K → Option V) (u : Update K V) (us : List (Update K V)) :
    applyAll m (u :: us) = applyAll (u.apply m) us := rfl

@[simp] theorem applyAll_append (m : K → Option V) (us vs : List (Update K V)) :
    applyAll m (us ++ vs) = applyAll (applyAll m us) vs :=
  List.foldl_append

/-- The last effect on a key is that of the later updates, if they concern it. -/
theorem lastEffect_append (us vs : List (Update K V)) (k : K) :
    lastEffect (us ++ vs) k = (lastEffect vs k).or (lastEffect us k) := by
  unfold lastEffect
  rw [List.filter_append, List.getLast?_append]
  cases (vs.filter fun u => u.key = k).getLast? <;> rfl

theorem lastEffect_singleton (u : Update K V) (k : K) :
    lastEffect [u] k = if u.key = k then some u.effect else none := by
  by_cases h : u.key = k <;> simp [lastEffect, h]

/-- The last update of a key decides what is under it. -/
theorem applyAll_eq_lastEffect (m : K → Option V) (us : List (Update K V)) (k : K) :
    applyAll m us k = (lastEffect us k).getD (m k) := by
  induction us generalizing m with
  | nil => rfl
  | cons u us ih =>
    rw [applyAll_cons, ih, ← List.singleton_append, lastEffect_append, lastEffect_singleton]
    cases lastEffect us k with
    | some effect => rfl
    | none =>
      by_cases hk : u.key = k
      · subst hk
        simp [apply]
      · simp [apply, hk, Ne.symm hk]

/-- What a log leaves under a key was there before or was put by one of its updates. -/
theorem put_mem_of_applyAll {v : V} (h : applyAll m us k = some v) :
    m k = some v ∨ put k v ∈ us := by
  rw [applyAll_eq_lastEffect] at h
  cases hlast : (us.filter fun u => u.key = k).getLast? with
  | none =>
    rw [lastEffect, hlast] at h
    exact .inl h
  | some u =>
    rw [lastEffect, hlast] at h
    obtain ⟨hmem, hkey⟩ := List.mem_filter.mp (List.mem_of_getLast? hlast)
    apply Or.inr
    cases u with
    | put a w =>
      obtain rfl : a = k := of_decide_eq_true hkey
      obtain rfl : w = v := Option.some.inj h
      exact hmem
    | delete a => cases h

/-- A log may be applied again to a state that contains it. -/
theorem applyAll_replay (m : K → Option V) (us : List (Update K V)) :
    applyAll (applyAll m us) us = applyAll m us := by
  funext k
  rw [applyAll_eq_lastEffect, applyAll_eq_lastEffect]
  cases lastEffect us k <;> rfl

/-- The maps after the beginnings of a log follow from one another. -/
theorem applyAll_take_of_le (m : K → Option V) (us : List (Update K V)) {c n : Nat}
    (h : c ≤ n) :
    applyAll m (us.take n) = applyAll (applyAll m (us.take c)) ((us.take n).drop c) := by
  rw [← applyAll_append]
  congr 1
  have htake : us.take c = (us.take n).take c := by rw [List.take_take, Nat.min_eq_left h]
  rw [htake, List.take_append_drop]

/-- A part of a log may be replayed over a map from the middle of that part. -/
theorem applyAll_replay_take (m : K → Option V) (us : List (Update K V)) {c b n : Nat}
    (hcb : c ≤ b) (hbn : b ≤ n) :
    applyAll (applyAll m (us.take b)) ((us.take n).drop c) = applyAll m (us.take n) := by
  have hparts : (us.take n).drop c = (us.take b).drop c ++ (us.take n).drop b := by
    have hlength : n - c = (b - c) + (n - b) := by omega
    rw [List.drop_take, List.drop_take, List.drop_take, hlength, List.take_add, List.drop_drop,
      Nat.add_sub_cancel' hcb]
  rw [hparts, applyAll_append, applyAll_take_of_le m us hcb, applyAll_replay,
    ← applyAll_take_of_le m us hcb, ← applyAll_take_of_le m us hbn]

/-- A part of a log that is replayed over a map from behind that part: every key has its
    value from one of the two moments. -/
theorem applyAll_replay_take_apply (m : K → Option V) (us : List (Update K V)) {c n : Nat}
    (hcn : c ≤ n) (b : Nat) (k : K) :
    applyAll (applyAll m (us.take b)) ((us.take n).drop c) k = applyAll m (us.take n) k ∨
      applyAll (applyAll m (us.take b)) ((us.take n).drop c) k = applyAll m (us.take b) k := by
  rw [applyAll_take_of_le m us hcn]
  simp only [applyAll_eq_lastEffect _ ((us.take n).drop c)]
  cases lastEffect ((us.take n).drop c) k with
  | some effect => exact .inl rfl
  | none => exact .inr rfl

/-- `u` may be applied before the updates `front` that precede it in a log, and before the
    updates `back` that follow it: a later one of the same key follows, or the last one of
    the same key that precedes it has the same effect. -/
def MayOvertake (front : List (Update K V)) (u : Update K V) (back : List (Update K V)) : Prop :=
  (∃ w ∈ back, w.key = u.key) ∨ ∀ effect ∈ lastEffect front u.key, effect = u.effect

/-- A key without an effect is one that no update concerns. -/
theorem lastEffect_eq_none (us : List (Update K V)) (k : K) :
    lastEffect us k = none ↔ ∀ u ∈ us, u.key ≠ k := by
  simp [lastEffect]

/-- Applying an update before the others gives the same map exactly if it may overtake
    them. -/
theorem applyAll_overtake_iff (m : K → Option V) (front : List (Update K V)) (u : Update K V)
    (back : List (Update K V)) :
    applyAll (u.apply m) (front ++ back) = applyAll m (front ++ u :: back) ↔
      MayOvertake front u back := by
  have hlog : lastEffect (front ++ u :: back) u.key =
      (lastEffect back u.key).or (some u.effect) := by
    rw [lastEffect_append, ← List.singleton_append, lastEffect_append, lastEffect_singleton,
      if_pos rfl]
    cases lastEffect back u.key <;> rfl
  constructor
  · intro h
    by_cases hback : ∃ w ∈ back, w.key = u.key
    · exact .inl hback
    · -- Nothing behind `u` hides its effect, so the two maps show it at its key.
      have hnone : lastEffect back u.key = none :=
        (lastEffect_eq_none back u.key).mpr fun w hw hkey => hback ⟨w, hw, hkey⟩
      refine .inr fun effect heffect => ?_
      have hkey := congrFun h u.key
      rw [applyAll_eq_lastEffect, applyAll_eq_lastEffect, hlog, lastEffect_append, hnone,
        show lastEffect front u.key = some effect from heffect] at hkey
      exact hkey
  · intro h
    funext k
    rw [applyAll_eq_lastEffect, applyAll_eq_lastEffect]
    by_cases hk : k = u.key
    · subst hk
      have hself : u.apply m u.key = u.effect := Function.update_self _ _ _
      rw [hlog, lastEffect_append, hself]
      cases hback : lastEffect back u.key with
      | some effect => rfl
      | none =>
        have hfront := h.resolve_left fun ⟨w, hw, hkey⟩ =>
          (lastEffect_eq_none back u.key).mp hback w hw hkey
        cases hlast : lastEffect front u.key with
        | none => rfl
        | some effect => exact hfront effect hlast
    · have hother : u.apply m k = m k := Function.update_of_ne hk _ _
      rw [hother, lastEffect_append, lastEffect_append, ← List.singleton_append,
        lastEffect_append, lastEffect_singleton, if_neg (Ne.symm hk), Option.or_none]

end Update

section Order

variable {K V : Type} [LinearOrder K]

namespace Update

/-- Putting the pairs of an ascending list one after another. -/
theorem applyAll_puts {list : List (K × V)} (h : list.Pairwise fun a b => a.1 < b.1)
    (m : K → Option V) (k : K) :
    applyAll m (list.map fun e => put e.1 e.2) k = (list.lookup k).or (m k) := by
  induction list generalizing m with
  | nil => rfl
  | cons e list ih =>
    obtain ⟨he, hlist⟩ := List.pairwise_cons.mp h
    obtain ⟨a, v⟩ := e
    rw [List.map_cons, applyAll_cons, ih hlist]
    by_cases hk : k = a
    · subst hk
      rw [List.lookup_eq_none_of_forall_ne fun e hmem => (he e hmem).ne', List.lookup_cons_self]
      simp [apply, key, effect]
    · rw [List.lookup_cons_of_ne hk]
      simp [apply, key, hk]

end Update

/-- Putting the pairs of a map one after another gives the map. -/
theorem ListsMap.applyAll_puts {m : K → Option V} {list : List (K × V)}
    (h : ListsMap m (fun _ => True) list) :
    Update.applyAll (fun _ => none) (list.map fun e => Update.put e.1 e.2) = m := by
  funext k
  rw [Update.applyAll_puts h.sorted, Option.or_none]
  apply Option.ext
  intro v
  rw [List.lookup_eq_some_iff_mem h.sorted, h.mem_iff, and_iff_left trivial]

end Order
