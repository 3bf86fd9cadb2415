import KvStore.Native.MapStore
import KvStore.ForStd.Lookup
import Mathlib.Order.Compare
import Mathlib.Data.List.TakeWhile

/-!
# The reference store is an ordered map

`MapStore.run_conforms`: the results of the reference store are those of a map
`K → Option V`, and its `Scan` returns the pairs in its range.
-/

namespace KvStore.MapStore

variable {K V : Type} [LinearOrder K]

/-- A new store is empty. -/
theorem get_new : (new : MapStore K V).get = fun _ => none :=
  funext fun _ => Std.TreeMap.getElem?_emptyc

/-- `Put` returns `true` for a key that is absent. -/
theorem put_fst (m : MapStore K V) (key : K) (value : V) :
    (m.put key value).1 = true ↔ m.get key = none := by
  have hfound : (m.data.containsThenInsertIfNew key value).1 = (m.get key).isSome := by
    rw [Std.TreeMap.containsThenInsertIfNew_fst]
    exact Std.TreeMap.contains_eq_isSome_getElem?
  simp only [put]
  rw [hfound]
  cases m.get key <;> simp

/-- `Put` leaves the value under the key. -/
theorem get_put (m : MapStore K V) (key : K) (value : V) :
    (m.put key value).2.get = Function.update m.get key (some value) := by
  funext k
  simp only [put, Std.TreeMap.containsThenInsertIfNew_fst,
    Std.TreeMap.containsThenInsertIfNew_snd]
  have hinsert : (m.data.insertIfNew key value)[k]? =
      if compare key k = .eq ∧ ¬ key ∈ m.data then some value else m.data[k]? :=
    Std.TreeMap.getElem?_insertIfNew
  by_cases hk : k = key
  · subst hk
    -- an equal key in the tree is overwritten, a new one has been inserted
    cases hfound : m.data.contains k with
    | true => simp [get]
    | false =>
      have hmem : k ∉ m.data := by
        rw [← Std.TreeMap.contains_iff_mem, hfound]
        exact Bool.false_ne_true
      rw [Function.update_self]
      exact hinsert.trans (if_pos ⟨Std.ReflCmp.compare_self, hmem⟩)
  · have hcmp : compare key k ≠ .eq := fun h => hk (compare_eq_iff_eq.mp h).symm
    rw [if_neg fun h => hcmp h.1] at hinsert
    rw [Function.update_of_ne hk]
    cases m.data.contains key with
    | true =>
      show ((m.data.insertIfNew key value).insert key value)[k]? = _
      rw [Std.TreeMap.getElem?_insert, if_neg hcmp, hinsert]
      rfl
    | false => exact hinsert

/-- `Delete` returns `true` for a key that is present. -/
theorem delete_fst (m : MapStore K V) (key : K) :
    (m.delete key).1 = true ↔ m.get key ≠ none := by
  simp only [delete, Std.TreeMap.contains_eq_isSome_getElem?, Option.isSome_iff_ne_none]
  rfl

/-- `Delete` leaves nothing under the key. -/
theorem get_delete (m : MapStore K V) (key : K) :
    (m.delete key).2.get = Function.update m.get key none := by
  funext k
  by_cases hk : k = key
  · subst hk
    simp [get, delete]
  · have hcmp : compare key k ≠ .eq := fun h => hk (compare_eq_iff_eq.mp h).symm
    simp [get, delete, Std.TreeMap.getElem?_erase, hcmp, hk]

/-- The elements of the reference store, in ascending order. -/
theorem lists_snapshot (m : MapStore K V) : ListsMap m.get (fun _ => True) m.snapshot where
  sorted := Std.TreeMap.ordered_keys_toList.imp fun h => compare_lt_iff_lt.mp h
  mem_iff k v := by
    rw [and_iff_left trivial]
    exact Std.TreeMap.mem_toList_iff_getElem?_eq_some

/-- `Scan` walks over the elements in its range. -/
theorem lists_scan (m : MapStore K V) (start stop : K) :
    ListsMap m.get (fun k => start ≤ k ∧ k ≤ stop) (m.scan start stop) := by
  have hall := m.lists_snapshot
  by_cases hempty : stop < start
  · -- no key lies in the range
    rw [scan, if_pos hempty]
    refine ⟨List.Pairwise.nil, fun k v => ?_⟩
    simp only [List.not_mem_nil, false_iff, not_and]
    intro _ hstart hstop
    exact (hstart.trans hstop).not_gt hempty
  · have hscan : m.scan start stop =
        (m.snapshot.filter fun e => !decide (e.1 < start)).filter fun e => e.1 ≤ stop := by
      rw [scan, if_neg hempty]
      show (m.snapshot.dropWhile _).takeWhile _ = _
      rw [List.dropWhile_eq_filter_of_pairwise hall.sorted, List.takeWhile_eq_filter_of_pairwise
        (hall.sorted.sublist List.filter_sublist)]
      · intro a b hab hb
        simp only [decide_eq_true_eq] at hb ⊢
        exact hab.le.trans hb
      · intro a b hab hb
        simp only [decide_eq_true_eq] at hb ⊢
        exact hab.trans hb
    rw [hscan]
    refine ⟨(hall.sorted.sublist List.filter_sublist).sublist List.filter_sublist, fun k v => ?_⟩
    simp only [List.mem_filter, hall.mem_iff, Bool.not_eq_true', decide_eq_false_iff_not,
      decide_eq_true_eq, not_lt]
    tauto

/-- Every call of the reference store conforms. -/
theorem exec_conforms (m : MapStore K V) (op : MapOp K V) :
    op.Conforms m.get (m.exec op).1 (m.exec op).2.get := by
  cases op with
  | put key value => exact ⟨m.put_fst key value, m.get_put key value⟩
  | get key => exact ⟨rfl, rfl⟩
  | delete key => exact ⟨m.delete_fst key, m.get_delete key⟩
  | scan start stop => exact ⟨m.lists_scan start stop, rfl⟩
  | snapshot => exact ⟨m.lists_snapshot, rfl⟩
  | size =>
    have hsize : m.snapshot.length = m.size := Std.TreeMap.length_toList
    exact ⟨hsize ▸ m.lists_snapshot.card, rfl⟩
  | clear => exact get_new

/-- The results of the reference store conform. -/
theorem run_conforms (m : MapStore K V) (ops : List (MapOp K V)) :
    ConformsRun m.get ops (m.run ops).1 (m.run ops).2.get := by
  induction ops generalizing m with
  | nil => exact rfl
  | cons op ops ih => exact ⟨_, m.exec_conforms op, ih _⟩

end KvStore.MapStore
