import KvStore.ForStd.UpdateLog
import KvStore.Spec.SkipListCorrect

/-!
# The index of the store

`KVStore` keeps a `SkipList` with the default sixteen levels. An `Index` is such a skip
list together with the proof that it is well-formed, so the calls that are made on it one
after another are total functions. The lemmas about them say what each call does to the
map `Index.get`; nothing else of the skip list is needed later.
-/

namespace KvStore

/-- The default value of the argument `max_level` of the constructor of `SkipList`. -/
def defaultMaxLevel : Nat := 16

/-- A well-formed skip list, and the coin flips that its random number generator is still
    going to make: `coins i` are those of the `i`-th call of `RandomLevel` from now on. -/
structure Index (K V : Type) [LinearOrder K] where
  list : SkipList K V
  coins : Nat → Nat → Bool
  holds : ∃ m, list.Holds m
  levels : 0 < list.maxLevel

namespace Index

variable {K V : Type} [LinearOrder K]

/-- The constructor. -/
def new [Inhabited K] [Inhabited V] (coins : Nat → Nat → Bool) : Index K V where
  list := SkipList.new defaultMaxLevel
  coins := coins
  holds := ⟨_, SkipList.holds_new defaultMaxLevel⟩
  levels := Nat.succ_pos _

/-- Fuel for a search in a list of this size. -/
def fuel (x : Index K V) : Nat := x.list.size + 1

private theorem size_lt_fuel (x : Index K V) : x.list.size < x.fuel :=
  Nat.lt_succ_self _

/-- The levels that the passes of the next call of `Put` draw. -/
def heights (x : Index K V) (pass : Nat) : Nat :=
  SkipList.randomLevel x.list.maxLevel (x.coins pass)

/-- There are enough passes for `Get`. -/
private theorem get_isSome (x : Index K V) (key : K) :
    (x.list.get x.fuel key).isSome := by
  obtain ⟨m, hm⟩ := x.holds
  rw [hm.get_eq key x.size_lt_fuel]
  rfl

/-- `Get`. -/
def get (x : Index K V) (key : K) : Option V :=
  (x.list.get x.fuel key).get (x.get_isSome key)

/-- A skip list determines the map that it holds. -/
private theorem get_eq_of_holds (x : Index K V) {m : K → Option V} (h : x.list.Holds m) :
    x.get = m := by
  funext key
  simp only [get, h.get_eq key x.size_lt_fuel, Option.get_some]

/-- The skip list holds the map that `Get` reads. -/
theorem holds_get (x : Index K V) : x.list.Holds x.get := by
  obtain ⟨m, hm⟩ := x.holds
  rwa [x.get_eq_of_holds hm]

/-- `Put` on the list, with the passes and heights of the index. -/
private theorem put_spec (x : Index K V) (key : K) (value : V) :
    ∃ t, x.list.put x.fuel x.heights key value = some ((x.get key).isNone, t) ∧
      x.list.Leaves t (Function.update x.get key (some value)) :=
  x.holds_get.put_eq key value (SkipList.randomLevel_mem x.levels _) x.size_lt_fuel

/-- There are enough passes for `Put`. -/
private theorem put_isSome (x : Index K V) (key : K) (value : V) :
    (x.list.put x.fuel x.heights key value).isSome := by
  obtain ⟨t, ht, -⟩ := x.put_spec key value
  rw [ht]
  rfl

/-- What `Put` leaves represents the map with the new value. -/
private theorem put_leaves (x : Index K V) (key : K) (value : V) :
    x.list.Leaves ((x.list.put x.fuel x.heights key value).get (x.put_isSome key value)).2
      (Function.update x.get key (some value)) := by
  obtain ⟨t, ht, hleaves⟩ := x.put_spec key value
  simpa only [ht, Option.get_some] using hleaves

/-- `Put`. -/
def put (x : Index K V) (key : K) (value : V) : Bool × Index K V :=
  let result := (x.list.put x.fuel x.heights key value).get (x.put_isSome key value)
  (result.1,
    { list := result.2
      coins := fun i => x.coins (i + 1)
      holds := ⟨_, (x.put_leaves key value).holds⟩
      levels := (x.put_leaves key value).maxLevel ▸ x.levels })

/-- `Delete` on the list, with the passes of the index. -/
private theorem delete_spec (x : Index K V) (key : K) :
    ∃ t, x.list.delete x.fuel key = some ((x.get key).isSome, t) ∧
      x.list.Leaves t (Function.update x.get key none) :=
  x.holds_get.delete_eq key x.size_lt_fuel

/-- There are enough passes for `Delete`. -/
private theorem delete_isSome (x : Index K V) (key : K) :
    (x.list.delete x.fuel key).isSome := by
  obtain ⟨t, ht, -⟩ := x.delete_spec key
  rw [ht]
  rfl

/-- What `Delete` leaves represents the map without the key. -/
private theorem delete_leaves (x : Index K V) (key : K) :
    x.list.Leaves ((x.list.delete x.fuel key).get (x.delete_isSome key)).2
      (Function.update x.get key none) := by
  obtain ⟨t, ht, hleaves⟩ := x.delete_spec key
  simpa only [ht, Option.get_some] using hleaves

/-- `Delete`. -/
def delete (x : Index K V) (key : K) : Bool × Index K V :=
  let result := (x.list.delete x.fuel key).get (x.delete_isSome key)
  (result.1,
    { list := result.2
      coins := x.coins
      holds := ⟨_, (x.delete_leaves key).holds⟩
      levels := (x.delete_leaves key).maxLevel ▸ x.levels })

/-- `Size`. -/
def size (x : Index K V) : Nat := x.list.size

/-- There are enough passes for a snapshot. -/
private theorem snapshot_isSome (x : Index K V) : (x.list.snapshot x.fuel).isSome := by
  obtain ⟨list, hlist, -⟩ := x.holds_get.snapshot_eq x.size_lt_fuel
  rw [hlist]
  rfl

/-- `Snapshot`. -/
def snapshot (x : Index K V) : List (K × V) :=
  (x.list.snapshot x.fuel).get x.snapshot_isSome

/-- There are enough passes for `Scan`. -/
private theorem scan_isSome (x : Index K V) (start stop : K) :
    (x.list.scan x.fuel start stop).isSome := by
  obtain ⟨list, hlist, -⟩ := x.holds_get.scan_eq start stop x.size_lt_fuel
  rw [hlist]
  rfl

/-- `Scan`. -/
def scan (x : Index K V) (start stop : K) : List (K × V) :=
  (x.list.scan x.fuel start stop).get (x.scan_isSome start stop)

/-! ## What the calls do to the map -/

@[simp] theorem get_new [Inhabited K] [Inhabited V] (coins : Nat → Nat → Bool) :
    (new coins : Index K V).get = fun _ => none :=
  get_eq_of_holds _ (SkipList.holds_new defaultMaxLevel)

@[simp] theorem get_put (x : Index K V) (key : K) (value : V) :
    (x.put key value).2.get = Function.update x.get key (some value) :=
  get_eq_of_holds _ (x.put_leaves key value).holds

@[simp] theorem get_delete (x : Index K V) (key : K) :
    (x.delete key).2.get = Function.update x.get key none :=
  get_eq_of_holds _ (x.delete_leaves key).holds

/-- `Put` returns whether the key was absent. -/
theorem put_fst (x : Index K V) (key : K) (value : V) :
    (x.put key value).1 = (x.get key).isNone := by
  obtain ⟨t, ht, -⟩ := x.put_spec key value
  simp only [put, ht, Option.get_some]

/-- `Delete` returns whether the key was present. -/
theorem delete_fst (x : Index K V) (key : K) : (x.delete key).1 = (x.get key).isSome := by
  obtain ⟨t, ht, -⟩ := x.delete_spec key
  simp only [delete, ht, Option.get_some]

/-- `Snapshot` lists the whole map. -/
theorem lists_snapshot (x : Index K V) : ListsMap x.get (fun _ => True) x.snapshot := by
  obtain ⟨list, hlist, hlists, -⟩ := x.holds_get.snapshot_eq x.size_lt_fuel
  simpa only [snapshot, hlist, Option.get_some] using hlists

/-- `Scan` lists the pairs whose keys are in the range. -/
theorem lists_scan (x : Index K V) (start stop : K) :
    ListsMap x.get (fun k => start ≤ k ∧ k ≤ stop) (x.scan start stop) := by
  obtain ⟨list, hlist, hlists⟩ := x.holds_get.scan_eq start stop x.size_lt_fuel
  simpa only [scan, hlist, Option.get_some] using hlists

/-- `Size` counts the pairs that `Snapshot` lists. -/
theorem length_snapshot (x : Index K V) : x.snapshot.length = x.size := by
  obtain ⟨list, hlist, -, hlength⟩ := x.holds_get.snapshot_eq x.size_lt_fuel
  simpa only [snapshot, size, hlist, Option.get_some] using hlength

/-- `Put` or `Delete`. -/
def update (x : Index K V) : Update K V → Bool × Index K V
  | .put key value => x.put key value
  | .delete key => x.delete key

@[simp] theorem get_update (x : Index K V) (u : Update K V) :
    (x.update u).2.get = u.apply x.get := by
  cases u with
  | put key value => exact x.get_put key value
  | delete key => exact x.get_delete key

end Index

end KvStore
