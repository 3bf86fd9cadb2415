import KvStore.ForStd.OrderedMap
import Mathlib

/-!
# Reference store

Model of `MapStore` in `src/compare_benchmark_main.cpp`, the ordered map over `std::map`
that the benchmark compares the skip list with. `std::map` is `Std.TreeMap`.
-/

namespace KvStore

/-- `MapStore`. -/
structure MapStore (K V : Type) [LinearOrder K] where
  data : Std.TreeMap K V compare

namespace MapStore

variable {K V : Type} [LinearOrder K]

/-- The constructor. -/
def new : MapStore K V := ⟨∅⟩

/-- `Put`: `insert` keeps a value that is there, so the value is then assigned. -/
def put (m : MapStore K V) (key : K) (value : V) : Bool × MapStore K V :=
  let (found, data) := m.data.containsThenInsertIfNew key value
  if found then (false, ⟨data.insert key value⟩) else (true, ⟨data⟩)

/-- `Get`: the value it stores through its pointer when it returns `true`. -/
def get (m : MapStore K V) (key : K) : Option V :=
  m.data[key]?

/-- `Delete`. -/
def delete (m : MapStore K V) (key : K) : Bool × MapStore K V :=
  (m.data.contains key, ⟨m.data.erase key⟩)

/-- `Scan`: from `lower_bound(start)` on, while the key is at most `stop`. -/
def scan (m : MapStore K V) (start stop : K) : List (K × V) :=
  if stop < start then []
  else (m.data.toList.dropWhile fun e => e.1 < start).takeWhile fun e => e.1 ≤ stop

/-- `Size`. -/
def size (m : MapStore K V) : Nat :=
  m.data.size

/-- The elements of the `std::map` from `begin()` to `end()`. -/
def snapshot (m : MapStore K V) : List (K × V) :=
  m.data.toList

/-- One call. -/
def exec (m : MapStore K V) : MapOp K V → MapResult K V × MapStore K V
  | .put key value => ((m.put key value).1 |> .flag, (m.put key value).2)
  | .get key => (.value (m.get key), m)
  | .delete key => ((m.delete key).1 |> .flag, (m.delete key).2)
  | .scan start stop => (.pairs (m.scan start stop), m)
  | .snapshot => (.pairs m.snapshot, m)
  | .size => (.count m.size, m)
  | .clear => (.unit, new)

/-- Calls one after another. -/
def run (m : MapStore K V) : List (MapOp K V) → List (MapResult K V) × MapStore K V
  | [] => ([], m)
  | op :: ops =>
    let (result, m) := m.exec op
    let (results, m) := m.run ops
    (result :: results, m)

end MapStore

end KvStore
