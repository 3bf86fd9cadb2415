import KvStore.Native.CommandProcessor
import KvStore.Native.ConcurrentSkipList
import KvStore.ForStd.Decimal
import KvStore.ForStd.Transition

/-!
# The workload of the comparison

Model of the calls that `src/compare_benchmark_main.cpp` makes on a store: `PreloadStore`, the
threads of `RunBenchmark`, and how the size of a store is read afterwards. The times that are
measured are left out.

The skip list is used by all threads at the same time, step by step (`Running`). `MapStore`
holds its mutex as long as a call goes on, so there the calls are made one after another.
-/

namespace KvStore

open ConcurrentSkipList (Choice State)

/-- `WorkloadMode`. -/
inductive WorkloadMode where
  | mixed
  | readHeavy
  | readHeavyAll
  | writeHeavy
deriving DecidableEq, Repr

namespace Workload

abbrev Call := ConcurrentSkipList.Call Bytes Bytes

def seedKey (index : Nat) : Bytes := ascii "seed-key-" ++ toDecimal index

def seedValue (index : Nat) : Bytes := ascii "seed-value-" ++ toDecimal index

def writeKey (globalIndex : Nat) : Bytes := ascii "key-" ++ toDecimal globalIndex

def payload (operation : Nat) : Bytes := ascii "value-" ++ toDecimal operation

/-- `PreloadStore`. -/
def preloadStore (preloadKeys : Nat) : List Call :=
  (List.range preloadKeys).map fun index => .put (seedKey index) (seedValue index)

/-- `global_index`, an `int`, which must not overflow. -/
def globalIndex (operationsPerThread threadIndex operation : Nat) : Option Nat :=
  let index := threadIndex * operationsPerThread + operation
  if index < 2 ^ 31 then some index else none

/-- The body of the loop of a thread. -/
def operationCalls (mode : WorkloadMode) (preloadKeys operationsPerThread threadIndex
    operation : Nat) : Option (List Call) := do
  let globalIndex ← globalIndex operationsPerThread threadIndex operation
  let preloadIndex := if preloadKeys = 0 then 0 else globalIndex % preloadKeys
  let read := seedKey preloadIndex
  let write := writeKey globalIndex
  match mode with
  | .readHeavyAll =>
    match operation % 20 with
    | 0 | 1 => some [.put write (payload operation)]
    | 2 => some [.delete read]
    | 3 | 4 => some [.scan read read]
    | _ => some [.get read]
  | .readHeavy =>
    if operation % 10 = 0 then some [.put write (payload operation)] else some [.get read]
  | .writeHeavy =>
    match operation % 10 with
    | 0 | 1 | 2 | 3 | 4 | 5 | 6 | 7 => some [.put write (payload operation)]
    | 8 => some [.get read]
    | 9 => some [.delete read]
    | _ => some []
  | .mixed =>
    match operation % 10 with
    | 0 | 1 | 2 => some [.put write (payload operation)]
    | 3 | 4 | 5 | 6 | 7 => some [.get read]
    | 8 => some [.delete read]
    | 9 => some [.put write (payload operation ++ ascii "-update"), .get read]
    | _ => some []

/-- The calls of a thread. -/
def threadCalls (mode : WorkloadMode) (preloadKeys operationsPerThread threadIndex : Nat) :
    Option (List Call) := do
  let calls ← (List.range operationsPerThread).mapM
    (operationCalls mode preloadKeys operationsPerThread threadIndex)
  some calls.flatten

/-- The threads of `RunBenchmark`. -/
def runBenchmark (mode : WorkloadMode) (preloadKeys operationsPerThread threadCount : Nat) :
    Option (List (List Call)) :=
  (List.range threadCount).mapM (threadCalls mode preloadKeys operationsPerThread)

/-- The call of `KVStoreSize`. -/
def kvStoreSize : Call := .scan [] (ascii "~")

/-- The same call of `MapStore`. -/
def mapStoreCall : Call → MapOp Bytes Bytes
  | .put key value => .put key value
  | .get key => .get key
  | .delete key => .delete key
  | .scan start stop => .scan start stop

/-- The call of `MapStoreSize`. -/
def mapStoreSize : MapOp Bytes Bytes := .size

/-! ## Threads -/

/-- A skip list, and the calls that its threads have still to make. -/
structure Running (T : Type) where
  list : State Bytes Bytes T
  left : T → List Call

variable {T : Type} [DecidableEq T]

/-- The thread `t` makes its next step. -/
def Running.step (r : Running T) (t : T) (choice : Choice Bytes Bytes) : Option (Running T) :=
  match r.list.thread t with
  | .idle =>
    match r.left t with
    | [] => none
    | call :: rest => do
      some { list := ← r.list.step t (.call call), left := Function.update r.left t rest }
  | _ => do some { r with list := ← r.list.step t choice }

/-- Any thread may make the next step. -/
def Running.Step (r : Running T) (label : T × Choice Bytes Bytes) (r' : Running T) : Prop :=
  r.step label.1 label.2 = some r'

/-- The threads make their calls, and all of them return. -/
structure Completes (s : State Bytes Bytes T) (script : T → List Call)
    (s' : State Bytes Bytes T) : Prop where
  run : Run Running.Step (fun _ _ => True) { list := s, left := script }
    { list := s', left := fun _ => [] }
  quiescent : s'.Quiescent

/-- The main thread is alone. -/
def mainScript {threads : Nat} (calls : List Call) : Option (Fin threads) → List Call
  | none => calls
  | some _ => []

/-- The main thread waits for the others. -/
def workerScripts (scripts : List (List Call)) : Option (Fin scripts.length) → List Call
  | none => []
  | some index => scripts.get index

end Workload

end KvStore
