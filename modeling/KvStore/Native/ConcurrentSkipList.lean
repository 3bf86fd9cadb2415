import KvStore.ForStd.UpdateLog
import KvStore.Native.SkipList
import Mathlib.Algebra.Order.Group.Int
import Mathlib.Data.Fintype.Defs
import Mathlib.Data.List.Dedup
import Mathlib.Data.List.Sort

/-!
# Skip list with concurrent callers

Model of `include/kvstore/SkipList.hpp` with threads that call `Put`, `Get`, `Delete`
and `Scan` at the same time. Every atomic load, store, addition and compare-exchange,
every access to a node's value, and every locking and unlocking of a mutex is one step.
What a thread does with its own variables, and its reading of the constant members `key`
and `top_level`, belongs to the step before.

A call in progress is a program counter with the local variables of the call, see
`Local`. A load through a pointer reads whatever `Heap.node` holds at that address; a
null pointer that is dereferenced stops its thread, as does a mutex that is taken.

The four operations take `lifecycle_mutex_` shared, and nothing here takes it
exclusively. It is never waited for, and is left out: a call takes it with its first step
and gives it back with its last.
-/

namespace KvStore

namespace ConcurrentSkipList

open SkipList (head keysEqual)

/-! ## Memory -/

/-- The nodes, and which of them have been created. No node is freed while calls run. A
    `NodeId` is the name of a node, and says nothing about where it lies in memory. -/
structure Heap (K V : Type) where
  node : NodeId → Node K V
  allocated : NodeId → Bool
  /-- The addresses, which `LockNodes` compares. -/
  address : NodeId ↪ Nat

namespace Heap

variable {K V : Type}

/-- `p->forward[level].load()`. -/
def loadForward (h : Heap K V) (p : NodeId) (level : Nat) : Option NodeId :=
  (h.node p).forward level

/-- Replace the node at `p`. -/
def setNode (h : Heap K V) (p : NodeId) (node : Node K V) : Heap K V :=
  { h with node := Function.update h.node p node }

/-- `p->forward[level].store(target)`. -/
def storeForward (h : Heap K V) (p : NodeId) (level : Nat) (target : Option NodeId) :
    Heap K V :=
  h.setNode p { h.node p with forward := Function.update (h.node p).forward level target }

/-- `p->value = value`. -/
def storeValue (h : Heap K V) (p : NodeId) (value : V) : Heap K V :=
  h.setNode p { h.node p with value }

/-- `p->marked.store(true)`. -/
def storeMarked (h : Heap K V) (p : NodeId) : Heap K V :=
  h.setNode p { h.node p with marked := true }

/-- `p->fully_linked.store(true)`. -/
def storeFullyLinked (h : Heap K V) (p : NodeId) : Heap K V :=
  h.setNode p { h.node p with fullyLinked := true }

/-- `std::make_unique<Node>(…)`, for the node `p`. -/
def create (h : Heap K V) (p : NodeId) (node : Node K V) : Heap K V :=
  { h.setNode p node with allocated := Function.update h.allocated p true }

/-- `current`, if `current != nullptr && compare_(current->key, key)`. -/
def passes [LinearOrder K] (h : Heap K V) (key : K) (current : Option NodeId) : Option NodeId :=
  current.filter fun p => decide ((h.node p).key < key)

/-- `current != nullptr && KeysEqual(current->key, key)`. -/
def holdsKey [LinearOrder K] (h : Heap K V) (key : K) (current : Option NodeId) : Bool :=
  current.any fun p => keysEqual (h.node p).key key

end Heap

/-- `SkipList`, with the threads `T` that hold its mutexes. `size_` is an integer, so that
    a decrement below zero would be seen. -/
structure Shared (K V T : Type) where
  maxLevel : Nat
  heap : Heap K V
  /-- Who holds `mutex` of a node. -/
  holder : NodeId → Option T := fun _ => none
  /-- Who holds `ownership_mutex_`. -/
  ownership : Option T := none
  ownedNodes : List NodeId := []
  currentLevel : Nat := 1
  size : Int := 0

namespace Shared

variable {K V T : Type}

/-- The constructor. A `max_level` of zero is turned into one. The nodes, the head among them,
    lie at any addresses. -/
def new [Inhabited K] [Inhabited V] (maxLevel : Nat) (address : NodeId ↪ Nat) :
    Shared K V T where
  maxLevel := if maxLevel = 0 then 1 else maxLevel
  heap :=
    { node := fun _ =>
        { key := default, value := default,
          topLevel := (if maxLevel = 0 then 1 else maxLevel) - 1 }
      allocated := fun p => decide (p = head)
      address }

/-- `mutex.lock()` of a node by the thread `t`, which waits while it is taken. -/
def lock (s : Shared K V T) (t : T) (p : NodeId) : Option (Shared K V T) :=
  match s.holder p with
  | none => some { s with holder := Function.update s.holder p (some t) }
  | some _ => none

/-- `mutex.unlock()` of a node. -/
def unlock (s : Shared K V T) (p : NodeId) : Shared K V T :=
  { s with holder := Function.update s.holder p none }

end Shared

/-! ## Calls in progress -/

inductive Call (K V : Type) where
  | put (key : K) (value : V)
  | get (key : K)
  | delete (key : K)
  | scan (start stop : K)
  deriving DecidableEq

/-- What a call returns. `Get` returns the value it stores when it returns `true`. -/
inductive Answer (K V : Type) where
  | put (inserted : Bool)
  | get (value : Option V)
  | delete (deleted : Bool)
  | scan (result : List (K × V))
  deriving DecidableEq

/-- A call of `Get` or `Scan`, with the result collected so far. -/
inductive Reader (K V : Type) where
  | get (key : K)
  | scan (start stop : K) (result : List (K × V))

/-- What `Put` inserts: the result of `FindNode`, and `node_level`. -/
structure Insertion (K V : Type) where
  key : K
  value : V
  found : FindResult
  nodeLevel : Nat

/-- What `Delete` removes: the result of `FindNode`, and `victim`. -/
structure Removal (K : Type) where
  key : K
  found : FindResult
  victim : NodeId

/-- What a call of `LockNodes` is made for. -/
inductive Plan (K V : Type) where
  | insert (i : Insertion K V)
  | remove (d : Removal K)

/-- What follows when the locks of a block are released. -/
inductive Next (K V : Type) where
  /-- `continue` in `Put` or `Delete`. -/
  | retry (update : Update K V)
  | done (call : Call K V) (answer : Answer K V)
  /-- The end of a round of `Scan`. -/
  | resume (reader : Reader K V) (current : NodeId)

/-- `Put` on a key that is found. -/
inductive AssignStep where
  | lock
  | marked
  | fullyLinked
  | store

/-- `Put` behind `LockNodes`. -/
inductive InsertStep where
  /-- `CanInsert`: `predecessor->marked`. -/
  | predecessorMarked (level : Nat)
  /-- `CanInsert`: `successor->marked`. -/
  | successorMarked (level : Nat)
  /-- `CanInsert`: `predecessor->forward[level]`. -/
  | forward (level : Nat)
  | create
  /-- `new_node_ptr->forward[level].store(…)`. -/
  | initForward (node : NodeId) (level : Nat)
  | lockOwnership (node : NodeId)
  | pushOwned (node : NodeId)
  | unlockOwnership (node : NodeId)
  /-- `predecessors[level]->forward[level].store(…)`. -/
  | link (node : NodeId) (level : Nat)
  | storeFullyLinked (node : NodeId)
  | addSize (node : NodeId)
  /-- `RaiseCurrentLevel`: the load. -/
  | loadLevel
  /-- `RaiseCurrentLevel`: the compare-exchange. -/
  | raiseLevel (observed : Nat)

/-- `Delete` behind `LockNodes`. -/
inductive RemoveStep where
  | fullyLinked
  | marked
  /-- `CanDelete`: `predecessor->marked`. -/
  | predecessorMarked (level : Nat)
  /-- `CanDelete`: `predecessor->forward[level]`. -/
  | forward (level : Nat)
  | storeMarked
  /-- `victim->forward[level].load()`. -/
  | loadNext (level : Nat)
  /-- `predecessors[level]->forward[level].store(next)`. -/
  | unlink (level : Nat) (next : Option NodeId)
  | subSize
  /-- `RecomputeCurrentLevel`: `head_->forward[level - 1]`. -/
  | headForward (level : Nat)
  /-- `RecomputeCurrentLevel`: the store. -/
  | storeLevel (level : Nat)

/-- `Get` and `Scan`. -/
inductive ReadStep where
  | loadLevel
  | walk (level : Nat) (predecessor : NodeId)
  /-- The load of `forward[0]` behind the search. -/
  | candidate (predecessor : NodeId)
  | marked (current : NodeId)
  | fullyLinked (current : NodeId)
  | lock (current : NodeId)
  | markedLocked (current : NodeId)
  | fullyLinkedLocked (current : NodeId)
  | value (current : NodeId)
  /-- `Scan`: `current->forward[0]`. -/
  | next (current : NodeId)

/-- Where a thread stands. -/
inductive Local (K V : Type) where
  | idle
  /-- `FindNode`: the load of `current_level_`. -/
  | loadLevel (update : Update K V)
  /-- `FindNode`: `predecessor->forward[level]`. -/
  | find (update : Update K V) (level : Nat) (predecessor : NodeId) (found : FindResult)
  | assign (key : K) (value : V) (existing : NodeId) (step : AssignStep)
  /-- `RandomLevel`. -/
  | randomLevel (key : K) (value : V) (found : FindResult)
  /-- `LockNodes`, with the nodes that are locked and those that are left. -/
  | lockNodes (plan : Plan K V) (held rest : List NodeId)
  | insert (i : Insertion K V) (held : List NodeId) (step : InsertStep)
  | remove (d : Removal K) (held : List NodeId) (step : RemoveStep)
  | read (reader : Reader K V) (step : ReadStep)
  /-- The destructors of the locks of a block. -/
  | unlock (held : List NodeId) (next : Next K V)
  | returning (call : Call K V) (answer : Answer K V)

namespace Local

/-- No call is in progress. -/
def isIdle {K V : Type} : Local K V → Bool
  | idle => true
  | _ => false

instance {K V : Type} (l : Local K V) : Decidable (l = .idle) :=
  decidable_of_iff (l.isIdle = true) (by cases l <;> simp [isIdle])

end Local

variable {K V T : Type} [LinearOrder K]

namespace Call

/-- The first step of a call. -/
def start : Call K V → Local K V
  | put key value => .loadLevel (.put key value)
  | get key => .read (.get key) .loadLevel
  | delete key => .loadLevel (.delete key)
  | scan start stop =>
    if stop < start then .returning (.scan start stop) (.scan [])
    else .read (.scan start stop []) .loadLevel

end Call

namespace Next

def start : Next K V → Local K V
  | retry update => .loadLevel update
  | done call answer => .returning call answer
  | resume reader current => .read reader (.next current)

end Next

/-! ## Searching -/

/-- `LockNodes`: the nodes that it locks, in the order of their addresses. -/
def lockTargets (h : Heap K V) (nodes : List (Option NodeId)) : List NodeId :=
  (nodes.reduceOption.insertionSort fun p q => h.address p ≤ h.address q).dedup

/-- The entries of the vectors from `level` up to `node_level`. -/
def predecessorsUpTo (found : FindResult) (level : Nat) : List (Option NodeId) :=
  (List.range (level + 1)).map found.predecessors

/-- What follows `FindNode`. -/
def afterFind (h : Heap K V) (found : FindResult) : Update K V → Option (Local K V)
  | .put key value =>
    match found.foundLevel with
    | some level => do
      let existing ← found.successors level
      some (.assign key value existing .lock)
    | none => some (.randomLevel key value found)
  | .delete key =>
    match found.foundLevel with
    | none => some (.returning (.delete key) (.delete false))
    | some level =>
      match found.successors level with
      | none => some (.returning (.delete key) (.delete false))
      | some victim =>
        some (.lockNodes (.remove { key, found, victim }) []
          (lockTargets h (predecessorsUpTo found (h.node victim).topLevel ++ [some victim])))

/-- The loop of `FindNode` with the levels below its last argument left. -/
def findFrom (h : Heap K V) (update : Update K V) (found : FindResult)
    (predecessor : NodeId) : Nat → Option (Local K V)
  | 0 => afterFind h found update
  | level + 1 => some (.find update level predecessor found)

/-- The vectors of `FindNode` as its second loop leaves them: the head above the active
    levels. -/
def aboveActive (activeLevels : Nat) : FindResult where
  foundLevel := none
  predecessors := fun level => if level < activeLevels then none else some head
  successors := fun _ => none

/-- `FindNode`, when `current` has been loaded from `predecessor->forward[level]`. -/
def findStep (h : Heap K V) (update : Update K V) (level : Nat) (predecessor : NodeId)
    (found : FindResult) (current : Option NodeId) : Option (Local K V) :=
  match h.passes update.key current with
  | some node => some (.find update level node found)
  | none =>
    findFrom h update
      { foundLevel :=
          if found.foundLevel.isNone && h.holdsKey update.key current then some level
          else found.foundLevel
        predecessors := Function.update found.predecessors level (some predecessor)
        successors := Function.update found.successors level current }
      predecessor level

/-! ## The next step of a call -/

/-- What a thread may find when it makes a step: the call it is to make, the level that
    `RandomLevel` draws, the name of a new node, or that `compare_exchange_weak` fails
    although it need not. -/
inductive Choice (K V : Type) where
  | go
  | call (call : Call K V)
  | level (nodeLevel : Nat)
  | address (node : NodeId)
  | spurious
  deriving DecidableEq

/-- `Put` on a key that is found. -/
def AssignStep.step (s : Shared K V T) (t : T) (key : K) (value : V) (existing : NodeId) :
    AssignStep → Option (Shared K V T × Local K V)
  | lock => do some (← s.lock t existing, .assign key value existing .marked)
  | marked =>
    if (s.heap.node existing).marked then
      some (s, .unlock [existing] (.retry (.put key value)))
    else some (s, .assign key value existing .fullyLinked)
  | fullyLinked =>
    if (s.heap.node existing).fullyLinked then some (s, .assign key value existing .store)
    else some (s, .unlock [existing] (.retry (.put key value)))
  | store =>
    some ({ s with heap := s.heap.storeValue existing value },
      .unlock [existing] (.done (.put key value) (.put false)))

namespace Insertion

/-- `Put`, when `RaiseCurrentLevel` has loaded `observed`. -/
def raise (i : Insertion K V) (held : List NodeId) (observed : Nat) : Local K V :=
  if observed < i.nodeLevel + 1 then .insert i held (.raiseLevel observed)
  else .unlock held (.done (.put i.key i.value) (.put true))

/-- `Put`, when `CanInsert` has returned `false`. -/
def refuse (i : Insertion K V) (held : List NodeId) : Local K V :=
  .unlock held (.retry (.put i.key i.value))

end Insertion

/-- `Put` behind `LockNodes`. -/
def InsertStep.step (s : Shared K V T) (t : T) (choice : Choice K V) (i : Insertion K V)
    (held : List NodeId) : InsertStep → Option (Shared K V T × Local K V)
  | predecessorMarked level =>
    match i.found.predecessors level with
    | none => some (s, i.refuse held)
    | some predecessor =>
      if (s.heap.node predecessor).marked then some (s, i.refuse held)
      else some (s, .insert i held (.successorMarked level))
  | successorMarked level =>
    match i.found.successors level with
    | none => some (s, .insert i held (.forward level))
    | some successor =>
      if (s.heap.node successor).marked then some (s, i.refuse held)
      else some (s, .insert i held (.forward level))
  | forward level => do
    let predecessor ← i.found.predecessors level
    if s.heap.loadForward predecessor level ≠ i.found.successors level then
      some (s, i.refuse held)
    else if level < i.nodeLevel then some (s, .insert i held (.predecessorMarked (level + 1)))
    else some (s, .insert i held .create)
  | create =>
    match choice with
    | .address node =>
      -- `make_unique` returns a node that has not been created yet
      if s.heap.allocated node then none
      else some
        ({ s with heap :=
            s.heap.create node { key := i.key, value := i.value, topLevel := i.nodeLevel } },
          .insert i held (.initForward node 0))
    | _ => none
  | initForward node level =>
    some ({ s with heap := s.heap.storeForward node level (i.found.successors level) },
      .insert i held
        (if level < i.nodeLevel then .initForward node (level + 1) else .lockOwnership node))
  | lockOwnership node =>
    match s.ownership with
    | none => some ({ s with ownership := some t }, .insert i held (.pushOwned node))
    | some _ => none
  | pushOwned node =>
    some ({ s with ownedNodes := s.ownedNodes ++ [node] }, .insert i held (.unlockOwnership node))
  | unlockOwnership node => some ({ s with ownership := none }, .insert i held (.link node 0))
  | link node level => do
    let predecessor ← i.found.predecessors level
    some ({ s with heap := s.heap.storeForward predecessor level (some node) },
      .insert i held
        (if level < i.nodeLevel then .link node (level + 1) else .storeFullyLinked node))
  | storeFullyLinked node =>
    some ({ s with heap := s.heap.storeFullyLinked node }, .insert i held (.addSize node))
  | addSize _ => some ({ s with size := s.size + 1 }, .insert i held .loadLevel)
  | loadLevel => some (s, i.raise held s.currentLevel)
  | raiseLevel observed =>
    match choice with
    | .spurious => some (s, i.raise held s.currentLevel)
    | _ =>
      if s.currentLevel = observed then
        some ({ s with currentLevel := i.nodeLevel + 1 },
          .unlock held (.done (.put i.key i.value) (.put true)))
      else some (s, i.raise held s.currentLevel)

namespace Removal

/-- `Delete`, when one of its checks has failed. -/
def refuse (d : Removal K) (held : List NodeId) : Local K V :=
  .unlock held (.retry (.delete d.key))

/-- The loop of `RecomputeCurrentLevel`. -/
def recompute (d : Removal K) (held : List NodeId) (level : Nat) : Local K V :=
  .remove d held (if 1 < level then .headForward level else .storeLevel level)

end Removal

/-- The loop of `Delete` that unlinks, with the levels below its argument left. -/
def RemoveStep.unlinkFrom : Nat → RemoveStep
  | 0 => .subSize
  | level + 1 => .loadNext level

/-- `Delete` behind `LockNodes`. -/
def RemoveStep.step (s : Shared K V T) (d : Removal K) (held : List NodeId) :
    RemoveStep → Option (Shared K V T × Local K V)
  | fullyLinked =>
    if (s.heap.node d.victim).fullyLinked then some (s, .remove d held .marked)
    else some (s, d.refuse held)
  | marked =>
    if (s.heap.node d.victim).marked then some (s, d.refuse held)
    else if keysEqual (s.heap.node d.victim).key d.key then
      some (s, .remove d held (.predecessorMarked 0))
    else some (s, d.refuse held)
  | predecessorMarked level =>
    match d.found.predecessors level with
    | none => some (s, d.refuse held)
    | some predecessor =>
      if (s.heap.node predecessor).marked then some (s, d.refuse held)
      else some (s, .remove d held (.forward level))
  | forward level => do
    let predecessor ← d.found.predecessors level
    if s.heap.loadForward predecessor level ≠ some d.victim then some (s, d.refuse held)
    else if level < (s.heap.node d.victim).topLevel then
      some (s, .remove d held (.predecessorMarked (level + 1)))
    else some (s, .remove d held .storeMarked)
  | storeMarked =>
    some ({ s with heap := s.heap.storeMarked d.victim },
      .remove d held (.loadNext (s.heap.node d.victim).topLevel))
  | loadNext level =>
    some (s, .remove d held (.unlink level (s.heap.loadForward d.victim level)))
  | unlink level next => do
    let predecessor ← d.found.predecessors level
    some ({ s with heap := s.heap.storeForward predecessor level next },
      .remove d held (unlinkFrom level))
  | subSize => some ({ s with size := s.size - 1 }, d.recompute held s.maxLevel)
  | headForward level =>
    match s.heap.loadForward head (level - 1) with
    | none => some (s, d.recompute held (level - 1))
    | some _ => some (s, .remove d held (.storeLevel level))
  | storeLevel level =>
    some ({ s with currentLevel := level }, .unlock held (.done (.delete d.key) (.delete true)))

namespace Reader

/-- The key that the search is for. -/
def key : Reader K V → K
  | get key => key
  | scan start _ _ => start

/-- The loop over the levels with those below its last argument left. -/
def walkFrom (reader : Reader K V) (predecessor : NodeId) : Nat → Local K V
  | 0 => .read reader (.candidate predecessor)
  | level + 1 => .read reader (.walk level predecessor)

/-- What `Get` does with its candidate, and `Scan` with its next node. -/
def visit (h : Heap K V) : Reader K V → Option NodeId → Local K V
  | get key, current =>
    match current with
    | some node =>
      if keysEqual (h.node node).key key then .read (get key) (.marked node)
      else .returning (.get key) (.get none)
    | none => .returning (.get key) (.get none)
  | scan start stop result, current =>
    match current with
    | some node =>
      if stop < (h.node node).key then .returning (.scan start stop) (.scan result)
      else .read (scan start stop result) (.marked node)
    | none => .returning (.scan start stop) (.scan result)

/-- What follows a node that is marked, or not fully linked. -/
def skip : Reader K V → NodeId → Next K V
  | get key, _ => .done (.get key) (.get none)
  | scan start stop result, node => .resume (scan start stop result) node

/-- What follows a node whose value has been read. -/
def accept (h : Heap K V) : Reader K V → NodeId → Next K V
  | get key, node => .done (.get key) (.get (some (h.node node).value))
  | scan start stop result, node =>
    .resume (scan start stop (result ++ [((h.node node).key, (h.node node).value)])) node

end Reader

/-- `Get` and `Scan`. -/
def ReadStep.step (s : Shared K V T) (t : T) (reader : Reader K V) :
    ReadStep → Option (Shared K V T × Local K V)
  | loadLevel => some (s, reader.walkFrom head s.currentLevel)
  | walk level predecessor =>
    match s.heap.passes reader.key (s.heap.loadForward predecessor level) with
    | some node => some (s, .read reader (.walk level node))
    | none => some (s, reader.walkFrom predecessor level)
  | candidate predecessor => some (s, reader.visit s.heap (s.heap.loadForward predecessor 0))
  | marked node =>
    if (s.heap.node node).marked then some (s, (reader.skip node).start)
    else some (s, .read reader (.fullyLinked node))
  | fullyLinked node =>
    if (s.heap.node node).fullyLinked then some (s, .read reader (.lock node))
    else some (s, (reader.skip node).start)
  | lock node => do some (← s.lock t node, .read reader (.markedLocked node))
  | markedLocked node =>
    if (s.heap.node node).marked then some (s, .unlock [node] (reader.skip node))
    else some (s, .read reader (.fullyLinkedLocked node))
  | fullyLinkedLocked node =>
    if (s.heap.node node).fullyLinked then some (s, .read reader (.value node))
    else some (s, .unlock [node] (reader.skip node))
  | value node => some (s, .unlock [node] (reader.accept s.heap node))
  | next node => some (s, reader.visit s.heap (s.heap.loadForward node 0))

/-- The next step of the thread `t`, which stands at the last argument. -/
def Local.step (s : Shared K V T) (t : T) (choice : Choice K V) :
    Local K V → Option (Shared K V T × Local K V)
  | idle =>
    match choice with
    | .call call => some (s, call.start)
    | _ => none
  | loadLevel update => do
    some (s, ← findFrom s.heap update (aboveActive s.currentLevel) head s.currentLevel)
  | find update level predecessor found => do
    some (s, ← findStep s.heap update level predecessor found
      (s.heap.loadForward predecessor level))
  | assign key value existing step => step.step s t key value existing
  | randomLevel key value found =>
    match choice with
    | .level nodeLevel =>
      if nodeLevel < s.maxLevel then
        some (s, .lockNodes (.insert { key, value, found, nodeLevel }) []
          (lockTargets s.heap (predecessorsUpTo found nodeLevel)))
      else none
    | _ => none
  | lockNodes plan held rest =>
    match rest with
    | node :: rest => do some (← s.lock t node, .lockNodes plan (held ++ [node]) rest)
    | [] =>
      match plan with
      | .insert i => some (s, .insert i held (.predecessorMarked 0))
      | .remove d => some (s, .remove d held .fullyLinked)
  | insert i held step => step.step s t choice i held
  | remove d held step => step.step s d held
  | read reader step => step.step s t reader
  | unlock held next =>
    match held with
    | node :: held => some (s.unlock node, .unlock held next)
    | [] => some (s, next.start)
  | returning _ _ => some (s, .idle)

/-! ## All threads together -/

/-- The memory, where the threads stand, and the calls that have returned. -/
structure State (K V T : Type) where
  shared : Shared K V T
  thread : T → Local K V := fun _ => .idle
  returned : List (Call K V × Answer K V) := []

namespace State

/-- An empty skip list that nobody uses. -/
def new [Inhabited K] [Inhabited V] (maxLevel : Nat) (address : NodeId ↪ Nat) :
    State K V T where
  shared := .new maxLevel address

variable [DecidableEq T]

/-- The thread `t` makes its next step. -/
def step (s : State K V T) (t : T) (choice : Choice K V) : Option (State K V T) := do
  let (shared, pc) ← (s.thread t).step s.shared t choice
  some
    { shared
      thread := Function.update s.thread t pc
      returned :=
        match s.thread t with
        | .returning call answer => s.returned ++ [(call, answer)]
        | _ => s.returned }

/-- Any thread may make the next step. -/
def Step (s : State K V T) (label : T × Choice K V) (s' : State K V T) : Prop :=
  s.step label.1 label.2 = some s'

/-- No operation is in flight. -/
def Quiescent (s : State K V T) : Prop :=
  ∀ t, s.thread t = .idle

instance [Fintype T] (s : State K V T) : Decidable s.Quiescent :=
  inferInstanceAs (Decidable (∀ t, s.thread t = .idle))

end State

end ConcurrentSkipList

end KvStore
