import Mathlib.Logic.Function.Basic
import Mathlib.Algebra.Order.Group.Nat

/-!
# Skip list

Model of `include/kvstore/SkipList.hpp` as it runs when its calls come one after
another. Nodes live at addresses, `head_` at address `SkipList.head` and the nodes
of `owned_nodes_` at the addresses handed out after it; a pointer is an
`Option NodeId`, with `none` for `nullptr`.

Every function that follows pointers returns an `Option`. The value `none` stands
for a call that has no result: a loop that is still running when its fuel is used
up, a null or dangling pointer that is dereferenced, or a level read past the end
of a node's `forward` vector. `Spec.SkipListCorrect` shows that none of these
happens.

The locks are left out: with one caller every mutex is free when it is taken
(`LockNodes` takes each distinct node once), and the `lifecycle_mutex_` and
`ownership_mutex_` guard nothing that a single caller can see. The keys are ordered by
`<`, which is what `std::less` compares with.
-/

namespace KvStore

/-- The address of a node. -/
abbrev NodeId := Nat

/-- `SkipList::Node`. The vector `forward` has the entries `0, …, topLevel`; the
    values of the function past them are never read, see `SkipList.loadForward`. -/
structure Node (K V : Type) where
  key : K
  value : V
  topLevel : Nat
  forward : Nat → Option NodeId := fun _ => none
  marked : Bool := false
  fullyLinked : Bool := false

/-- `SkipList`. The addresses below `allocated` hold `head_` and `owned_nodes_`. -/
structure SkipList (K V : Type) where
  maxLevel : Nat
  node : NodeId → Node K V
  allocated : Nat
  currentLevel : Nat
  size : Nat

/-- What `FindNode` returns and fills in: the level at which the key was first met
    (`none` for `-1`), and the two vectors of `max_level_` pointers. -/
structure FindResult where
  foundLevel : Option Nat
  predecessors : Nat → Option NodeId
  successors : Nat → Option NodeId

/-- How one pass of a `while (true)` loop ends: with `continue`, or by returning. -/
inductive Pass (α : Type) where
  | retry
  | done (result : α)

namespace SkipList

variable {K V : Type} [LinearOrder K]

/-- The address of `head_`. -/
def head : NodeId := 0

/-- The constructor. A `max_level` of zero is turned into one. -/
def new [Inhabited K] [Inhabited V] (maxLevel : Nat) : SkipList K V where
  maxLevel := if maxLevel = 0 then 1 else maxLevel
  node := fun _ =>
    { key := default, value := default,
      topLevel := (if maxLevel = 0 then 1 else maxLevel) - 1 }
  allocated := 1
  currentLevel := 1
  size := 0

/-! ## Memory -/

/-- The node that `p` points to. -/
def deref (s : SkipList K V) (p : NodeId) : Option (Node K V) :=
  if p < s.allocated then some (s.node p) else none

/-- `p->forward[level].load()`. -/
def loadForward (s : SkipList K V) (p : NodeId) (level : Nat) : Option (Option NodeId) :=
  if p < s.allocated ∧ level ≤ (s.node p).topLevel then some ((s.node p).forward level)
  else none

/-- Replace the node at `p`. -/
def setNode (s : SkipList K V) (p : NodeId) (node : Node K V) : SkipList K V :=
  { s with node := Function.update s.node p node }

/-- `p->forward[level].store(target)`. -/
def storeForward (s : SkipList K V) (p : NodeId) (level : Nat) (target : Option NodeId) :
    Option (SkipList K V) :=
  if p < s.allocated ∧ level ≤ (s.node p).topLevel then
    some (s.setNode p { s.node p with
      forward := Function.update (s.node p).forward level target })
  else none

/-- `std::make_unique<Node>(…)` followed by `owned_nodes_.push_back(…)`. -/
def allocate (s : SkipList K V) (node : Node K V) : NodeId × SkipList K V :=
  (s.allocated, { s.setNode s.allocated node with allocated := s.allocated + 1 })

/-! ## Searching -/

/-- `KeysEqual`. -/
def keysEqual (lhs rhs : K) : Bool :=
  !decide (lhs < rhs) && !decide (rhs < lhs)

/-- `current != nullptr && KeysEqual(current->key, key)`. -/
def holdsKey (s : SkipList K V) (key : K) : Option NodeId → Option Bool
  | none => some false
  | some current => do
    let node ← s.deref current
    some (keysEqual node.key key)

/-- The inner loop of every search: walk along one level while the next key is
    smaller than `key`. Returns the last node passed and its successor. -/
def advance (s : SkipList K V) (key : K) (level : Nat) :
    Nat → NodeId → Option (NodeId × Option NodeId)
  | 0, _ => none
  | fuel + 1, predecessor => do
    match ← s.loadForward predecessor level with
    | none => some (predecessor, none)
    | some current =>
      let node ← s.deref current
      if node.key < key then s.advance key level fuel current
      else some (predecessor, some current)

/-- The loop of `FindNode` over the levels below its first argument, from the
    highest to the lowest. -/
def findNodeLoop (s : SkipList K V) (fuel : Nat) (key : K) :
    Nat → NodeId → FindResult → Option FindResult
  | 0, _, result => some result
  | level + 1, predecessor, result => do
    let (predecessor, current) ← s.advance key level fuel predecessor
    let hit ← s.holdsKey key current
    s.findNodeLoop fuel key level predecessor
      -- the first hit counts, on the highest level that holds the key
      { foundLevel :=
          if result.foundLevel.isNone && hit then some level else result.foundLevel
        predecessors := Function.update result.predecessors level (some predecessor)
        successors := Function.update result.successors level current }

/-- `FindNode`: search the active levels, then fill in the head above them. -/
def findNode (s : SkipList K V) (fuel : Nat) (key : K) : Option FindResult := do
  let result ← s.findNodeLoop fuel key s.currentLevel head
    { foundLevel := none, predecessors := fun _ => none, successors := fun _ => none }
  some { result with
    predecessors := fun level =>
      if s.currentLevel ≤ level ∧ level < s.maxLevel then some head
      else result.predecessors level
    successors := fun level =>
      if s.currentLevel ≤ level ∧ level < s.maxLevel then none
      else result.successors level }

/-- The descent that `FindNodeNoLock` and `Scan` share: the last node before `key`
    on each level below the first argument, from the highest to the lowest. -/
def descend (s : SkipList K V) (fuel : Nat) (key : K) : Nat → NodeId → Option NodeId
  | 0, predecessor => some predecessor
  | level + 1, predecessor => do
    let (predecessor, _) ← s.advance key level fuel predecessor
    s.descend fuel key level predecessor

/-- `FindNodeNoLock`. -/
def findNodeNoLock (s : SkipList K V) (fuel : Nat) (key : K) : Option (Option NodeId) := do
  let predecessor ← s.descend fuel key s.currentLevel head
  let candidate ← s.loadForward predecessor 0
  let hit ← s.holdsKey key candidate
  some (if hit then candidate else none)

/-- `CanInsert`: one round of its loop. -/
def canInsertAt (s : SkipList K V) (predecessors successors : Nat → Option NodeId)
    (level : Nat) : Option Bool :=
  match predecessors level with
  | none => some false
  | some predecessor => do
    let node ← s.deref predecessor
    -- a null successor is not marked
    let successorMarked ← match successors level with
      | none => some false
      | some successor => do
        let next ← s.deref successor
        some next.marked
    let forward ← s.loadForward predecessor level
    some (!node.marked && !successorMarked && decide (forward = successors level))

/-- `CanInsert`. -/
def canInsert (s : SkipList K V) (predecessors successors : Nat → Option NodeId)
    (nodeLevel : Nat) : Option Bool :=
  (List.range (nodeLevel + 1)).allM (s.canInsertAt predecessors successors)

/-- `CanDelete`: one round of its loop. -/
def canDeleteAt (s : SkipList K V) (predecessors : Nat → Option NodeId) (victim : NodeId)
    (level : Nat) : Option Bool :=
  match predecessors level with
  | none => some false
  | some predecessor => do
    let node ← s.deref predecessor
    let forward ← s.loadForward predecessor level
    some (!node.marked && decide (forward = some victim))

/-- `CanDelete`. -/
def canDelete (s : SkipList K V) (predecessors : Nat → Option NodeId) (victim : NodeId) :
    Option Bool := do
  let node ← s.deref victim
  (List.range (node.topLevel + 1)).allM (s.canDeleteAt predecessors victim)

/-! ## Levels -/

/-- The loop of `RandomLevel`, with the coin flips it makes and the room that is left
    up to `max_level_`. -/
def randomLevelLoop (coin : Nat → Bool) : Nat → Nat → Nat
  | 0, level => level
  | room + 1, level => if coin level then randomLevelLoop coin room (level + 1) else level

/-- `RandomLevel`, as a function of the coin flips of its Bernoulli distribution. -/
def randomLevel (maxLevel : Nat) (coin : Nat → Bool) : Nat :=
  randomLevelLoop coin (maxLevel - 1) 1

/-- `RaiseCurrentLevel`. -/
def raiseCurrentLevel (s : SkipList K V) (candidate : Nat) : SkipList K V :=
  if s.currentLevel < candidate then { s with currentLevel := candidate } else s

/-- The loop of `RecomputeCurrentLevel`, counting down from its argument. -/
def recomputeLoop (s : SkipList K V) : Nat → Option Nat
  | 0 => some 0
  | 1 => some 1
  | level + 2 => do
    match ← s.loadForward head (level + 1) with
    | none => s.recomputeLoop (level + 1)
    | some _ => some (level + 2)

/-- `RecomputeCurrentLevel`. -/
def recomputeCurrentLevel (s : SkipList K V) : Option (SkipList K V) := do
  let level ← s.recomputeLoop s.maxLevel
  some { s with currentLevel := level }

/-! ## Writing -/

/-- A `while (true)` loop whose passes are numbered from the last argument on. -/
def retryLoop {α : Type} (pass : Nat → Option (Pass α)) : Nat → Nat → Option α
  | 0, _ => none
  | fuel + 1, i => do
    match ← pass i with
    | .retry => retryLoop pass fuel (i + 1)
    | .done result => some result

/-- The loop of `Put` that points the predecessors at the new node. -/
def link (s : SkipList K V) (predecessors : Nat → Option NodeId) (target : NodeId)
    (nodeLevel : Nat) : Option (SkipList K V) :=
  (List.range (nodeLevel + 1)).foldlM (fun s level => do
    let predecessor ← predecessors level
    s.storeForward predecessor level (some target)) s

/-- The loop of `Delete` that points the predecessors past the victim. -/
def unlink (s : SkipList K V) (predecessors : Nat → Option NodeId) (victim : NodeId)
    (victimLevel : Nat) : Option (SkipList K V) :=
  (List.range (victimLevel + 1)).reverse.foldlM (fun s level => do
    let predecessor ← predecessors level
    let forward ← s.loadForward victim level
    s.storeForward predecessor level forward) s

/-- `Put` once its checks have passed: create the node, link it on its levels, mark it
    fully linked and count it. -/
def insertNode (s : SkipList K V) (predecessors successors : Nat → Option NodeId)
    (nodeLevel : Nat) (key : K) (value : V) : Option (SkipList K V) := do
  let (newNode, s) := s.allocate
    { key := key, value := value, topLevel := nodeLevel, forward := successors }
  let s ← s.link predecessors newNode nodeLevel
  let s := s.setNode newNode { s.node newNode with fullyLinked := true }
  some { s with size := s.size + 1 }

/-- `Delete` once its checks have passed: mark the victim, unlink it on its levels and
    discount it. -/
def removeNode (s : SkipList K V) (predecessors : Nat → Option NodeId) (victim : NodeId) :
    Option (SkipList K V) := do
  let node ← s.deref victim
  let s := s.setNode victim { node with marked := true }
  let s ← s.unlink predecessors victim node.topLevel
  some { s with size := s.size - 1 }

/-- One pass of the loop of `Put`; `height` is what `RandomLevel` returns in it. -/
def putPass (s : SkipList K V) (fuel : Nat) (key : K) (value : V) (height : Nat) :
    Option (Pass (Bool × SkipList K V)) := do
  let found ← s.findNode fuel key
  match found.foundLevel with
  | some foundLevel =>
    let existing ← found.successors foundLevel
    let node ← s.deref existing
    -- a `Delete` has marked the node, or the `Put` that links it has not finished
    if node.marked then some .retry
    else if !node.fullyLinked then some .retry
    else some (.done (false, s.setNode existing { node with value := value }))
  | none =>
    let nodeLevel := height - 1
    if !(← s.canInsert found.predecessors found.successors nodeLevel) then some .retry
    else
      let s ← s.insertNode found.predecessors found.successors nodeLevel key value
      some (.done (true, s.raiseCurrentLevel (nodeLevel + 1)))

/-- `Put`. The `i`-th pass of its loop draws the level `heights i`. -/
def put (s : SkipList K V) (fuel : Nat) (heights : Nat → Nat) (key : K) (value : V) :
    Option (Bool × SkipList K V) :=
  retryLoop (fun i => s.putPass fuel key value (heights i)) fuel 0

/-- One pass of the loop of `Delete`. -/
def deletePass (s : SkipList K V) (fuel : Nat) (key : K) :
    Option (Pass (Bool × SkipList K V)) := do
  let found ← s.findNode fuel key
  match found.foundLevel with
  | none => some (.done (false, s))
  | some foundLevel =>
    match found.successors foundLevel with
    | none => some (.done (false, s))
    | some victim =>
      let node ← s.deref victim
      if !node.fullyLinked || node.marked || !keysEqual node.key key ||
          !(← s.canDelete found.predecessors victim) then some .retry
      else
        let s ← s.removeNode found.predecessors victim
        let s ← s.recomputeCurrentLevel
        some (.done (true, s))

/-- `Delete`. -/
def delete (s : SkipList K V) (fuel : Nat) (key : K) : Option (Bool × SkipList K V) :=
  retryLoop (fun _ => s.deletePass fuel key) fuel 0

/-- `Clear`. The nodes of `owned_nodes_` are freed. -/
def clear (s : SkipList K V) : SkipList K V :=
  -- the loop over `max_level_` makes all pointers of the head null
  { s.setNode head { s.node head with forward := fun _ => none } with
    allocated := 1, currentLevel := 1, size := 0 }

/-! ## Reading -/

/-- `Get`: the value it stores through its pointer when it returns `true`. The second
    test of the flags, under the node's lock, reads the same flags again. -/
def get (s : SkipList K V) (fuel : Nat) (key : K) : Option (Option V) := do
  match ← s.findNodeNoLock fuel key with
  | none => some none
  | some candidate =>
    let node ← s.deref candidate
    if node.marked || !node.fullyLinked then some none else some (some node.value)

/-- The loop of `Scan` and `Snapshot` along level 0, which stops at the first key that
    fails `inRange`. -/
def collect (s : SkipList K V) (inRange : K → Bool) :
    Nat → Option NodeId → Option (List (K × V))
  | 0, _ => none
  | _ + 1, none => some []
  | fuel + 1, some current => do
    let node ← s.deref current
    if inRange node.key then
      let next ← s.loadForward current 0
      let rest ← s.collect inRange fuel next
      -- a node that is marked or not fully linked is passed over
      some (if !node.marked && node.fullyLinked then (node.key, node.value) :: rest else rest)
    else some []

/-- `Scan`. -/
def scan (s : SkipList K V) (fuel : Nat) (start stop : K) : Option (List (K × V)) :=
  if stop < start then some []
  else do
    let current ← s.descend fuel start s.currentLevel head
    let first ← s.loadForward current 0
    s.collect (fun key => !decide (stop < key)) fuel first

/-- `Snapshot`. -/
def snapshot (s : SkipList K V) (fuel : Nat) : Option (List (K × V)) := do
  let first ← s.loadForward head 0
  s.collect (fun _ => true) fuel first

end SkipList

end KvStore
