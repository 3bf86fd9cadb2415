import KvStore.Native.ConcurrentSkipList

/-!
# The life of a skip list

Calls of `Put`, `Get`, `Delete` and `Scan` by any threads, with calls of `Clear` in between.
`Clear` takes `lifecycle_mutex_` exclusively, so it runs when no other call is in flight. It is
also what the destructor of the skip list calls. The nodes that are created and destroyed are
recorded.
-/

namespace KvStore

namespace ConcurrentSkipList

open SkipList (head)

variable {K V T : Type}

/-- `Clear`. -/
def Shared.clear (s : Shared K V T) : Shared K V T :=
  { s with
    heap :=
      { s.heap with
        node := Function.update s.heap.node head
          { s.heap.node head with
            forward := fun level =>
              if level < s.maxLevel then none else (s.heap.node head).forward level }
        -- `owned_nodes_.clear()` destroys the nodes
        allocated := fun p => s.heap.allocated p && decide (p ∉ s.ownedNodes) }
    ownedNodes := []
    currentLevel := 1
    size := 0 }

/-- The node that the next step of a thread creates. -/
def Local.creates : Local K V → Choice K V → List NodeId
  | insert _ _ .create, .address node => [node]
  | _, _ => []

/-- A skip list, and the nodes that have been created and destroyed so far. -/
structure Lifetime (K V T : Type) where
  state : State K V T
  created : List NodeId := []
  destroyed : List NodeId := []

namespace Lifetime

/-- An empty skip list that nobody uses. -/
def new [Inhabited K] [Inhabited V] (maxLevel : Nat) (address : NodeId ↪ Nat) :
    Lifetime K V T where
  state := .new maxLevel address

/-- `Clear`, and what it destroys. -/
def clear (s : Lifetime K V T) : Lifetime K V T where
  state := { s.state with shared := s.state.shared.clear }
  created := s.created
  destroyed := s.destroyed ++ s.state.shared.ownedNodes

/-- What happens to a skip list. -/
inductive Label (K V T : Type) where
  | step (t : T) (choice : Choice K V)
  | clear

inductive Step [LinearOrder K] [DecidableEq T] (s : Lifetime K V T) :
    Label K V T → Lifetime K V T → Prop where
  | step {t : T} {choice : Choice K V} {state : State K V T}
      (hstep : s.state.Step (t, choice) state) :
      Step s (.step t choice)
        { s with state, created := s.created ++ (s.state.thread t).creates choice }
  | clear (hquiescent : s.state.Quiescent) : Step s .clear s.clear

end Lifetime

end ConcurrentSkipList

end KvStore
