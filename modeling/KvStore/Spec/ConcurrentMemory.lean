import KvStore.Native.Lifetime
import KvStore.Spec.ConcurrentBounds

/-!
# The memory of the nodes

Nodes that have been unlinked stay in `owned_nodes_` until `Clear`, because other calls may
still stand on them. `memory_safe` says that this is enough: no call ever has a pointer to a
node that has been destroyed, every node is destroyed at most once, and `Clear` destroys all
nodes that there are. Nor does a call look behind the last entry of `forward` of a node.
-/

namespace KvStore

open SkipList (head)

/-- The same node, with other contents behind the last entry of `forward`. -/
def Node.fill {K V : Type} (node : Node K V) (above : Nat → Option NodeId) : Node K V :=
  { node with
    forward := fun level => if level ≤ node.topLevel then node.forward level else above level }

section

variable {K V : Type} {node : Node K V} {above : Nat → Option NodeId}

@[simp] theorem Node.key_fill : (node.fill above).key = node.key := rfl

@[simp] theorem Node.value_fill : (node.fill above).value = node.value := rfl

@[simp] theorem Node.topLevel_fill : (node.fill above).topLevel = node.topLevel := rfl

@[simp] theorem Node.marked_fill : (node.fill above).marked = node.marked := rfl

@[simp] theorem Node.fullyLinked_fill : (node.fill above).fullyLinked = node.fullyLinked := rfl

end

/-- One of the vectors of `FindNode` holds the node. -/
def FindResult.Refers (found : FindResult) (n : NodeId) : Prop :=
  ∃ level, found.predecessors level = some n ∨ found.successors level = some n

namespace ConcurrentSkipList

open Heap

variable {K V T : Type}

/-! ## The pointers of a call -/

def Plan.Refers : Plan K V → NodeId → Prop
  | insert i, n => i.found.Refers n
  | remove d, n => d.found.Refers n ∨ n = d.victim

def InsertStep.Refers : InsertStep → NodeId → Prop
  | initForward node _, n => n = node
  | lockOwnership node, n => n = node
  | pushOwned node, n => n = node
  | unlockOwnership node, n => n = node
  | link node _, n => n = node
  | storeFullyLinked node, n => n = node
  | addSize node, n => n = node
  | _, _ => False

def RemoveStep.Refers : RemoveStep → NodeId → Prop
  | unlink _ next, n => next = some n
  | _, _ => False

def ReadStep.Refers : ReadStep → NodeId → Prop
  | loadLevel, _ => False
  | walk _ node, n => n = node
  | candidate node, n => n = node
  | marked node, n => n = node
  | fullyLinked node, n => n = node
  | lock node, n => n = node
  | markedLocked node, n => n = node
  | fullyLinkedLocked node, n => n = node
  | value node, n => n = node
  | next node, n => n = node

def Next.Refers : Next K V → NodeId → Prop
  | resume _ node, n => n = node
  | _, _ => False

/-- A local variable of the call points to the node. -/
def Local.Refers : Local K V → NodeId → Prop
  | find _ _ predecessor found, n => n = predecessor ∨ found.Refers n
  | assign _ _ existing _, n => n = existing
  | randomLevel _ _ found, n => found.Refers n
  | lockNodes plan held rest, n => plan.Refers n ∨ n ∈ held ∨ n ∈ rest
  | insert i held step, n => i.found.Refers n ∨ n ∈ held ∨ step.Refers n
  | remove d held step, n => (d.found.Refers n ∨ n = d.victim) ∨ n ∈ held ∨ step.Refers n
  | read _ step, n => step.Refers n
  | unlock held next, n => n ∈ held ∨ next.Refers n
  | _, _ => False

section

variable {s s' : Shared K V T} {t : T} {l l' : Local K V} {h : Heap K V}
  {choice : Choice K V} {n : NodeId}

/-- `LockNodes` is called with nodes of the vectors and with those that are added. -/
theorem refers_lockTargets {found : FindResult} {level : Nat} {more : List (Option NodeId)}
    (hn : n ∈ lockTargets h (predecessorsUpTo found level ++ more)) :
    found.Refers n ∨ some n ∈ more := by
  rw [mem_lockTargets, List.mem_append] at hn
  refine hn.imp_left fun hmem => ?_
  obtain ⟨level', -, hlevel'⟩ := List.mem_map.mp hmem
  exact ⟨level', .inl hlevel'⟩

/-- What follows `FindNode` has pointers from its vectors. -/
theorem afterFind_refers {found : FindResult} {update : Update K V}
    (hafter : afterFind h found update = some l) (hn : l.Refers n) : found.Refers n := by
  unfold afterFind at hafter
  cases update with
  | put key value =>
    dsimp only at hafter
    split at hafter
    · rename_i level _
      simp only [Option.bind_eq_bind, Option.bind_eq_some_iff] at hafter
      obtain ⟨existing, hexisting, heq⟩ := hafter
      cases heq
      obtain rfl : n = existing := hn
      exact ⟨level, .inr hexisting⟩
    · cases hafter
      exact hn
  | delete key =>
    dsimp only at hafter
    split at hafter
    · cases hafter
      cases hn
    · rename_i level _
      split at hafter <;> cases hafter
      · cases hn
      · rename_i victim hvictim
        have hrefers : found.Refers victim := ⟨level, .inr hvictim⟩
        rcases hn with (hn | rfl) | hn | hn
        · exact hn
        · exact hrefers
        · cases hn
        · -- the locks to take are for predecessors that were found, and for the victim
          rcases refers_lockTargets hn with hn | hn
          · exact hn
          · obtain rfl : n = victim := by simpa using hn
            exact hrefers

/-- The search goes down with the node that it stands on. -/
theorem findFrom_refers {found : FindResult} {update : Update K V} {p : NodeId} {level : Nat}
    (hfind : findFrom h update found p level = some l) (hn : l.Refers n) :
    n = p ∨ found.Refers n := by
  cases level with
  | zero => exact .inr (afterFind_refers hfind hn)
  | succ level =>
    cases hfind
    exact hn

/-- Above the active levels there is only the head. -/
theorem aboveActive_refers {activeLevels : Nat} (hn : (aboveActive activeLevels).Refers n) :
    n = head := by
  obtain ⟨level, hlevel | hlevel⟩ := hn
  · simp only [aboveActive] at hlevel
    split at hlevel
    · cases hlevel
    · exact (Option.some.inj hlevel).symm
  · cases hlevel

theorem Reader.walkFrom_refers {reader : Reader K V} {p : NodeId} {level : Nat}
    (hn : (reader.walkFrom p level).Refers n) : n = p := by
  cases level <;> exact hn

theorem Reader.skip_refers {reader : Reader K V} {node : NodeId}
    (hn : (reader.skip node).Refers n) : n = node := by
  cases reader
  · cases hn
  · exact hn

theorem Reader.accept_refers {reader : Reader K V} {node : NodeId}
    (hn : (reader.accept h node).Refers n) : n = node := by
  cases reader
  · cases hn
  · exact hn

theorem Next.start_refers {next : Next K V} (hn : next.start.Refers n) : next.Refers n := by
  cases next <;> exact hn

variable [LinearOrder K]

/-- A node that is looked at is the one that has been loaded. -/
theorem Reader.visit_refers {reader : Reader K V} {current : Option NodeId}
    (hn : (reader.visit h current).Refers n) : current = some n := by
  unfold Reader.visit at hn
  cases reader <;> cases current <;> dsimp only at hn
  · cases hn
  · split at hn
    · exact congrArg some hn.symm
    · cases hn
  · cases hn
  · split at hn
    · cases hn
    · exact congrArg some hn.symm

/-- One more level of `FindNode`. -/
theorem findStep_refers {found : FindResult} {update : Update K V} {p : NodeId} {level : Nat}
    {current : Option NodeId} (hfind : findStep h update level p found current = some l)
    (hn : l.Refers n) : n = p ∨ found.Refers n ∨ current = some n := by
  unfold findStep at hfind
  split at hfind
  · rename_i node hpasses
    cases hfind
    rcases hn with rfl | hn
    · exact .inr (.inr (passes_eq_some.mp hpasses).1)
    · exact .inr (.inl hn)
  · rcases findFrom_refers hfind hn with rfl | ⟨level', hlevel'⟩
    · exact .inl rfl
    · -- the entries of the level are new
      simp only [Function.update_apply] at hlevel'
      rcases hlevel' with hlevel' | hlevel'
      · split at hlevel'
        · exact .inl (Option.some.inj hlevel').symm
        · exact .inr (.inl ⟨level', .inl hlevel'⟩)
      · split at hlevel'
        · exact .inr (.inr hlevel')
        · exact .inr (.inl ⟨level', .inr hlevel'⟩)

/-! ## Steps keep the pointers alive -/

/-- All pointers of the call are to nodes that are allocated. -/
def Local.Safe (h : Heap K V) (l : Local K V) : Prop := ∀ n, l.Refers n → h.allocated n = true

/-- `Get` and `Scan` go from allocated nodes to allocated nodes. -/
theorem ReadStep.safe (hsound : s.heap.Sound) {reader : Reader K V} {step : ReadStep}
    (hl : (Local.read reader step).Safe s.heap) (hstep : step.step s t reader = some (s', l')) :
    l'.Safe s.heap := by
  intro n hn
  cases step with
  | loadLevel =>
    cases hstep
    exact Reader.walkFrom_refers hn ▸ hsound.head
  | walk level p =>
    simp only [ReadStep.step] at hstep
    split at hstep <;> cases hstep
    · rename_i node hpasses
      obtain rfl : n = node := hn
      -- an allocated node points to allocated nodes
      exact (hsound.leads (hl p rfl) (passes_eq_some.mp hpasses).1).allocated
    · exact hl n (Reader.walkFrom_refers hn)
  | candidate p | next p =>
    cases hstep
    exact (hsound.leads (hl p rfl) (Reader.visit_refers hn)).allocated
  | marked node =>
    simp only [ReadStep.step] at hstep
    split at hstep <;> cases hstep
    · exact hl n (Reader.skip_refers (Next.start_refers hn))
    · exact hl n hn
  | fullyLinked node =>
    simp only [ReadStep.step] at hstep
    split at hstep <;> cases hstep
    · exact hl n hn
    · exact hl n (Reader.skip_refers (Next.start_refers hn))
  | lock node =>
    simp only [ReadStep.step, Option.bind_eq_bind, Option.bind_eq_some_iff] at hstep
    obtain ⟨s₁, -, heq⟩ := hstep
    cases heq
    exact hl n hn
  | markedLocked node =>
    simp only [ReadStep.step] at hstep
    split at hstep <;> cases hstep
    · rcases hn with hn | hn
      · exact hl n (List.mem_singleton.mp hn)
      · exact hl n (Reader.skip_refers hn)
    · exact hl n hn
  | fullyLinkedLocked node =>
    simp only [ReadStep.step] at hstep
    split at hstep <;> cases hstep
    · exact hl n hn
    · rcases hn with hn | hn
      · exact hl n (List.mem_singleton.mp hn)
      · exact hl n (Reader.skip_refers hn)
  | value node =>
    cases hstep
    rcases hn with hn | hn
    · exact hl n (List.mem_singleton.mp hn)
    · exact hl n (Reader.accept_refers hn)

/-! ## Ownership -/

/-- The node that a `unique_ptr` of the call owns. -/
def Local.unowned : Local K V → Option NodeId
  | insert _ _ (.initForward node _) => some node
  | insert _ _ (.lockOwnership node) => some node
  | insert _ _ (.pushOwned node) => some node
  | _ => none

/-- What a step does to the nodes and their owners. -/
inductive Owns (s : Shared K V T) (l : Local K V) (choice : Choice K V) (s' : Shared K V T)
    (l' : Local K V) : Prop where
  | keep (hallocated : s'.heap.allocated = s.heap.allocated)
      (howned : s'.ownedNodes = s.ownedNodes) (hcreates : l.creates choice = [])
      (hunowned : l'.unowned = l.unowned)
  | create {new : NodeId} (hfree : s.heap.allocated new = false)
      (hallocated : s'.heap.allocated = Function.update s.heap.allocated new true)
      (howned : s'.ownedNodes = s.ownedNodes) (hcreates : l.creates choice = [new])
      (hunowned : l.unowned = none) (hnew : l'.unowned = some new)
  | push {new : NodeId} (hallocated : s'.heap.allocated = s.heap.allocated)
      (howned : s'.ownedNodes = s.ownedNodes ++ [new]) (hcreates : l.creates choice = [])
      (hnew : l.unowned = some new) (hunowned : l'.unowned = none)

/-- What a step does to the pointers of a call and to the nodes. -/
structure Tidy (s : Shared K V T) (l : Local K V) (choice : Choice K V) (s' : Shared K V T)
    (l' : Local K V) : Prop where
  refers : ∀ n, l'.Refers n → l.Refers n ∨ s'.heap.allocated n = true
  owns : Owns s l choice s' l'

omit [LinearOrder K] in
/-- `Put` on a key that is found has one node, and keeps it. -/
theorem AssignStep.tidy {key : K} {value : V} {existing : NodeId} {step : AssignStep}
    (hstep : step.step s t key value existing = some (s', l')) :
    Tidy s (.assign key value existing step) choice s' l' := by
  cases step with
  | lock =>
    simp only [AssignStep.step, Option.bind_eq_bind, Option.bind_eq_some_iff] at hstep
    obtain ⟨s₁, hlock, heq⟩ := hstep
    cases heq
    obtain ⟨-, rfl⟩ := Shared.lock_eq_some.mp hlock
    exact ⟨fun n => .inl, .keep rfl rfl rfl rfl⟩
  | store =>
    cases hstep
    exact ⟨fun n hn => .inl (by simpa [Local.Refers, Next.Refers] using hn),
      .keep rfl rfl rfl rfl⟩
  | marked | fullyLinked =>
    simp only [AssignStep.step] at hstep
    split at hstep <;> cases hstep <;>
      exact ⟨fun n hn => .inl (by simpa [Local.Refers, Next.Refers] using hn),
        .keep rfl rfl rfl rfl⟩

omit [LinearOrder K] in
/-- A step of `Put` behind `LockNodes` that concerns no owner, to another such step. -/
theorem tidy_insert {i : Insertion K V} {held : List NodeId} {step step' : InsertStep}
    (hallocated : s'.heap.allocated = s.heap.allocated) (howned : s'.ownedNodes = s.ownedNodes)
    (hcreates : (Local.insert i held step).creates choice = [])
    (hunowned : (Local.insert i held step').unowned = (Local.insert i held step).unowned)
    (hrefers : ∀ n, step'.Refers n → step.Refers n) :
    Tidy s (.insert i held step) choice s' (.insert i held step') where
  refers n hn := .inl (hn.imp_right (Or.imp_right (hrefers n)))
  owns := .keep hallocated howned hcreates hunowned

omit [LinearOrder K] in
/-- A step of `Put` behind which its locks are released. -/
theorem tidy_unlock {i : Insertion K V} {held : List NodeId} {step : InsertStep}
    {next : Next K V} (hallocated : s'.heap.allocated = s.heap.allocated)
    (howned : s'.ownedNodes = s.ownedNodes)
    (hcreates : (Local.insert i held step).creates choice = [])
    (hunowned : (Local.insert i held step).unowned = none) (hnext : ∀ n, ¬ next.Refers n) :
    Tidy s (.insert i held step) choice s' (.unlock held next) where
  refers n hn := .inl (.inr (.inl (hn.resolve_right (hnext n))))
  owns := .keep hallocated howned hcreates hunowned.symm

omit [LinearOrder K] in
/-- `RaiseCurrentLevel` concerns no owner. -/
theorem tidy_raise {i : Insertion K V} {held : List NodeId} {step : InsertStep} {observed : Nat}
    (hallocated : s'.heap.allocated = s.heap.allocated) (howned : s'.ownedNodes = s.ownedNodes)
    (hcreates : (Local.insert i held step).creates choice = [])
    (hunowned : (Local.insert i held step).unowned = none) :
    Tidy s (.insert i held step) choice s' (i.raise held observed) := by
  unfold Insertion.raise
  split
  · exact tidy_insert hallocated howned hcreates hunowned.symm fun _ => False.elim
  · exact tidy_unlock hallocated howned hcreates hunowned fun _ => id

omit [LinearOrder K] in
/-- `Put`: the new node is owned by the call until it is in `owned_nodes_`. -/
theorem InsertStep.tidy {i : Insertion K V} {held : List NodeId} {step : InsertStep}
    (hstep : step.step s t choice i held = some (s', l')) :
    Tidy s (.insert i held step) choice s' l' := by
  cases step with
  | predecessorMarked level | successorMarked level | forward level =>
    obtain ⟨rfl, hchecked⟩ := step_check rfl hstep
    cases hchecked with
    | refused => exact tidy_unlock rfl rfl rfl rfl fun _ => id
    | @passed next hnext =>
      -- the node is not created before all checks have passed
      cases next <;> first
        | exact tidy_insert rfl rfl rfl rfl fun _ => id
        | simp [isCheck] at hnext
  | create =>
    simp only [InsertStep.step] at hstep
    split at hstep
    · rename_i node
      split at hstep <;> cases hstep
      rename_i hfree
      have hfree : s.heap.allocated node = false := by simpa using hfree
      refine ⟨fun n hn => ?_, .create hfree rfl rfl rfl rfl rfl⟩
      rcases hn with hn | hn | hn
      · exact .inl (.inl hn)
      · exact .inl (.inr (.inl hn))
      · obtain rfl : n = node := hn
        exact .inr (Function.update_self _ _ _)
    · cases hstep
  | initForward node level =>
    cases hstep
    refine tidy_insert rfl rfl rfl ?_ fun n => ?_
    · split <;> rfl
    · split <;> exact id
  | lockOwnership node =>
    simp only [InsertStep.step] at hstep
    split at hstep <;> cases hstep
    exact tidy_insert rfl rfl rfl rfl fun _ => id
  | pushOwned node =>
    -- the node goes from the call to the list
    cases hstep
    exact ⟨fun n => .inl, .push rfl rfl rfl rfl rfl⟩
  | link node level =>
    simp only [InsertStep.step, Option.bind_eq_bind, Option.bind_eq_some_iff] at hstep
    obtain ⟨p, -, heq⟩ := hstep
    cases heq
    refine tidy_insert rfl rfl rfl ?_ fun n => ?_
    · split <;> rfl
    · split <;> exact id
  | loadLevel =>
    cases hstep
    exact tidy_raise rfl rfl rfl rfl
  | raiseLevel observed =>
    simp only [InsertStep.step] at hstep
    split at hstep
    · cases hstep
      exact tidy_raise rfl rfl rfl rfl
    · split at hstep <;> cases hstep
      · exact tidy_unlock rfl rfl (by cases choice <;> rfl) rfl fun _ => id
      · exact tidy_raise rfl rfl (by cases choice <;> rfl) rfl
  | unlockOwnership node | storeFullyLinked node =>
    cases hstep
    exact tidy_insert rfl rfl rfl rfl fun _ => id
  | addSize node =>
    cases hstep
    exact tidy_insert rfl rfl rfl rfl fun _ => False.elim

omit [LinearOrder K] in
/-- A step of `Delete` that gives no new pointer to it. -/
theorem tidy_remove {d : Removal K} {held : List NodeId} {step step' : RemoveStep}
    (hallocated : s'.heap.allocated = s.heap.allocated) (howned : s'.ownedNodes = s.ownedNodes)
    (hrefers : ∀ n, step'.Refers n → step.Refers n ∨ s'.heap.allocated n = true) :
    Tidy (V := V) s (.remove d held step) choice s' (.remove d held step') where
  refers n hn := by
    rcases hn with hn | hn | hn
    · exact .inl (.inl hn)
    · exact .inl (.inr (.inl hn))
    · exact (hrefers n hn).imp_left fun hn => .inr (.inr hn)
  owns := .keep hallocated howned rfl rfl

/-- `Delete` has one new pointer, to the node behind its victim. -/
theorem RemoveStep.tidy (hsound : s.heap.Sound) {d : Removal K} {held : List NodeId}
    {step : RemoveStep} (hsafe : s.heap.allocated d.victim = true)
    (hstep : step.step s d held = some (s', l')) :
    Tidy s (.remove d held step) choice s' l' := by
  -- to give back the locks refers to the nodes that are held
  have hunlock {next : Next K V} {s' : Shared K V T}
      (hallocated : s'.heap.allocated = s.heap.allocated) (howned : s'.ownedNodes = s.ownedNodes)
      (hnext : ∀ n, ¬ next.Refers n) :
      Tidy s (.remove d held step) choice s' (.unlock held next) := by
    exact ⟨fun n hn => .inl (.inr (.inl (hn.resolve_right (hnext n)))),
      .keep hallocated howned rfl rfl⟩
  by_cases hcheck : step.isCheck = true
  · obtain ⟨rfl, hchecked⟩ := step_check hcheck hstep
    cases hchecked with
    | refused => exact hunlock rfl rfl fun _ => id
    | @passed next hnext =>
      refine tidy_remove rfl rfl fun n hn => ?_
      cases next with
      | unlink level next => rcases hnext with h | h <;> cases h
      | _ => cases hn
  cases step with
  | loadNext level =>
    -- the node that is loaded is where an allocated node leads
    cases hstep
    exact tidy_remove rfl rfl fun n hn => .inr (hsound.leads hsafe hn).allocated
  | unlink level next =>
    simp only [RemoveStep.step, Option.bind_eq_bind, Option.bind_eq_some_iff] at hstep
    obtain ⟨p, -, heq⟩ := hstep
    cases heq
    refine tidy_remove rfl rfl fun n hn => ?_
    cases level <;> cases hn
  | subSize =>
    cases hstep
    refine tidy_remove rfl rfl fun n hn => ?_
    split at hn <;> cases hn
  | headForward level =>
    simp only [RemoveStep.step] at hstep
    split at hstep <;> cases hstep
    · refine tidy_remove rfl rfl fun n hn => ?_
      split at hn <;> cases hn
    · exact tidy_remove rfl rfl fun _ => False.elim
  | storeMarked =>
    cases hstep
    exact tidy_remove rfl rfl fun _ => False.elim
  | storeLevel level =>
    cases hstep
    exact hunlock rfl rfl fun _ => id
  | _ => exact absurd rfl hcheck

omit [LinearOrder K] in
/-- A search owns no node. -/
theorem findFrom_unowned {found : FindResult} {update : Update K V} {p : NodeId} {level : Nat}
    (hfind : findFrom h update found p level = some l) : l.unowned = none := by
  -- only `create` makes a call the owner of a node
  cases level with
  | succ level =>
    cases hfind
    exact rfl
  | zero =>
    simp only [findFrom, afterFind] at hfind
    cases update with
    | put key value =>
      dsimp only at hfind
      split at hfind
      · simp only [Option.bind_eq_bind, Option.bind_eq_some_iff] at hfind
        obtain ⟨existing, -, heq⟩ := hfind
        cases heq
        exact rfl
      · cases hfind
        exact rfl
    | delete key =>
      dsimp only at hfind
      split at hfind
      · cases hfind
        exact rfl
      · split at hfind <;> cases hfind <;> exact rfl

theorem Reader.visit_unowned (reader : Reader K V) (current : Option NodeId) :
    (reader.visit h current).unowned = none := by
  unfold Reader.visit
  cases reader <;> cases current <;> dsimp only <;> (try split) <;> exact rfl

omit [LinearOrder K] in
theorem Next.start_unowned (next : Next K V) : next.start.unowned = none := by
  cases next <;> exact rfl

/-- `Get` and `Scan` own no node. -/
theorem ReadStep.unowned {reader : Reader K V} {step : ReadStep}
    (hstep : step.step s t reader = some (s', l')) : l'.unowned = none := by
  -- a reader owns nothing
  cases step with
  | loadLevel =>
    cases hstep
    cases hlevel : s.currentLevel <;> exact rfl
  | candidate predecessor | next node =>
    cases hstep
    exact reader.visit_unowned _
  | lock node =>
    simp only [ReadStep.step, Option.bind_eq_bind, Option.bind_eq_some_iff] at hstep
    obtain ⟨s₁, -, heq⟩ := hstep
    cases heq
    exact rfl
  | walk level predecessor =>
    simp only [ReadStep.step] at hstep
    split at hstep <;> cases hstep
    · exact rfl
    · cases level <;> exact rfl
  | marked node =>
    simp only [ReadStep.step] at hstep
    split at hstep <;> cases hstep
    · exact Next.start_unowned _
    · exact rfl
  | fullyLinked node =>
    simp only [ReadStep.step] at hstep
    split at hstep <;> cases hstep
    · exact rfl
    · exact Next.start_unowned _
  | markedLocked node | fullyLinkedLocked node =>
    simp only [ReadStep.step] at hstep
    split at hstep <;> cases hstep <;> exact rfl
  | value node =>
    cases hstep
    exact rfl

/-- What every step does to the pointers of its call and to the nodes. -/
theorem Local.tidy (hsound : s.heap.Sound) (hsafe : l.Safe s.heap)
    (hstep : l.step s t choice = some (s', l')) : Tidy s l choice s' l' := by
  -- a step that leaves the nodes and their owners as they are
  have hplain {l l' : Local K V} {holder : NodeId → Option T} (hcreates : l.creates choice = [])
      (hl : l.unowned = none) (hl' : l'.unowned = none)
      (hrefers : ∀ n, l'.Refers n → l.Refers n ∨ s.heap.allocated n = true) :
      Tidy s l choice { s with holder } l' :=
    ⟨hrefers, .keep rfl rfl hcreates (hl'.trans hl.symm)⟩
  cases l with
  | assign key value existing step => exact AssignStep.tidy hstep
  | insert i held step => exact InsertStep.tidy hstep
  | remove d held step => exact RemoveStep.tidy hsound (hsafe _ (.inl (.inr rfl))) hstep
  | idle =>
    simp only [Local.step] at hstep
    split at hstep <;> cases hstep
    rename_i call
    cases call with
    | scan start stop =>
      refine hplain rfl rfl ?_ fun n hn => ?_
      · rw [Call.start]
        split <;> rfl
      · rw [Call.start] at hn
        split at hn <;> cases hn
    | _ => exact hplain rfl rfl rfl fun _ => False.elim
  | loadLevel update =>
    simp only [Local.step, Option.bind_eq_bind, Option.bind_eq_some_iff] at hstep
    obtain ⟨l'', hfind, heq⟩ := hstep
    cases heq
    refine hplain rfl rfl (findFrom_unowned hfind) fun n hn => .inr ?_
    rcases findFrom_refers hfind hn with rfl | hn
    · exact hsound.head
    · exact aboveActive_refers hn ▸ hsound.head
  | find update level predecessor found =>
    simp only [Local.step, Option.bind_eq_bind, Option.bind_eq_some_iff] at hstep
    obtain ⟨l'', hfind, heq⟩ := hstep
    cases heq
    refine hplain rfl rfl ?_ fun n hn => ?_
    · unfold findStep at hfind
      split at hfind
      · cases hfind
        rfl
      · exact findFrom_unowned hfind
    · rcases findStep_refers hfind hn with hn | hn | hload
      · exact .inl (.inl hn)
      · exact .inl (.inr hn)
      · exact .inr (hsound.leads (hsafe _ (.inl rfl)) hload).allocated
  | randomLevel key value found =>
    simp only [Local.step] at hstep
    split at hstep
    · split at hstep <;> cases hstep
      refine ⟨fun n hn => .inl ?_, .keep rfl rfl rfl rfl⟩
      rcases hn with hn | hn | hn
      · exact hn
      · cases hn
      · rw [← List.append_nil (predecessorsUpTo _ _)] at hn
        exact (refers_lockTargets hn).resolve_right List.not_mem_nil
    · cases hstep
  | lockNodes plan held rest =>
    -- the pointers go from the nodes that are left to those that are held
    simp only [Local.step] at hstep
    split at hstep
    · simp only [Option.bind_eq_bind, Option.bind_eq_some_iff] at hstep
      obtain ⟨s₁, hlock, heq⟩ := hstep
      cases heq
      obtain ⟨-, rfl⟩ := Shared.lock_eq_some.mp hlock
      refine ⟨fun n hn => .inl ?_, .keep rfl rfl ?_ ?_⟩
      · rcases hn with hn | hn | hn
        · exact .inl hn
        · rcases List.mem_append.mp hn with hn | hn
          · exact .inr (.inl hn)
          · exact .inr (.inr (List.mem_singleton.mp hn ▸ List.mem_cons_self))
        · exact .inr (.inr (List.mem_cons_of_mem _ hn))
      · cases plan <;> rfl
      · cases plan <;> rfl
    · split at hstep <;> cases hstep
      · refine ⟨fun n hn => .inl ?_, .keep rfl rfl rfl rfl⟩
        rcases hn with hn | hn | hn
        · exact .inl hn
        · exact .inr (.inl hn)
        · cases hn
      · refine ⟨fun n hn => .inl ?_, .keep rfl rfl rfl rfl⟩
        rcases hn with hn | hn | hn
        · exact .inl hn
        · exact .inr (.inl hn)
        · cases hn
  | read reader step =>
    obtain ⟨holder, rfl⟩ := ReadStep.step_shared hstep
    exact hplain rfl rfl (ReadStep.unowned hstep) fun n hn =>
      .inr (ReadStep.safe hsound hsafe hstep n hn)
  | unlock held next =>
    simp only [Local.step] at hstep
    split at hstep <;> cases hstep
    · exact hplain rfl rfl rfl fun n hn => .inl (hn.imp_left (List.mem_cons_of_mem _))
    · exact hplain rfl rfl next.start_unowned fun n hn => .inl (.inr (Next.start_refers hn))
  | returning call answer =>
    cases hstep
    exact hplain rfl rfl rfl fun _ => False.elim

omit [LinearOrder K] in
/-- A node that the call owns is one that it has created. -/
theorem Local.own_of_unowned (hn : l.unowned = some n) : l.own = some n := by
  cases l with
  | insert i held step => cases step <;> first | exact hn | cases hn
  | _ => cases hn

/-- A node that a call has created is not the head. -/
theorem Local.Facts.unowned_ne_head (hfacts : l.Facts h) (hn : l.unowned = some n) : n ≠ head := by
  cases l with
  | insert i held step =>
    obtain ⟨-, hstep⟩ := hfacts
    cases step with
    | initForward new level => exact Option.some.inj hn ▸ hstep.2.2.1.ne_head
    | lockOwnership new => exact Option.some.inj hn ▸ hstep.2.1.ne_head
    | pushOwned new => exact Option.some.inj hn ▸ hstep.2.1.ne_head
    | _ => cases hn
  | _ => cases hn

/-! ## Memory that is not allocated -/

/-- The same nodes, with `junk` in the memory that is not allocated and `above` where a node has
    no entry of `forward`. -/
def Heap.fill (h : Heap K V) (junk : NodeId → Node K V) (above : NodeId → Nat → Option NodeId) :
    Heap K V :=
  { h with node := fun n => bif h.allocated n then (h.node n).fill (above n) else junk n }

def Shared.fill (s : Shared K V T) (junk : NodeId → Node K V)
    (above : NodeId → Nat → Option NodeId) : Shared K V T :=
  { s with heap := s.heap.fill junk above }

section

variable {junk : NodeId → Node K V} {above : NodeId → Nat → Option NodeId}

omit [LinearOrder K] in
theorem heap_fill : (s.fill junk above).heap = s.heap.fill junk above :=
  rfl

omit [LinearOrder K] in
theorem holder_fill : (s.fill junk above).holder = s.holder :=
  rfl

omit [LinearOrder K] in
theorem ownership_fill : (s.fill junk above).ownership = s.ownership :=
  rfl

omit [LinearOrder K] in
theorem currentLevel_fill : (s.fill junk above).currentLevel = s.currentLevel :=
  rfl

omit [LinearOrder K] in
theorem allocated_fill : (h.fill junk above).allocated = h.allocated :=
  rfl

omit [LinearOrder K] in
/-- An allocated node is there, with other contents behind its last entry. -/
theorem node_fill (hn : h.allocated n = true) :
    (h.fill junk above).node n = (h.node n).fill (above n) := by
  simp only [Heap.fill, hn, cond_true]

omit [LinearOrder K] in
/-- A load of an entry that the node has. -/
theorem loadForward_fill (hn : h.allocated n = true) {level : Nat}
    (hlevel : level ≤ (h.node n).topLevel) :
    (h.fill junk above).loadForward n level = h.loadForward n level := by
  rw [Heap.loadForward, node_fill hn]
  exact if_pos hlevel

omit [LinearOrder K] in
/-- A store in an allocated node. -/
theorem setNode_fill (hn : h.allocated n = true) (node : Node K V) :
    (h.fill junk above).setNode n (node.fill (above n)) = (h.setNode n node).fill junk above := by
  simp only [Heap.setNode, Heap.fill, Heap.mk.injEq, and_true]
  funext m
  by_cases hm : m = n
  · subst hm
    rw [Function.update_self, hn, cond_true, Function.update_self]
  · rw [Function.update_of_ne hm, Function.update_of_ne hm]

omit [LinearOrder K] in
/-- A new node, where there is nothing behind its last entry. -/
theorem create_fill {node : Node K V} (hnode : node.fill (above n) = node) :
    (h.fill junk above).create n node = (h.create n node).fill junk above := by
  simp only [Heap.create, Heap.setNode, Heap.fill, Heap.mk.injEq, and_true]
  funext m
  by_cases hm : m = n
  · subst hm
    rw [Function.update_self, Function.update_self, cond_true, Function.update_self, hnode]
  · simp only [Function.update_of_ne hm]

omit [LinearOrder K] in
/-- A store to an entry that the node has. -/
theorem storeForward_fill (hn : h.allocated n = true) {level : Nat}
    (hlevel : level ≤ (h.node n).topLevel) (target : Option NodeId) :
    (h.fill junk above).storeForward n level target =
      (h.storeForward n level target).fill junk above := by
  rw [Heap.storeForward, Heap.storeForward, ← setNode_fill hn, node_fill hn]
  congr 1
  simp only [Node.fill, Node.mk.injEq, and_true, true_and]
  funext level'
  by_cases heq : level' = level
  · subst heq
    simp only [Function.update_self, if_pos hlevel]
  · simp only [Function.update_of_ne heq]

omit [LinearOrder K] in
theorem storeValue_fill (hn : h.allocated n = true) (value : V) :
    (h.fill junk above).storeValue n value = (h.storeValue n value).fill junk above := by
  rw [Heap.storeValue, Heap.storeValue, ← setNode_fill hn, node_fill hn]
  rfl

omit [LinearOrder K] in
theorem storeMarked_fill (hn : h.allocated n = true) :
    (h.fill junk above).storeMarked n = (h.storeMarked n).fill junk above := by
  rw [Heap.storeMarked, Heap.storeMarked, ← setNode_fill hn, node_fill hn]
  rfl

omit [LinearOrder K] in
theorem storeFullyLinked_fill (hn : h.allocated n = true) :
    (h.fill junk above).storeFullyLinked n = (h.storeFullyLinked n).fill junk above := by
  rw [Heap.storeFullyLinked, Heap.storeFullyLinked, ← setNode_fill hn, node_fill hn]
  rfl

/-- The comparison with the key of an allocated node. -/
theorem passes_fill {key : K} {current : Option NodeId}
    (hcurrent : ∀ n, current = some n → h.allocated n = true) :
    (h.fill junk above).passes key current = h.passes key current := by
  cases current with
  | none => rfl
  | some node =>
    simp only [Heap.passes, Option.filter_some, node_fill (hcurrent node rfl), Node.key_fill]

/-- The comparison for equality with the key of an allocated node. -/
theorem holdsKey_fill {key : K} {current : Option NodeId}
    (hcurrent : ∀ n, current = some n → h.allocated n = true) :
    (h.fill junk above).holdsKey key current = h.holdsKey key current := by
  cases current with
  | none => rfl
  | some node =>
    simp only [Heap.holdsKey, Option.any_some, node_fill (hcurrent node rfl), Node.key_fill]

omit [LinearOrder K] in
/-- What follows `FindNode` depends on the nodes of its vectors only. -/
theorem afterFind_fill {found : FindResult} (update : Update K V)
    (hfound : ∀ n, found.Refers n → h.allocated n = true) :
    afterFind (h.fill junk above) found update = afterFind h found update := by
  unfold afterFind
  cases update with
  | put key value => rfl
  | delete key =>
    dsimp only
    split
    · rfl
    · rename_i level _
      split
      · rfl
      · rename_i victim hvictim
        rw [node_fill (hfound victim ⟨level, .inr hvictim⟩)]
        rfl

omit [LinearOrder K] in
/-- The search goes down whatever the other memory holds. -/
theorem findFrom_fill {found : FindResult} (update : Update K V) (p : NodeId) (level : Nat)
    (hfound : ∀ n, found.Refers n → h.allocated n = true) :
    findFrom (h.fill junk above) update found p level = findFrom h update found p level := by
  cases level with
  | zero => exact afterFind_fill update hfound
  | succ level => rfl

/-- One more level of `FindNode`, whatever the other memory holds. -/
theorem findStep_fill {found : FindResult} (update : Update K V) {p : NodeId} (level : Nat)
    {current : Option NodeId} (hp : h.allocated p = true)
    (hfound : ∀ n, found.Refers n → h.allocated n = true)
    (hcurrent : ∀ n, current = some n → h.allocated n = true) :
    findStep (h.fill junk above) update level p found current =
      findStep h update level p found current := by
  unfold findStep
  rw [passes_fill hcurrent, holdsKey_fill hcurrent]
  split
  · rfl
  · -- what has been found exists, so the rest of the search does not see the junk
    refine findFrom_fill update p level ?_
    rintro n ⟨level', hlevel'⟩
    simp only [Function.update_apply] at hlevel'
    rcases hlevel' with hlevel' | hlevel'
    · split at hlevel'
      · exact Option.some.inj hlevel' ▸ hp
      · exact hfound n ⟨level', .inl hlevel'⟩
    · split at hlevel'
      · exact hcurrent n hlevel'
      · exact hfound n ⟨level', .inr hlevel'⟩

/-- The look at an allocated node. -/
theorem Reader.visit_fill (reader : Reader K V) {current : Option NodeId}
    (hcurrent : ∀ n, current = some n → h.allocated n = true) :
    reader.visit (h.fill junk above) current = reader.visit h current := by
  cases current with
  | none => cases reader <;> rfl
  | some node =>
    cases reader <;> simp only [Reader.visit, node_fill (hcurrent node rfl), Node.key_fill]

omit [LinearOrder K] in
/-- The reading of the value of an allocated node. -/
theorem Reader.accept_fill (reader : Reader K V) (hn : h.allocated n = true) :
    reader.accept (h.fill junk above) n = reader.accept h n := by
  cases reader <;> simp only [Reader.accept, node_fill hn, Node.key_fill, Node.value_fill]

omit [LinearOrder K] in
/-- The locking of a node does not concern its other fields. -/
theorem lock_fill (p : NodeId) :
    (s.fill junk above).lock t p = (s.lock t p).map (·.fill junk above) := by
  simp only [Shared.lock, holder_fill]
  cases s.holder p <;> rfl

/-- What a step leaves, with `junk` and `above` in the other memory. -/
def filled (junk : NodeId → Node K V) (above : NodeId → Nat → Option NodeId)
    (result : Shared K V T × Local K V) : Shared K V T × Local K V :=
  (result.1.fill junk above, result.2)

omit [LinearOrder K] in
/-- `Put` on a key that is found uses the node that it has. -/
theorem AssignStep.step_fill {key : K} {value : V} {existing : NodeId} (step : AssignStep)
    (hn : s.heap.allocated existing = true) :
    step.step (s.fill junk above) t key value existing =
      (step.step s t key value existing).map (filled junk above) := by
  cases step with
  | lock =>
    simp only [AssignStep.step, lock_fill]
    cases s.lock t existing <;> rfl
  | marked | fullyLinked =>
    simp only [AssignStep.step, heap_fill, node_fill hn, Node.marked_fill, Node.fullyLinked_fill]
    split <;> rfl
  | store =>
    simp only [AssignStep.step, heap_fill, storeValue_fill hn]
    rfl

omit [LinearOrder K] in
/-- `Put` uses its predecessors, its successors and its own node, and these within their bounds. -/
theorem InsertStep.step_fill {i : Insertion K V} {held : List NodeId} (step : InsertStep)
    (hsafe : (Local.insert i held step).Safe s.heap)
    (hbounds : (Local.insert i held step).InBounds s)
    (habove : ∀ n, s.heap.allocated n = false → above n = fun _ => none) :
    step.step (s.fill junk above) t choice i held =
      (step.step s t choice i held).map (filled junk above) := by
  cases step with
  | predecessorMarked level =>
    simp only [InsertStep.step]
    cases hp : i.found.predecessors level with
    | none => rfl
    | some p =>
      simp only [heap_fill, node_fill (hsafe p (.inl ⟨level, .inl hp⟩)), Node.marked_fill]
      split <;> rfl
  | successorMarked level =>
    simp only [InsertStep.step]
    cases hp : i.found.successors level with
    | none => rfl
    | some p =>
      simp only [heap_fill, node_fill (hsafe p (.inl ⟨level, .inr hp⟩)), Node.marked_fill]
      split <;> rfl
  | forward level =>
    simp only [InsertStep.step]
    cases hp : i.found.predecessors level with
    | none => rfl
    | some p =>
      simp only [Option.bind_eq_bind, Option.bind_some, heap_fill,
        loadForward_fill (hsafe p (.inl ⟨level, .inl hp⟩))
          (hbounds p level (Option.map_eq_some_iff.mpr ⟨p, hp, rfl⟩))]
      split
      · rfl
      · split <;> rfl
  | create =>
    -- the address is free in both memories, and the new node is the same
    simp only [InsertStep.step]
    cases choice with
    | address node =>
      dsimp only
      by_cases hfree : (s.fill junk above).heap.allocated node = true
      · rw [if_pos hfree, if_pos (show s.heap.allocated node = true from hfree)]
        rfl
      · have hfree' : ¬ s.heap.allocated node = true := hfree
        rw [if_neg hfree, if_neg hfree', heap_fill, create_fill]
        · rfl
        · -- all its pointers are null
          rw [habove node (by simpa using hfree')]
          exact congrArg (Node.mk _ _ _ · _ _) (funext fun _ => ite_self _)
    | _ => rfl
  | initForward node level =>
    simp only [InsertStep.step, heap_fill, storeForward_fill (hsafe node (.inr (.inr rfl)))
      (hbounds node level rfl)]
    rfl
  | lockOwnership node =>
    simp only [InsertStep.step, ownership_fill]
    cases s.ownership <;> rfl
  | link node level =>
    simp only [InsertStep.step]
    cases hp : i.found.predecessors level with
    | none => rfl
    | some p =>
      simp only [Option.bind_eq_bind, Option.bind_some, heap_fill,
        storeForward_fill (hsafe p (.inl ⟨level, .inl hp⟩))
          (hbounds p level (Option.map_eq_some_iff.mpr ⟨p, hp, rfl⟩))]
      rfl
  | storeFullyLinked node =>
    simp only [InsertStep.step, heap_fill, storeFullyLinked_fill (hsafe node (.inr (.inr rfl)))]
    rfl
  | raiseLevel observed =>
    cases choice with
    | spurious => rfl
    | _ =>
      simp only [InsertStep.step]
      by_cases hobserved : (s.fill junk above).currentLevel = observed
      · rw [if_pos hobserved, if_pos (show s.currentLevel = observed from hobserved)]
        rfl
      · rw [if_neg hobserved, if_neg (show s.currentLevel ≠ observed from hobserved)]
        rfl
  | pushOwned node | unlockOwnership node | addSize node | loadLevel => rfl

/-- `Delete` uses its victim, its predecessors and the head, and these within their bounds. -/
theorem RemoveStep.step_fill (hsound : s.heap.Sound) {d : Removal K} {held : List NodeId}
    (step : RemoveStep) (hsafe : (Local.remove (V := V) d held step).Safe s.heap)
    (hbounds : (Local.remove (V := V) d held step).InBounds s) :
    step.step (s.fill junk above) d held = (step.step s d held).map (filled junk above) := by
  have hvictim : s.heap.allocated d.victim = true := hsafe _ (.inl (.inr rfl))
  cases step with
  | fullyLinked =>
    simp only [RemoveStep.step, heap_fill, node_fill hvictim, Node.fullyLinked_fill]
    split <;> rfl
  | marked =>
    simp only [RemoveStep.step, heap_fill, node_fill hvictim, Node.marked_fill, Node.key_fill]
    split
    · rfl
    · split <;> rfl
  | predecessorMarked level =>
    simp only [RemoveStep.step]
    cases hp : d.found.predecessors level with
    | none => rfl
    | some p =>
      simp only [heap_fill, node_fill (hsafe p (.inl (.inl ⟨level, .inl hp⟩))), Node.marked_fill]
      split <;> rfl
  | forward level =>
    simp only [RemoveStep.step]
    cases hp : d.found.predecessors level with
    | none => rfl
    | some p =>
      simp only [Option.bind_eq_bind, Option.bind_some, heap_fill, node_fill hvictim,
        Node.topLevel_fill, loadForward_fill (hsafe p (.inl (.inl ⟨level, .inl hp⟩)))
          (hbounds p level (Option.map_eq_some_iff.mpr ⟨p, hp, rfl⟩))]
      split
      · rfl
      · split <;> rfl
  | storeMarked =>
    simp only [RemoveStep.step, heap_fill, node_fill hvictim, storeMarked_fill hvictim,
      Node.topLevel_fill]
    rfl
  | loadNext level =>
    simp only [RemoveStep.step, heap_fill, loadForward_fill hvictim (hbounds _ level rfl)]
    rfl
  | unlink level next =>
    simp only [RemoveStep.step]
    cases hp : d.found.predecessors level with
    | none => rfl
    | some p =>
      simp only [Option.bind_eq_bind, Option.bind_some, heap_fill,
        storeForward_fill (hsafe p (.inl (.inl ⟨level, .inl hp⟩)))
          (hbounds p level (Option.map_eq_some_iff.mpr ⟨p, hp, rfl⟩))]
      rfl
  | headForward level =>
    -- the scan looks at the head
    simp only [RemoveStep.step, heap_fill,
      loadForward_fill hsound.head (hbounds head (level - 1) rfl)]
    split <;> rfl
  | subSize | storeLevel level => rfl

/-- `Get` and `Scan` use the node that they stand on and the one behind it. -/
theorem ReadStep.step_fill (hsound : s.heap.Sound) {reader : Reader K V} (step : ReadStep)
    (hsafe : (Local.read reader step).Safe s.heap) (hbounds : (Local.read reader step).InBounds s) :
    step.step (s.fill junk above) t reader = (step.step s t reader).map (filled junk above) := by
  -- each step reads a node that exists
  cases step with
  | loadLevel => rfl
  | walk level p =>
    have hp := hsafe p rfl
    simp only [ReadStep.step, heap_fill, loadForward_fill hp (hbounds p level rfl),
      passes_fill fun n hn => (hsound.leads hp hn).allocated]
    split <;> rfl
  | candidate p | next p =>
    have hp := hsafe p rfl
    simp only [ReadStep.step, heap_fill, loadForward_fill hp (hbounds p 0 rfl),
      Reader.visit_fill reader fun n hn => (hsound.leads hp hn).allocated]
    rfl
  | marked node | fullyLinked node | markedLocked node | fullyLinkedLocked node =>
    simp only [ReadStep.step, heap_fill, node_fill (hsafe node rfl), Node.marked_fill,
      Node.fullyLinked_fill]
    split <;> rfl
  | lock node =>
    simp only [ReadStep.step, lock_fill]
    cases s.lock t node <;> rfl
  | value node =>
    simp only [ReadStep.step, heap_fill, Reader.accept_fill reader (hsafe node rfl)]
    rfl

/-- A step does the same whatever the memory holds that is not allocated or lies behind the
    entries of a node, and leaves that memory alone. -/
theorem Local.step_fill (hsound : s.heap.Sound) (hsafe : l.Safe s.heap) (hbounds : l.InBounds s)
    (habove : ∀ n, s.heap.allocated n = false → above n = fun _ => none) :
    l.step (s.fill junk above) t choice = (l.step s t choice).map (filled junk above) := by
  cases l with
  | assign key value existing step => exact step.step_fill (hsafe existing rfl)
  | insert i held step => exact step.step_fill hsafe hbounds habove
  | remove d held step => exact step.step_fill hsound hsafe hbounds
  | read reader step => exact step.step_fill hsound hsafe hbounds
  | idle => cases choice <;> rfl
  | returning call answer => rfl
  | loadLevel update =>
    -- above the active levels there is the head
    have hfound (n : NodeId) (hn : (aboveActive s.currentLevel).Refers n) :
        s.heap.allocated n = true :=
      aboveActive_refers hn ▸ hsound.head
    simp only [Local.step, heap_fill, currentLevel_fill,
      findFrom_fill update head s.currentLevel hfound]
    cases findFrom s.heap update (aboveActive s.currentLevel) head s.currentLevel <;> rfl
  | find update level p found =>
    have hp := hsafe p (.inl rfl)
    simp only [Local.step, heap_fill, loadForward_fill hp (hbounds p level rfl),
      findStep_fill update level hp (fun n hn => hsafe n (.inr hn))
        fun n hn => (hsound.leads hp hn).allocated]
    cases findStep s.heap update level p found (s.heap.loadForward p level) <;> rfl
  | randomLevel key value found =>
    cases choice with
    | level nodeLevel =>
      simp only [Local.step]
      by_cases hlevel : nodeLevel < (s.fill junk above).maxLevel
      · rw [if_pos hlevel, if_pos (show nodeLevel < s.maxLevel from hlevel)]
        rfl
      · rw [if_neg hlevel, if_neg (show ¬ nodeLevel < s.maxLevel from hlevel)]
        rfl
    | _ => rfl
  | lockNodes plan held rest =>
    cases rest with
    | cons node rest =>
      simp only [Local.step, lock_fill]
      cases s.lock t node <;> rfl
    | nil => cases plan <;> rfl
  | unlock held next => cases held <;> rfl

end

end

/-! ## Whole lives -/

/-- `Clear` keeps the heights of the nodes that it leaves. -/
theorem Shared.Heights.clear {s : Shared K V T} (hheights : s.Heights)
    (halloc : s.heap.allocated SkipList.head = true) : s.clear.Heights := by
  have htop (n : NodeId) : (s.clear.heap.node n).topLevel = (s.heap.node n).topLevel := by
    by_cases hn : n = SkipList.head <;> simp [Shared.clear, hn]
  refine ⟨?_, fun {n} hn => ?_, ?_⟩
  · rw [htop]
    exact hheights.head
  · rw [htop]
    exact hheights.topLevel (Bool.and_eq_true_iff.mp hn).1
  · -- there is at least one level
    exact Nat.one_le_of_lt (hheights.topLevel halloc)

namespace Lifetime

variable [LinearOrder K] [DecidableEq T] {s s' : Lifetime K V T} {label : Label K V T}
  {maxLevel : Nat} {address : NodeId ↪ Nat}

/-- What holds of the nodes and their owners. -/
structure Inv (s : Lifetime K V T) : Prop where
  outline : outline.Holds s.state.shared s.state.thread
  safe : ∀ t, (s.state.thread t).Safe s.state.shared.heap
  bounded : s.state.Bounded
  nodup : s.state.shared.ownedNodes.Nodup
  owned : ∀ n ∈ s.state.shared.ownedNodes,
    s.state.shared.heap.allocated n = true ∧ n ≠ head
  owner : ∀ n, s.state.shared.heap.allocated n = true →
    n = head ∨ n ∈ s.state.shared.ownedNodes ∨ ∃ t, (s.state.thread t).unowned = some n
  unowned : ∀ t n, (s.state.thread t).unowned = some n → n ∉ s.state.shared.ownedNodes
  count : ∀ n, s.created.count n = s.destroyed.count n +
    if s.state.shared.heap.allocated n = true ∧ n ≠ head then 1 else 0

omit [DecidableEq T] in
/-- The constructor creates the head and nothing else. -/
theorem inv_new [Inhabited K] [Inhabited V] (maxLevel : Nat) (address : NodeId ↪ Nat) :
    (new maxLevel address : Lifetime K V T).Inv where
  outline := State.outline_new maxLevel address
  safe t n := False.elim
  bounded := State.bounded_new maxLevel address
  nodup := List.nodup_nil
  owned n hn := absurd hn List.not_mem_nil
  owner n hn := .inl (of_decide_eq_true hn)
  unowned t n hn := by cases hn
  count n := by
    have hnone : ¬ (decide (n = head) = true ∧ n ≠ head) := fun h => h.2 (of_decide_eq_true h.1)
    show 0 = 0 + if decide (n = head) = true ∧ n ≠ head then 1 else 0
    rw [if_neg hnone]

omit [DecidableEq T] in
/-- When no call is in flight, the list owns all nodes. -/
theorem Inv.mem_owned (h : s.Inv) (hquiescent : s.state.Quiescent) {n : NodeId} :
    n ∈ s.state.shared.ownedNodes ↔ s.state.shared.heap.allocated n = true ∧ n ≠ head := by
  refine ⟨h.owned n, fun hn => ?_⟩
  rcases h.owner n hn.1 with rfl | howned | ⟨t, ht⟩
  · exact absurd rfl hn.2
  · exact howned
  · rw [hquiescent t] at ht
    cases ht

/-- A step of a call. -/
theorem Inv.call (h : s.Inv) {t : T} {choice : Choice K V} {state : State K V T}
    (hstep : s.state.Step (t, choice) state) :
    Inv { s with state, created := s.created ++ (s.state.thread t).creates choice } := by
  have houtline := State.outline_step h.outline hstep
  have hbounded := h.bounded.step h.outline hstep
  obtain ⟨shared, pc, hlocal, rfl⟩ := State.step_iff.mp hstep
  have hl := h.outline.asserts t
  have hsound : s.state.shared.heap.Sound := h.outline.inv
  have hmoves := (hl.outcome hsound hlocal).effect.moves
  obtain ⟨hrefers, howns⟩ := Local.tidy hsound (h.safe t) hlocal
  -- the other threads stand where they stood
  have hother {u : T} (hu : u ≠ t) : Function.update s.state.thread t pc u = s.state.thread u :=
    Function.update_of_ne hu _ _
  have hself : Function.update s.state.thread t pc t = pc := Function.update_self _ _ _
  have hsafe : ∀ u, (Function.update s.state.thread t pc u).Safe shared.heap := by
    intro u n hn
    by_cases hu : u = t
    · subst hu
      rw [hself] at hn
      exact (hrefers n hn).elim (fun hn => hmoves.allocated (h.safe u n hn)) id
    · rw [hother hu] at hn
      exact hmoves.allocated (h.safe u n hn)
  cases howns with
  | keep hallocated howned hcreates hunowned =>
    have hunowned' (u : T) : (Function.update s.state.thread t pc u).unowned =
        (s.state.thread u).unowned := by
      by_cases hu : u = t
      · subst hu
        rw [hself, hunowned]
      · rw [hother hu]
    exact
      { outline := houtline
        safe := hsafe
        bounded := hbounded
        nodup := howned ▸ h.nodup
        owned := fun n hn => by
          rw [howned] at hn
          simpa only [hallocated] using h.owned n hn
        owner := fun n hn => by
          simp only [hallocated, howned, hunowned'] at hn ⊢
          exact h.owner n hn
        unowned := fun u n hn => by
          simp only [howned, hunowned'] at hn ⊢
          exact h.unowned u n hn
        count := fun n => by
          simp only [hcreates, List.append_nil, hallocated]
          exact h.count n }
  | @create new hfree hallocated howned hcreates hunowned hnew =>
    -- the address was free, so it is neither the head nor owned
    have hnewHead : new ≠ head := by
      rintro rfl
      exact absurd hsound.head (by simp [hfree])
    have hnotOwned : new ∉ s.state.shared.ownedNodes := fun hmem =>
      absurd (h.owned new hmem).1 (by simp [hfree])
    -- every other node was there before
    have hcases {n : NodeId} (hn : shared.heap.allocated n = true) :
        n = new ∨ s.state.shared.heap.allocated n = true := by
      rw [hallocated, Function.update_apply] at hn
      split at hn
      · exact .inl ‹_›
      · exact .inr hn
    exact
      { outline := houtline
        safe := hsafe
        bounded := hbounded
        nodup := howned ▸ h.nodup
        owned := fun n hn => by
          rw [howned] at hn
          exact ⟨hmoves.allocated (h.owned n hn).1, (h.owned n hn).2⟩
        owner := fun n hn => by
          rcases hcases hn with rfl | hold
          · exact .inr (.inr ⟨t, (congrArg Local.unowned hself).trans hnew⟩)
          · refine (h.owner n hold).imp_right (Or.imp (fun hn => howned ▸ hn) ?_)
            rintro ⟨u, hu⟩
            have hne : u ≠ t := by
              rintro rfl
              cases hunowned.symm.trans hu
            exact ⟨u, (congrArg Local.unowned (hother hne)).trans hu⟩
        unowned := fun u n hn => by
          rw [howned]
          by_cases hu : u = t
          · subst hu
            have hn := (congrArg Local.unowned hself).symm.trans hn
            exact Option.some.inj (hnew.symm.trans hn) ▸ hnotOwned
          · exact h.unowned u n ((congrArg Local.unowned (hother hu)).symm.trans hn)
        count := fun n => by
          have hcount := h.count n
          simp only [hcreates, List.count_append, List.count_singleton', hallocated,
            Function.update_apply]
          by_cases hn : n = new
          · subst hn
            simp only [hfree] at hcount
            simpa [hnewHead] using hcount
          · have hn' : new ≠ n := fun heq => hn heq.symm
            simpa [hn, hn'] using hcount }
  | @push new hallocated howned hcreates hnew hunowned =>
    -- the node was created by the call, which gives it to the list
    have halloc := hl.facts.own_allocated (Local.own_of_unowned hnew)
    have hnewHead := hl.facts.unowned_ne_head hnew
    exact
      { outline := houtline
        safe := hsafe
        bounded := hbounded
        nodup := by
          rw [howned, List.nodup_append']
          refine ⟨h.nodup, List.nodup_singleton _, ?_⟩
          rw [List.disjoint_singleton]
          exact h.unowned t new hnew
        owned := fun n hn => by
          simp only [howned, hallocated, List.mem_append, List.mem_singleton] at hn ⊢
          rcases hn with hn | rfl
          · exact h.owned n hn
          · exact ⟨halloc, hnewHead⟩
        owner := fun n hn => by
          simp only [howned, hallocated, List.mem_append, List.mem_singleton] at hn ⊢
          refine (h.owner n hn).imp_right fun hn => ?_
          rcases hn with hn | ⟨u, hu⟩
          · exact .inl (.inl hn)
          · by_cases heq : u = t
            · subst heq
              exact .inl (.inr (Option.some.inj (hu.symm.trans hnew)))
            · exact .inr ⟨u, (congrArg Local.unowned (hother heq)).trans hu⟩
        unowned := fun u n hn => by
          by_cases hu : u = t
          · subst hu
            cases hunowned.symm.trans ((congrArg Local.unowned hself).symm.trans hn)
          · have hn := (congrArg Local.unowned (hother hu)).symm.trans hn
            rw [howned, List.mem_append, List.mem_singleton]
            rintro (hmem | rfl)
            · exact h.unowned u n hn hmem
            · -- two calls do not create the same node
              exact h.outline.apart t u (Ne.symm hu) n (Local.own_of_unowned hnew)
                (Local.own_of_unowned hn)
        count := fun n => by
          simp only [hcreates, List.append_nil, hallocated]
          exact h.count n }

omit [DecidableEq T] in
/-- `Clear` leaves nothing but the head, without successors. -/
theorem Inv.allocated_clear (h : s.Inv) (hquiescent : s.state.Quiescent) {n : NodeId} :
    s.state.shared.clear.heap.allocated n = true ↔ n = head := by
  show (s.state.shared.heap.allocated n && decide (n ∉ s.state.shared.ownedNodes)) = true ↔ _
  rw [Bool.and_eq_true, decide_eq_true_eq, h.mem_owned hquiescent]
  constructor
  · rintro ⟨halloc, hnot⟩
    by_contra hne
    exact hnot ⟨halloc, hne⟩
  · rintro rfl
    exact ⟨h.outline.inv.head, fun hn => hn.2 rfl⟩

omit [DecidableEq T] in
/-- Behind `Clear` the head points nowhere, on no level. -/
theorem Inv.loadForward_clear (h : s.Inv) (level : Nat) :
    s.state.shared.clear.heap.loadForward head level = none := by
  simp only [Heap.loadForward, Shared.clear, Function.update_self]
  split
  · rfl
  · exact h.bounded.heights.loadForward_head h.outline.inv (not_lt.mp ‹_›)

omit [DecidableEq T] in
/-- `Clear`. -/
theorem Inv.clear (h : s.Inv) (hquiescent : s.state.Quiescent) : s.clear.Inv := by
  have hallocated {n : NodeId} : s.clear.state.shared.heap.allocated n = true ↔ n = head :=
    h.allocated_clear hquiescent
  -- all lists are empty
  have hlists (level : Nat) : s.clear.state.shared.heap.Lists level [] :=
    congrArg some (h.loadForward_clear level)
  have hidle (t : T) : s.clear.state.thread t = .idle := hquiescent t
  exact
    { outline :=
        { inv :=
            { head := hallocated.mpr rfl
              lists := fun level => ⟨[], hlists level⟩
              leads := fun {n level m} hn hm => by
                obtain rfl := hallocated.mp hn
                cases (h.loadForward_clear level).symm.trans hm
              nested := fun {level n} hn => by
                obtain rfl : n = head := List.mem_singleton.mp ((hlists _).listed_iff.mp hn)
                exact ⟨[], hlists level, List.mem_cons_self⟩ }
          asserts := fun t => by
            rw [hidle t]
            exact ⟨trivial, List.nodup_nil, fun n hn => absurd hn List.not_mem_nil⟩
          apart := fun t u _ n hn => by
            rw [hidle t] at hn
            cases hn }
      safe := fun t n hn => by
        rw [hidle t] at hn
        cases hn
      bounded :=
        { heights := h.bounded.heights.clear h.outline.inv.head
          within := fun t => by
            rw [hidle t]
            trivial }
      nodup := List.nodup_nil
      owned := fun n hn => absurd hn List.not_mem_nil
      owner := fun n hn => .inl (hallocated.mp hn)
      unowned := fun t n hn => by
        rw [hidle t] at hn
        cases hn
      count := fun n => by
        have hnone : ¬ (s.clear.state.shared.heap.allocated n = true ∧ n ≠ head) :=
          fun hn => hn.2 (hallocated.mp hn.1)
        rw [if_neg hnone]
        show s.created.count n = (s.destroyed ++ s.state.shared.ownedNodes).count n + 0
        rw [h.count n, List.count_append, h.nodup.count]
        simp only [h.mem_owned hquiescent, Nat.add_zero] }

/-- A step of a call and `Clear` keep the invariant. -/
theorem Inv.step (h : s.Inv) (hstep : Step s label s') : s'.Inv := by
  cases hstep with
  | step hstep => exact h.call hstep
  | clear hquiescent => exact h.clear hquiescent

omit [DecidableEq T] in
/-- A call uses no entry of `forward` that its node does not have. -/
theorem Inv.inBounds (h : s.Inv) (t : T) : (s.state.thread t).InBounds s.state.shared :=
  (h.bounded.within t).inBounds h.bounded.heights (h.outline.asserts t).facts

theorem inv_of_run [Inhabited K] [Inhabited V]
    (hrun : Run Step (fun _ _ => True) (new maxLevel address) s) : s.Inv :=
  hrun.invariant (inv_new maxLevel address) fun hs _ => hs.step

/-- In the whole life of a skip list, whatever its callers do: a call only has pointers to
    nodes that are allocated, and no step depends on other memory or changes it, nor on what
    lies behind the entries of `forward` that a node has, one for each of its levels. A node is
    destroyed once for each time it is created, except that the nodes that are allocated
    are still to be destroyed; and `Clear` destroys those. -/
theorem memory_safe [Inhabited K] [Inhabited V]
    (hrun : Run Step (fun _ _ => True) (new maxLevel address) s) :
    (∀ t n, (s.state.thread t).Refers n → s.state.shared.heap.allocated n = true) ∧
      (∀ t choice (junk : NodeId → Node K V) (above : NodeId → Nat → Option NodeId),
        (∀ n, s.state.shared.heap.allocated n = false → above n = fun _ => none) →
        (s.state.thread t).step (s.state.shared.fill junk above) t choice =
          ((s.state.thread t).step s.state.shared t choice).map (filled junk above)) ∧
      (∀ n, s.created.count n = s.destroyed.count n +
        if s.state.shared.heap.allocated n = true ∧ n ≠ head then 1 else 0) ∧
      (s.state.Quiescent → s.created.Perm s.clear.destroyed) := by
  have hinv := inv_of_run hrun
  refine ⟨hinv.safe, fun t choice junk above habove => ?_, hinv.count, fun hquiescent => ?_⟩
  · exact Local.step_fill hinv.outline.inv (hinv.safe t) (hinv.inBounds t) habove
  -- after `Clear` only the head is allocated
  refine List.perm_iff_count.mpr fun n => ?_
  have hcount := (hinv.clear hquiescent).count n
  have hnone : ¬ (s.clear.state.shared.heap.allocated n = true ∧ n ≠ head) := fun hn =>
    hn.2 ((hinv.allocated_clear hquiescent).mp hn.1)
  rwa [if_neg hnone, Nat.add_zero] at hcount

/-- The steps of calls, in the life of the skip list. -/
theorem exists_run {state state' : State K V T} {ok : State K V T → T × Choice K V → Prop}
    (hrun : Run State.Step ok state state') (destroyed : List NodeId) :
    ∃ created, Run Step (fun _ _ => True) { state, destroyed }
      { state := state', created, destroyed } := by
  induction hrun with
  | refl => exact ⟨[], .refl⟩
  | tail label _ _ hstep ih =>
    obtain ⟨created, hrun⟩ := ih
    exact ⟨_, .tail (.step label.1 label.2) hrun trivial (.step hstep)⟩

/-- A `Put` into an empty list, which is cleared then. -/
theorem memory_safe_clear :
    ∃ s : Lifetime Nat Nat Bool, s.destroyed = [7] ∧ s.created.Perm s.clear.destroyed := by
  obtain ⟨state, hrun, hs⟩ := Run.exists_of_any
    (show Option.any (fun s : State Nat Nat Bool => s.Quiescent ∧ s.shared.ownedNodes = [7])
      (List.foldlM (fun s label => if True then s.step label.1 label.2 else none) (.new 4 (.refl _))
        (State.putSteps true 10 1 7)) = true by decide +kernel)
  obtain ⟨hquiescent, howned⟩ := of_decide_eq_true hs
  obtain ⟨created, hrun⟩ := exists_run hrun []
  exact ⟨_, howned, (memory_safe (.tail .clear hrun trivial (.clear hquiescent))).2.2.2 hquiescent⟩

end Lifetime

end ConcurrentSkipList

end KvStore
