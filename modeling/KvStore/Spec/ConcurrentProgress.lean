import KvStore.Spec.ConcurrentCover
import Mathlib.Data.Set.Finite.Lattice
import Mathlib.Logic.Relation

/-!
# No deadlock

A call waits for nothing but a mutex, and no null pointer is dereferenced
(`Local.Asserts.enabled`). The mutexes of nodes are taken in the order of their addresses,
`ownership_mutex_` is taken behind them, and who holds it never waits. So a thread that
waits for a node waits for a thread that waits for a later node, if it waits at all, and a
chain of threads that wait for each other ends with a thread that makes its step
(`State.never_stuck`).
-/

namespace KvStore

namespace ConcurrentSkipList

open SkipList (head)
open Heap

variable {K V T : Type}

/-- The mutexes of a skip list. -/
inductive Mutex where
  | node (p : NodeId)
  | ownership

section

variable {address : NodeId ↪ Nat} {bound : Nat} {p q : NodeId}

/-- How far the mutex that a thread waits for is from the last one. -/
def Mutex.rank (address : NodeId ↪ Nat) (bound : Nat) : Option Mutex → Nat
  | none => 0
  | some .ownership => 1
  | some (.node p) => bound + 2 - address p

/-- The mutexes of the nodes come before `ownership_mutex_`. -/
theorem Mutex.one_lt_rank (hp : address p ≤ bound) :
    1 < Mutex.rank address bound (some (.node p)) := by
  dsimp only [Mutex.rank]
  omega

/-- Among the nodes, the addresses decide. -/
theorem Mutex.rank_lt_rank (hp : address p ≤ bound) (hpq : address p < address q) :
    Mutex.rank address bound (some (.node q)) < Mutex.rank address bound (some (.node p)) := by
  dsimp only [Mutex.rank]
  omega

end

/-- The thread that holds a mutex. -/
def Shared.holderOf (s : Shared K V T) : Mutex → Option T
  | .node p => s.holder p
  | .ownership => s.ownership

namespace Local

/-- The mutex that the next step of the thread locks. -/
def wants : Local K V → Option Mutex
  | assign _ _ existing .lock => some (.node existing)
  | lockNodes _ _ (node :: _) => some (.node node)
  | insert _ _ (.lockOwnership _) => some .ownership
  | read _ (.lock node) => some (.node node)
  | _ => none

/-- The thread holds `ownership_mutex_`. -/
def owns : Local K V → Prop
  | insert _ _ (.pushOwned _) => True
  | insert _ _ (.unlockOwnership _) => True
  | _ => False

/-- `LockNodes` takes its mutexes in the order of their addresses. -/
def Ascending (address : NodeId ↪ Nat) : Local K V → Prop
  | lockNodes _ held rest => (held ++ rest).Pairwise fun p q => address p < address q
  | _ => True

end Local

/-- What a step does to what `Outcome` leaves out. -/
structure Orderly (t : T) (s : Shared K V T) (l : Local K V) (s' : Shared K V T)
    (l' : Local K V) : Prop where
  ascending : l.Ascending s.heap.address → l'.Ascending s'.heap.address
  address : s'.heap.address = s.heap.address
  maxLevel : s'.maxLevel = s.maxLevel
  allocated : ∃ p, ∀ n, s'.heap.allocated n = true → s.heap.allocated n = true ∨ n = p
  ownership : s'.ownership = s.ownership ∧ (l.owns → l'.owns) ∨ s'.ownership = none ∨
    s'.ownership = some t ∧ l'.owns

section

variable {s s' : Shared K V T} {t : T} {l l' : Local K V} {h : Heap K V} {choice : Choice K V}
  {address : NodeId ↪ Nat}

/-- A step that neither creates a node nor concerns `ownership_mutex_`. -/
theorem Orderly.of_eq
    (hascending : l.Ascending s.heap.address → l'.Ascending s'.heap.address)
    (haddress : s'.heap.address = s.heap.address) (hmaxLevel : s'.maxLevel = s.maxLevel)
    (hallocated : s'.heap.allocated = s.heap.allocated) (hownership : s'.ownership = s.ownership)
    (howns : ¬ l.owns) : Orderly t s l s' l' where
  ascending := hascending
  address := haddress
  maxLevel := hmaxLevel
  allocated := ⟨head, fun _ hn => .inl (hallocated ▸ hn)⟩
  ownership := .inl ⟨hownership, fun h => absurd h howns⟩

/-! ## The order of the mutexes -/

/-- The nodes are sorted by their addresses, no two of which are the same. -/
theorem pairwise_lockTargets (nodes : List (Option NodeId)) :
    (lockTargets h nodes).Pairwise fun p q => h.address p < h.address q := by
  have htotal : Std.Total fun p q : NodeId => h.address p ≤ h.address q :=
    ⟨fun p q => Nat.le_total _ _⟩
  have htrans : IsTrans NodeId fun p q => h.address p ≤ h.address q :=
    ⟨fun p q r => Nat.le_trans⟩
  have hsorted : (lockTargets h nodes).Pairwise fun p q => h.address p ≤ h.address q :=
    (List.pairwise_insertionSort (fun p q : NodeId => h.address p ≤ h.address q) _).sublist
      (List.dedup_sublist _)
  exact hsorted.imp₂ (fun p q hle hne => lt_of_le_of_ne hle fun heq => hne (h.address.injective heq))
    (nodup_lockTargets h nodes)

/-- `LockNodes` is called with sorted nodes. -/
theorem afterFind_ascending {update : Update K V} {found : FindResult}
    (hafter : afterFind h found update = some l) : l.Ascending h.address := by
  unfold afterFind at hafter
  cases update with
  | put key value =>
    dsimp only at hafter
    split at hafter
    · simp only [Option.bind_eq_bind, Option.bind_eq_some_iff] at hafter
      obtain ⟨existing, -, heq⟩ := hafter
      cases heq
      trivial
    · cases hafter
      trivial
  | delete key =>
    dsimp only at hafter
    split at hafter
    · cases hafter
      trivial
    · split at hafter <;> cases hafter
      · trivial
      · -- `LockNodes` sorts by address
        exact pairwise_lockTargets _

/-- The search takes no mutex. -/
theorem findFrom_ascending {update : Update K V} {found : FindResult} {p : NodeId} {level : Nat}
    (hfind : findFrom h update found p level = some l) : l.Ascending h.address := by
  cases level with
  | zero => exact afterFind_ascending hfind
  | succ level =>
    cases hfind
    trivial

theorem Insertion.raise_ascending (i : Insertion K V) (held : List NodeId) (observed : Nat) :
    (i.raise held observed).Ascending address := by
  unfold Insertion.raise
  split <;> trivial

theorem Next.start_ascending (next : Next K V) : next.start.Ascending address := by
  cases next <;> trivial

/-! ## Steps -/

/-- `Put` on a key that is found takes the mutex of one node. -/
theorem AssignStep.orderly {key : K} {value : V} {existing : NodeId} {step : AssignStep}
    (hstep : step.step s t key value existing = some (s', l')) :
    Orderly t s (.assign key value existing step) s' l' := by
  cases step with
  | lock =>
    simp only [AssignStep.step, Option.bind_eq_bind, Option.bind_eq_some_iff] at hstep
    obtain ⟨s₁, hlock, heq⟩ := hstep
    cases heq
    obtain ⟨-, rfl⟩ := Shared.lock_eq_some.mp hlock
    exact .of_eq id rfl rfl rfl rfl id
  | store =>
    cases hstep
    exact .of_eq id rfl rfl rfl rfl id
  | marked | fullyLinked =>
    simp only [AssignStep.step] at hstep
    split at hstep <;> cases hstep <;> exact .of_eq id rfl rfl rfl rfl id

/-- `Put`: one node is created, and `ownership_mutex_` is taken while all others are held. -/
theorem InsertStep.orderly {i : Insertion K V} {held : List NodeId} {step : InsertStep}
    (hstep : step.step s t choice i held = some (s', l')) :
    Orderly t s (.insert i held step) s' l' := by
  cases step with
  | predecessorMarked level | successorMarked level | forward level =>
    obtain ⟨rfl, hchecked⟩ := step_check rfl hstep
    exact .of_eq (fun _ => by cases hchecked <;> trivial) rfl rfl rfl rfl id
  | create =>
    simp only [InsertStep.step] at hstep
    split at hstep
    · rename_i node
      split at hstep <;> cases hstep
      -- the only step that allocates
      refine ⟨id, rfl, rfl, ⟨node, fun n hn => ?_⟩, .inl ⟨rfl, False.elim⟩⟩
      by_cases heq : n = node
      · exact .inr heq
      · exact .inl (by simpa [Heap.create, Function.update_of_ne heq] using hn)
    · cases hstep
  | lockOwnership node =>
    simp only [InsertStep.step] at hstep
    split at hstep <;> cases hstep
    -- nobody held it
    exact ⟨id, rfl, rfl, ⟨head, fun n hn => .inl hn⟩, .inr (.inr ⟨rfl, trivial⟩)⟩
  | pushOwned node =>
    cases hstep
    exact ⟨id, rfl, rfl, ⟨head, fun n hn => .inl hn⟩, .inl ⟨rfl, id⟩⟩
  | unlockOwnership node =>
    cases hstep
    exact ⟨id, rfl, rfl, ⟨head, fun n hn => .inl hn⟩, .inr (.inl rfl)⟩
  | link node level =>
    simp only [InsertStep.step, Option.bind_eq_bind, Option.bind_eq_some_iff] at hstep
    obtain ⟨p, -, heq⟩ := hstep
    cases heq
    exact .of_eq id rfl rfl rfl rfl id
  | loadLevel =>
    cases hstep
    exact .of_eq (fun _ => i.raise_ascending ..) rfl rfl rfl rfl id
  | raiseLevel observed =>
    simp only [InsertStep.step] at hstep
    split at hstep
    · cases hstep
      exact .of_eq (fun _ => i.raise_ascending ..) rfl rfl rfl rfl id
    · split at hstep <;> cases hstep
      · exact .of_eq id rfl rfl rfl rfl id
      · exact .of_eq (fun _ => i.raise_ascending ..) rfl rfl rfl rfl id
  | initForward node level | storeFullyLinked node | addSize node =>
    cases hstep
    exact .of_eq id rfl rfl rfl rfl id

variable [LinearOrder K]

/-- `Delete` creates nothing, and takes no mutex behind `LockNodes`. -/
theorem RemoveStep.orderly {d : Removal K} {held : List NodeId} {step : RemoveStep}
    (hstep : step.step s d held = some (s', l')) : Orderly t s (.remove d held step) s' l' := by
  by_cases hcheck : step.isCheck = true
  · obtain ⟨rfl, hchecked⟩ := step_check hcheck hstep
    exact .of_eq (fun _ => by cases hchecked <;> trivial) rfl rfl rfl rfl id
  cases step with
  | unlink level next =>
    simp only [RemoveStep.step, Option.bind_eq_bind, Option.bind_eq_some_iff] at hstep
    obtain ⟨p, -, heq⟩ := hstep
    cases heq
    exact .of_eq id rfl rfl rfl rfl id
  | headForward level =>
    simp only [RemoveStep.step] at hstep
    split at hstep <;> cases hstep <;> exact .of_eq id rfl rfl rfl rfl id
  | storeMarked | loadNext level | subSize | storeLevel level =>
    cases hstep
    exact .of_eq id rfl rfl rfl rfl id
  | _ => exact absurd rfl hcheck

theorem Reader.visit_ascending (reader : Reader K V) (current : Option NodeId) :
    (reader.visit h current).Ascending address := by
  unfold Reader.visit
  cases reader <;> cases current <;> dsimp only <;> (try split) <;> trivial

/-- `Get` and `Scan` do not call `LockNodes`. -/
theorem ReadStep.ascending {reader : Reader K V} {step : ReadStep}
    (hstep : step.step s t reader = some (s', l')) : l'.Ascending address := by
  -- a reader holds at most one lock
  cases step with
  | loadLevel =>
    cases hstep
    cases hlevel : s.currentLevel <;> exact trivial
  | candidate predecessor | next node =>
    cases hstep
    exact reader.visit_ascending _
  | lock node =>
    simp only [ReadStep.step, Option.bind_eq_bind, Option.bind_eq_some_iff] at hstep
    obtain ⟨s₁, -, heq⟩ := hstep
    cases heq
    trivial
  | walk level predecessor =>
    simp only [ReadStep.step] at hstep
    split at hstep <;> cases hstep
    · trivial
    · cases level <;> exact trivial
  | marked node =>
    simp only [ReadStep.step] at hstep
    split at hstep <;> cases hstep
    · exact Next.start_ascending _
    · trivial
  | fullyLinked node =>
    simp only [ReadStep.step] at hstep
    split at hstep <;> cases hstep
    · trivial
    · exact Next.start_ascending _
  | markedLocked node | fullyLinkedLocked node =>
    simp only [ReadStep.step] at hstep
    split at hstep <;> cases hstep <;> trivial
  | value node =>
    cases hstep
    trivial

/-- A step of a thread that does not write leaves the mutexes in order. -/
theorem Local.ascending_of_not_writes (hwrites : ¬ l.Writes) (hl : l.Ascending s.heap.address)
    (hstep : l.step s t choice = some (s', l')) : l'.Ascending s.heap.address := by
  cases l with
  | idle =>
    simp only [Local.step] at hstep
    split at hstep <;> cases hstep
    rename_i call
    cases call with
    | scan start stop =>
      rw [Call.start]
      split <;> trivial
    | _ => trivial
  | loadLevel update =>
    simp only [Local.step, Option.bind_eq_bind, Option.bind_eq_some_iff] at hstep
    obtain ⟨l'', hfind, heq⟩ := hstep
    cases heq
    exact findFrom_ascending hfind
  | find update level predecessor found =>
    simp only [Local.step, findStep, Option.bind_eq_bind, Option.bind_eq_some_iff] at hstep
    obtain ⟨l'', hfind, heq⟩ := hstep
    cases heq
    split at hfind
    · cases hfind
      trivial
    · exact findFrom_ascending hfind
  | randomLevel key value found =>
    simp only [Local.step] at hstep
    split at hstep
    · split at hstep <;> cases hstep
      -- `LockNodes` sorts what it is given
      exact pairwise_lockTargets _
    · cases hstep
  | lockNodes plan held rest =>
    simp only [Local.step] at hstep
    split at hstep
    · -- the mutex goes from those that are left to those that are held
      simp only [Option.bind_eq_bind, Option.bind_eq_some_iff] at hstep
      obtain ⟨s₁, -, heq⟩ := hstep
      cases heq
      simpa [Ascending] using hl
    · split at hstep <;> cases hstep <;> trivial
  | read reader step => exact ReadStep.ascending hstep
  | unlock held next =>
    simp only [Local.step] at hstep
    split at hstep <;> cases hstep
    · trivial
    · exact next.start_ascending
  | returning call answer =>
    cases hstep
    trivial
  | _ => exact absurd trivial hwrites

/-- Every step keeps the order of the mutexes, and creates at most one node. -/
theorem Local.orderly (hstep : l.step s t choice = some (s', l')) : Orderly t s l s' l' := by
  cases l with
  | assign key value existing step => exact AssignStep.orderly hstep
  | insert i held step => exact InsertStep.orderly hstep
  | remove d held step => exact RemoveStep.orderly hstep
  | _ =>
    obtain ⟨holder, rfl⟩ := Local.step_shared id hstep
    have hascending (hl : Ascending s.heap.address _) : l'.Ascending s.heap.address :=
      ascending_of_not_writes id hl hstep
    exact .of_eq hascending rfl rfl rfl rfl id

/-! ## What stops a thread -/

/-- What `FindNode` has found can be dereferenced. -/
theorem afterFind_isSome {update : Update K V} {found : FindResult}
    (hsearched : h.Searched update.key found 0) : (afterFind h found update).isSome := by
  unfold afterFind
  cases update with
  | put key value =>
    dsimp only
    split
    · -- the level at which the key has been found has a successor
      rename_i level hlevel
      obtain ⟨-, existing, hexisting, -⟩ := hsearched.present level hlevel
      simp [hexisting]
    · rfl
  | delete key =>
    dsimp only
    split
    · rfl
    · split <;> rfl

/-- A search can always go on. -/
theorem findStep_isSome (hsound : h.Sound) {update : Update K V} {found : FindResult}
    {p : NodeId} {level : Nat} (hp : h.Reached level p update.key)
    (hsearched : h.Searched update.key found (level + 1)) :
    (findStep h update level p found (h.loadForward p level)).isSome := by
  unfold findStep
  split
  · rfl
  · rename_i hstop
    cases level with
    | zero => exact afterFind_isSome (hsound.searched_level hsearched hp hstop)
    | succ level => rfl

omit [LinearOrder K] in
/-- A mutex that is free can be taken. -/
theorem Shared.lock_isSome {p : NodeId} (hfree : s.holder p = none) : (s.lock t p).isSome := by
  simp [Shared.lock, hfree]

/-- `Put` can go on if the mutex it wants is free: a predecessor has been found on every level. -/
theorem InsertStep.enabled {i : Insertion K V} {held : List NodeId} {step : InsertStep}
    (hl : (Local.insert i held step).Asserts t s) (hfree : ∃ p, s.heap.allocated p = false)
    (hwants : ∀ m, (Local.insert i held step).wants = some m → s.holderOf m = none) :
    ∃ choice, (step.step s t choice i held).isSome := by
  obtain ⟨⟨hsearched, -⟩, -⟩ := hl.facts
  cases step with
  | predecessorMarked level | successorMarked level =>
    refine ⟨.go, ?_⟩
    simp only [InsertStep.step]
    split
    · rfl
    · split <;> rfl
  | forward level =>
    -- there is a predecessor on every level
    obtain ⟨p, hp, -⟩ := hsearched.predecessor level (Nat.zero_le level)
    refine ⟨.go, ?_⟩
    simp only [InsertStep.step, hp, Option.bind_eq_bind, Option.bind_some]
    split
    · rfl
    · split <;> rfl
  | create =>
    -- there is memory for a new node
    obtain ⟨p, hp⟩ := hfree
    exact ⟨.address p, by simp [InsertStep.step, hp]⟩
  | lockOwnership node =>
    have hnone : s.ownership = none := hwants .ownership rfl
    exact ⟨.go, by simp [InsertStep.step, hnone]⟩
  | link node level =>
    obtain ⟨p, hp, -⟩ := hsearched.predecessor level (Nat.zero_le level)
    exact ⟨.go, by simp [InsertStep.step, hp]⟩
  -- the exchange may fail at any time
  | raiseLevel observed => exact ⟨.spurious, rfl⟩
  | _ => exact ⟨.go, rfl⟩

/-- `Delete` can always go on behind `LockNodes`. -/
theorem RemoveStep.enabled {d : Removal K} {held : List NodeId} {step : RemoveStep}
    (hl : (Local.remove (V := V) d held step).Asserts t s) : (step.step s d held).isSome := by
  obtain ⟨⟨hsearched, -⟩, -⟩ := hl.facts
  cases step with
  | fullyLinked =>
    simp only [RemoveStep.step]
    split <;> rfl
  | marked =>
    simp only [RemoveStep.step]
    split
    · rfl
    · split <;> rfl
  | predecessorMarked level =>
    simp only [RemoveStep.step]
    split
    · rfl
    · split <;> rfl
  | forward level =>
    -- there is a predecessor at every level of the victim
    obtain ⟨p, hp, -⟩ := hsearched.predecessor level (Nat.zero_le level)
    simp only [RemoveStep.step, hp, Option.bind_eq_bind, Option.bind_some]
    split
    · rfl
    · split <;> rfl
  | unlink level next =>
    obtain ⟨p, hp, -⟩ := hsearched.predecessor level (Nat.zero_le level)
    simp [RemoveStep.step, hp]
  | headForward level =>
    simp only [RemoveStep.step]
    split <;> rfl
  | _ => rfl

/-- `Get` and `Scan` can go on if the mutex they want is free. -/
theorem ReadStep.enabled {reader : Reader K V} {step : ReadStep}
    (hwants : ∀ m, (Local.read reader step).wants = some m → s.holderOf m = none) :
    (step.step s t reader).isSome := by
  cases step with
  | lock node =>
    obtain ⟨s', hlock⟩ := Option.isSome_iff_exists.mp
      (Shared.lock_isSome (t := t) (hwants (.node node) rfl))
    simp [ReadStep.step, hlock]
  | walk level predecessor | marked node | fullyLinked node | markedLocked node
  | fullyLinkedLocked node =>
    simp only [ReadStep.step]
    split <;> rfl
  | _ => rfl

/-- A call makes its next step unless it waits for a mutex. -/
theorem Local.Asserts.enabled (hl : l.Asserts t s) (hsound : s.heap.Sound)
    (hlevels : 0 < s.maxLevel) (hfree : ∃ p, s.heap.allocated p = false) (hbusy : l ≠ .idle)
    (hwants : ∀ m, l.wants = some m → s.holderOf m = none) :
    ∃ choice, (l.step s t choice).isSome := by
  -- a mutex that is wanted is free
  have hlock : ∀ {p}, l.wants = some (.node p) → ∃ s', s.lock t p = some s' :=
    fun h => Option.isSome_iff_exists.mp (Shared.lock_isSome (hwants _ h))
  cases l with
  | idle => exact absurd rfl hbusy
  | loadLevel update =>
    -- without an active level the vectors hold the head
    have hfind : (findFrom s.heap update (aboveActive s.currentLevel) head
        s.currentLevel).isSome := by
      cases hlevel : s.currentLevel with
      | zero => exact afterFind_isSome (hsound.searched_above 0 update.key)
      | succ level => rfl
    obtain ⟨l', hl'⟩ := Option.isSome_iff_exists.mp hfind
    exact ⟨.go, by simp [Local.step, hl']⟩
  | find update level predecessor found =>
    obtain ⟨hp, hsearched⟩ := hl.facts
    obtain ⟨l', hl'⟩ := Option.isSome_iff_exists.mp (findStep_isSome hsound hp hsearched)
    exact ⟨.go, by simp [Local.step, hl']⟩
  | assign key value existing step =>
    refine ⟨.go, ?_⟩
    cases step with
    | lock =>
      obtain ⟨s', hs'⟩ := hlock rfl
      simp [Local.step, AssignStep.step, hs']
    | store => rfl
    | marked | fullyLinked =>
      simp only [Local.step, AssignStep.step]
      split <;> rfl
  | randomLevel key value found => exact ⟨.level 0, by simp [Local.step, hlevels]⟩
  | lockNodes plan held rest =>
    refine ⟨.go, ?_⟩
    cases rest with
    | nil => cases plan <;> rfl
    | cons node rest =>
      obtain ⟨s', hs'⟩ := hlock rfl
      simp [Local.step, hs']
  | insert i held step => exact InsertStep.enabled hl hfree hwants
  | remove d held step => exact ⟨.go, RemoveStep.enabled hl⟩
  | read reader step => exact ⟨.go, ReadStep.enabled hwants⟩
  | unlock held next => exact ⟨.go, by cases held <;> rfl⟩
  | returning call answer => exact ⟨.go, rfl⟩

end

namespace State

variable [LinearOrder K] [DecidableEq T] {s s' : State K V T} {label : T × Choice K V}
  {maxLevel : Nat} {address : NodeId ↪ Nat}

/-- The mutexes are taken in order, and there is memory for more nodes. -/
structure Ordered (s : State K V T) : Prop where
  ascending : ∀ t, (s.thread t).Ascending s.shared.heap.address
  owns : ∀ t, s.shared.ownership = some t → (s.thread t).owns
  levels : 0 < s.shared.maxLevel
  allocated : {p | s.shared.heap.allocated p = true}.Finite
  locked : {p | s.shared.holder p ≠ none}.Finite

omit [LinearOrder K] [DecidableEq T] in
/-- At the start no mutex is taken, and only the head is there. -/
theorem ordered_new [Inhabited K] [Inhabited V] (maxLevel : Nat) (address : NodeId ↪ Nat) :
    (new maxLevel address : State K V T).Ordered where
  ascending t := trivial
  owns t ht := by cases ht
  levels := by
    change 0 < if maxLevel = 0 then 1 else maxLevel
    split <;> omega
  allocated := (Set.finite_singleton head).subset fun p hp => of_decide_eq_true hp
  locked := Set.finite_empty.subset fun p hp => absurd rfl hp

/-- A step of any thread keeps the order. -/
theorem Ordered.step (hordered : s.Ordered) (houtline : outline.Holds s.shared s.thread)
    (hstep : Step s label s') : s'.Ordered := by
  obtain ⟨shared, pc, hlocal, rfl⟩ := step_iff.mp hstep
  have houtcome := (houtline.asserts label.1).outcome houtline.inv hlocal
  have horderly := Local.orderly hlocal
  refine
    { ascending := fun t => ?_
      owns := fun t ht => ?_
      levels := horderly.maxLevel ▸ hordered.levels
      allocated := ?_
      locked := ?_ }
  · by_cases heq : t = label.1
    · subst heq
      dsimp only
      rw [Function.update_self]
      exact horderly.ascending (hordered.ascending _)
    · dsimp only
      rw [Function.update_of_ne heq, horderly.address]
      exact hordered.ascending t
  · dsimp only at ht ⊢
    rcases horderly.ownership with ⟨hsame, howns⟩ | hnone | ⟨hself, howns⟩
    · have hold := hordered.owns t (hsame ▸ ht)
      by_cases heq : t = label.1
      · subst heq
        rw [Function.update_self]
        exact howns hold
      · rwa [Function.update_of_ne heq]
    · rw [hnone] at ht
      cases ht
    · obtain rfl : label.1 = t := Option.some.inj (hself.symm.trans ht)
      rwa [Function.update_self]
  · -- at most one more node
    obtain ⟨p, hp⟩ := horderly.allocated
    exact (hordered.allocated.union (Set.finite_singleton p)).subset fun n hn => hp n hn
  · -- at most the mutexes that the thread holds now
    refine (hordered.locked.union pc.held.finite_toSet).subset fun n hn => ?_
    obtain ⟨u, hu⟩ := Option.ne_none_iff_exists'.mp hn
    rcases houtcome.holder' u n hu with ⟨hold, -⟩ | ⟨-, hmem⟩
    · exact .inl (by simp [hold])
    · exact .inr hmem

/-- The order holds after every run. -/
theorem ordered_of_run [Inhabited K] [Inhabited V] {ok : State K V T → T × Choice K V → Prop}
    (h : Run Step ok (new maxLevel address) s) : s.Ordered := by
  induction h with
  | refl => exact ordered_new maxLevel address
  | tail label run _ hstep ih => exact ih.step (outline_of_run run) hstep

/-- The next step of the thread `t` locks a mutex that the thread `u` holds. -/
def WaitsFor (s : State K V T) (t u : T) : Prop :=
  ∃ m, (s.thread t).wants = some m ∧ s.shared.holderOf m = some u

/-- The thread `t` can make a step. -/
def Enabled (s : State K V T) (t : T) : Prop :=
  ∃ choice s', Step s (t, choice) s'

omit [LinearOrder K] [DecidableEq T] in
/-- A thread wants only mutexes that lie behind those that it holds. -/
theorem Ordered.lt_of_wants (hordered : s.Ordered) {t : T} {p q : NodeId}
    (hp : p ∈ (s.thread t).held) (hq : (s.thread t).wants = some (.node q)) :
    s.shared.heap.address p < s.shared.heap.address q := by
  have hascending := hordered.ascending t
  -- only `LockNodes` waits for a node while it holds others
  cases hl : s.thread t with
  | assign key value existing step =>
    rw [hl] at hp hq
    cases step with
    | lock => cases hp
    | _ => cases hq
  | lockNodes plan held rest =>
    rw [hl] at hp hq hascending
    cases rest with
    | nil => cases hq
    | cons node rest =>
      cases hq
      exact (List.pairwise_append.mp hascending).2.2 p hp _ List.mem_cons_self
  | insert i held step =>
    rw [hl] at hq
    cases step <;> cases hq
  | read reader step =>
    rw [hl] at hp hq
    cases step with
    | lock node => cases hp
    | _ => cases hq
  | _ =>
    rw [hl] at hq
    cases hq

omit [LinearOrder K] [DecidableEq T] in
/-- Who holds a mutex that another thread waits for is on the way to a later one. -/
theorem Ordered.rank_lt (hordered : s.Ordered) (hcovered : s.Covered) {bound : Nat}
    (hbound : ∀ p, s.shared.holder p ≠ none → s.shared.heap.address p ≤ bound) {t u : T}
    (hwaits : s.WaitsFor t u) :
    Mutex.rank s.shared.heap.address bound (s.thread u).wants <
      Mutex.rank s.shared.heap.address bound (s.thread t).wants := by
  obtain ⟨m, hm, hholder⟩ := hwaits
  rw [hm]
  cases m with
  | ownership =>
    -- who holds `ownership_mutex_` waits for nothing
    have howns := hordered.owns u hholder
    have hnone : (s.thread u).wants = none := by
      cases hl : s.thread u with
      | insert i held step =>
        rw [hl] at howns
        cases step with
        | pushOwned node => rfl
        | unlockOwnership node => rfl
        | _ => exact howns.elim
      | _ =>
        rw [hl] at howns
        exact howns.elim
    rw [hnone]
    exact Nat.zero_lt_one
  | node p =>
    have hp : s.shared.holder p = some u := hholder
    have hle := hbound p (by simp [hp])
    -- who holds the mutex of a node waits for one of a larger address, or for `ownership_mutex_`
    cases hu : (s.thread u).wants with
    | none => exact Nat.zero_lt_of_lt (Mutex.one_lt_rank hle)
    | some m =>
      cases m with
      | ownership => exact Mutex.one_lt_rank hle
      | node q => exact Mutex.rank_lt_rank hle (hordered.lt_of_wants (hcovered.held p u hp) hu)

/-- From every thread with a call in flight, the chain of threads that wait for each other
    ends with one that has a call in flight and can make its step: in no reachable state
    are calls stuck, neither in a deadlock nor at a null pointer. -/
theorem never_stuck [Inhabited K] [Inhabited V] {ok : State K V T → T × Choice K V → Prop}
    (hrun : Run Step ok (new maxLevel address) s) (t : T) (hbusy : s.thread t ≠ .idle) :
    ∃ u, Relation.ReflTransGen s.WaitsFor t u ∧ s.thread u ≠ .idle ∧ s.Enabled u := by
  have houtline := outline_of_run hrun
  have hcovered := covered_of_run hrun
  have hordered := ordered_of_run hrun
  obtain ⟨bound, hbound⟩ := (hordered.locked.image s.shared.heap.address).bddAbove
  -- the thread of the chain that is the furthest
  obtain ⟨u, hu, hlast⟩ :=
    (measure fun u => Mutex.rank s.shared.heap.address bound (s.thread u).wants).wf.has_min
      {u | Relation.ReflTransGen s.WaitsFor t u} ⟨t, .refl⟩
  have hwaits : ∀ v, ¬ s.WaitsFor u v := fun v hv =>
    hlast v (hu.tail hv) (hordered.rank_lt hcovered
      (fun p hp => hbound (Set.mem_image_of_mem _ hp)) hv)
  -- who holds a mutex has a call in flight
  have hbusy' : s.thread u ≠ .idle := by
    rcases hu.cases_tail with rfl | ⟨v, -, m, -, hholder⟩
    · exact hbusy
    · intro hidle
      cases m with
      | node p => simpa [hidle, Local.held] using hcovered.held p u hholder
      | ownership => simpa [hidle, Local.owns] using hordered.owns u hholder
  refine ⟨u, hu, hbusy', ?_⟩
  obtain ⟨choice, hchoice⟩ := (houtline.asserts u).enabled houtline.inv hordered.levels
    (by simpa using hordered.allocated.exists_notMem) hbusy' fun m hm => by
      cases hholder : s.shared.holderOf m with
      | none => rfl
      | some v => exact absurd ⟨m, hm, hholder⟩ (hwaits v)
  obtain ⟨⟨shared, pc⟩, hlocal⟩ := Option.isSome_iff_exists.mp hchoice
  exact ⟨choice, _, step_iff.mpr ⟨shared, pc, hlocal, rfl⟩⟩

/-- Two calls of `Put` on an empty list, one of which has locked the head. -/
theorem never_stuck_two_puts :
    ∃ s : State Nat Nat Bool, s.shared.holder head = some true ∧
      ∃ u, Relation.ReflTransGen s.WaitsFor false u ∧ s.thread u ≠ .idle ∧ s.Enabled u := by
  obtain ⟨s, hrun, hs⟩ := Run.exists_of_any
    (show Option.any (fun s : State Nat Nat Bool =>
        s.shared.holder head = some true ∧ (s.thread false).isIdle = false)
      (List.foldlM (fun s label => if True then s.step label.1 label.2 else none) (new 4 (.refl _))
        ((putSteps true 10 1 7).take 5 ++ (putSteps false 5 2 8).take 4)) = true
      by decide +kernel)
  obtain ⟨hholder, hbusy⟩ := of_decide_eq_true hs
  exact ⟨s, hholder, never_stuck hrun false fun hidle => by simp [hidle, Local.isIdle] at hbusy⟩

end State

end ConcurrentSkipList

end KvStore
