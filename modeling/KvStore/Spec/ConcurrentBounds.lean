import KvStore.Spec.ConcurrentProgress

/-!
# The entries of `forward`

A node has an entry of `forward` for each level up to its top level. The top level of the head
is the highest that there is. No step of a call loads or stores any other entry
(`Local.Within.inBounds`): a search starts at the head on the active level, comes to a node
only through an entry of the same level, and goes down from there. So `FindNode` finds for each
level a predecessor that has an entry for it, and `Put` and `Delete` use no level above those
of their node.
-/

namespace KvStore

namespace ConcurrentSkipList

open SkipList (head)
open Heap

variable {K V T : Type}

/-- The node has been created, and has an entry of `forward` for the level. -/
structure Heap.HasEntry (h : Heap K V) (p : NodeId) (level : Nat) : Prop where
  allocated : h.allocated p = true
  le : level ≤ (h.node p).topLevel

/-- No node is higher than `max_level_` allows, the head is as high, and so is no active
    level. -/
structure Shared.Heights (s : Shared K V T) : Prop where
  head : (s.heap.node head).topLevel + 1 = s.maxLevel
  topLevel : ∀ {n}, s.heap.allocated n = true → (s.heap.node n).topLevel < s.maxLevel
  currentLevel : s.currentLevel ≤ s.maxLevel

/-- The predecessors have entries for the levels at which they have been found. -/
def Shared.Fits (s : Shared K V T) (found : FindResult) : Prop :=
  ∀ level p, level < s.maxLevel → found.predecessors level = some p → s.heap.HasEntry p level

def Plan.Within (s : Shared K V T) : Plan K V → Prop
  | insert i => s.Fits i.found ∧ i.nodeLevel < s.maxLevel
  | remove d => s.Fits d.found

/-- The scan of `RecomputeCurrentLevel` starts at the highest level. -/
def RemoveStep.Within (maxLevel : Nat) : RemoveStep → Prop
  | headForward level => level ≤ maxLevel
  | storeLevel level => level ≤ maxLevel
  | _ => True

namespace Local

/-- What the call has found and drawn is within the bounds of `forward`. -/
def Within (s : Shared K V T) : Local K V → Prop
  | find _ level predecessor found => s.heap.HasEntry predecessor level ∧ s.Fits found
  | randomLevel _ _ found => s.Fits found
  | lockNodes plan _ _ => plan.Within s
  | insert i _ _ => (Plan.insert i).Within s
  | remove d _ step => s.Fits d.found ∧ step.Within s.maxLevel
  | read _ (.walk level predecessor) => s.heap.HasEntry predecessor level
  | _ => True

/-- The node and the level of the entry of `forward` that the next step loads or stores. -/
def entry : Local K V → Option (NodeId × Nat)
  | find _ level predecessor _ => some (predecessor, level)
  | insert i _ (.forward level) => (i.found.predecessors level).map (·, level)
  | insert _ _ (.initForward node level) => some (node, level)
  | insert i _ (.link _ level) => (i.found.predecessors level).map (·, level)
  | remove d _ (.forward level) => (d.found.predecessors level).map (·, level)
  | remove d _ (.loadNext level) => some (d.victim, level)
  | remove d _ (.unlink level _) => (d.found.predecessors level).map (·, level)
  | remove _ _ (.headForward level) => some (head, level - 1)
  | read _ (.walk level predecessor) => some (predecessor, level)
  | read _ (.candidate predecessor) => some (predecessor, 0)
  | read _ (.next node) => some (node, 0)
  | _ => none

/-- The node has the entry of `forward` that the next step loads or stores. -/
def InBounds (s : Shared K V T) (l : Local K V) : Prop :=
  ∀ p level, l.entry = some (p, level) → level ≤ (s.heap.node p).topLevel

end Local

section

variable {s s' : Shared K V T} {t : T} {l l' : Local K V} {choice : Choice K V}
  {found : FindResult} {p n : NodeId} {level : Nat}

theorem Heap.HasEntry.mono {h : Heap K V} {level' : Nat} (hp : h.HasEntry p level)
    (hlevel : level' ≤ level) : h.HasEntry p level' :=
  ⟨hp.allocated, hlevel.trans hp.le⟩

/-! ## Steps keep what has been found -/

/-- No step takes an entry from a node. -/
theorem Heap.HasEntry.move {h h' : Heap K V} {mine : NodeId → Prop} {own : Option NodeId}
    (hmoves : Moves mine own h h') (hp : h.HasEntry p level) : h'.HasEntry p level where
  allocated := hmoves.allocated hp.allocated
  le := by
    rw [hmoves.topLevel hp.allocated]
    exact hp.le

/-- Predecessors that have been found keep their entries. -/
theorem Shared.Fits.move {mine : NodeId → Prop} {own : Option NodeId}
    (hmoves : Moves mine own s.heap s'.heap) (hmax : s'.maxLevel = s.maxLevel)
    (hfound : s.Fits found) : s'.Fits found :=
  fun level p hlevel hp => (hfound level p (hmax ▸ hlevel) hp).move hmoves

/-- A step of any thread keeps what a call has found. -/
theorem Local.Within.move {mine : NodeId → Prop} {own : Option NodeId}
    (hmoves : Moves mine own s.heap s'.heap) (hmax : s'.maxLevel = s.maxLevel)
    (hl : l.Within s) : l.Within s' := by
  have hinsert {i : Insertion K V} (hi : (Plan.insert i).Within s) : (Plan.insert i).Within s' :=
    ⟨hi.1.move hmoves hmax, hmax ▸ hi.2⟩
  cases l with
  | find update level predecessor found => exact ⟨hl.1.move hmoves, hl.2.move hmoves hmax⟩
  | randomLevel key value found => exact Shared.Fits.move hmoves hmax hl
  | lockNodes plan held rest =>
    cases plan with
    | insert i => exact hinsert hl
    | remove d => exact Shared.Fits.move hmoves hmax hl
  | insert i held step => exact hinsert hl
  | remove d held step => exact ⟨hl.1.move hmoves hmax, hmax ▸ hl.2⟩
  | read reader step =>
    cases step with
    | walk level predecessor => exact HasEntry.move hmoves hl
    | _ => trivial
  | _ => trivial

/-! ## The search -/

/-- The head has an entry for every level. -/
theorem Shared.Heights.hasEntry_head (hheights : s.Heights)
    (halloc : s.heap.allocated SkipList.head = true) (hlevel : level < s.maxLevel) :
    s.heap.HasEntry SkipList.head level :=
  ⟨halloc, by have := hheights.head; omega⟩

/-- Above the active levels the predecessor is the head. -/
theorem Shared.Heights.fits_aboveActive (hheights : s.Heights)
    (halloc : s.heap.allocated SkipList.head = true) (activeLevels : Nat) :
    s.Fits (aboveActive activeLevels) := by
  intro level p hlevel hp
  simp only [aboveActive] at hp
  split at hp
  · cases hp
  · exact Option.some.inj hp ▸ hheights.hasEntry_head halloc hlevel

/-- What follows `FindNode` has its vectors. -/
theorem afterFind_within {update : Update K V} (hfound : s.Fits found)
    (hafter : afterFind s.heap found update = some l) : l.Within s := by
  unfold afterFind at hafter
  -- what comes next keeps the levels of the search
  cases update with
  | put key value =>
    dsimp only at hafter
    split at hafter
    · simp only [Option.bind_eq_bind, Option.bind_eq_some_iff] at hafter
      obtain ⟨existing, -, heq⟩ := hafter
      cases heq
      trivial
    · cases hafter
      exact hfound
  | delete key =>
    dsimp only at hafter
    split at hafter
    · cases hafter
      trivial
    · split at hafter <;> cases hafter
      · trivial
      · exact hfound

/-- The search goes down with a node that has an entry for the level it comes from. -/
theorem findFrom_within {update : Update K V} (hfound : s.Fits found)
    (hp : ∀ below, level = below + 1 → s.heap.HasEntry p below)
    (hfind : findFrom s.heap update found p level = some l) : l.Within s := by
  cases level with
  | zero => exact afterFind_within hfound hfind
  | succ level =>
    cases hfind
    exact ⟨hp level rfl, hfound⟩

variable [LinearOrder K]

/-- An entry leads to a node that has an entry for the same level. -/
theorem Heap.Sound.hasEntry_next {h : Heap K V} (hsound : h.Sound) {q : NodeId}
    (hp : h.HasEntry p level) (hload : h.loadForward p level = some q) : h.HasEntry q level :=
  have hleads := hsound.leads hp.allocated hload
  ⟨hleads.allocated, hleads.topLevel⟩

/-- Above the levels that there are, the head points nowhere. -/
theorem Shared.Heights.loadForward_head (hheights : s.Heights) (hsound : s.heap.Sound)
    (hlevel : s.maxLevel ≤ level) : s.heap.loadForward SkipList.head level = none := by
  cases hload : s.heap.loadForward SkipList.head level with
  | none => rfl
  | some m =>
    have hleads := hsound.leads hsound.head hload
    have hheight := hheights.topLevel hleads.allocated
    have hle := hleads.topLevel
    omega

/-- One more level of `FindNode`, or one more node on it. -/
theorem findStep_within (hsound : s.heap.Sound) {update : Update K V}
    (hp : s.heap.HasEntry p level) (hfound : s.Fits found)
    (hfind : findStep s.heap update level p found (s.heap.loadForward p level) = some l) :
    l.Within s := by
  unfold findStep at hfind
  split at hfind
  · rename_i node hpasses
    cases hfind
    exact ⟨hsound.hasEntry_next hp (passes_eq_some.mp hpasses).1, hfound⟩
  · refine findFrom_within ?_ (fun below heq => hp.mono (by omega)) hfind
    -- `p` is the predecessor of the level that is done
    intro level' p' hlevel' hp'
    simp only [Function.update_apply] at hp'
    split at hp'
    · rename_i heq
      exact heq ▸ Option.some.inj hp' ▸ hp
    · exact hfound level' p' hlevel' hp'

omit [LinearOrder K] in
theorem Reader.walkFrom_within {reader : Reader K V}
    (hp : ∀ below, level = below + 1 → s.heap.HasEntry p below) :
    (reader.walkFrom p level).Within s := by
  cases level with
  | zero => trivial
  | succ level => exact hp level rfl

theorem Reader.visit_within (reader : Reader K V) (current : Option NodeId) :
    (reader.visit s.heap current).Within s := by
  unfold Reader.visit
  cases reader <;> cases current <;> dsimp only <;> (try split) <;> trivial

omit [LinearOrder K] in
theorem Next.start_within (next : Next K V) : next.start.Within s := by
  cases next <;> trivial

/-- `Get` and `Scan` go from the head to nodes that are high enough. -/
theorem ReadStep.within (hsound : s.heap.Sound) (hheights : s.Heights) {reader : Reader K V}
    {step : ReadStep} (hl : (Local.read reader step).Within s)
    (hstep : step.step s t reader = some (s', l')) : l'.Within s := by
  cases step with
  | loadLevel =>
    cases hstep
    -- the active level is one that the head has
    refine Reader.walkFrom_within fun below heq => hheights.hasEntry_head hsound.head ?_
    have := hheights.currentLevel
    omega
  | walk level predecessor =>
    simp only [ReadStep.step] at hstep
    split at hstep <;> cases hstep
    · -- the next node is as high as the entry that leads to it
      rename_i node hpasses
      exact hsound.hasEntry_next hl (passes_eq_some.mp hpasses).1
    · exact Reader.walkFrom_within fun below heq => HasEntry.mono hl (by omega)
  | candidate predecessor | next node =>
    cases hstep
    exact reader.visit_within _
  | lock node =>
    simp only [ReadStep.step, Option.bind_eq_bind, Option.bind_eq_some_iff] at hstep
    obtain ⟨s₁, -, heq⟩ := hstep
    cases heq
    trivial
  | marked node | fullyLinked node =>
    simp only [ReadStep.step] at hstep
    split at hstep <;> cases hstep <;> first | trivial | exact Next.start_within _
  | markedLocked node | fullyLinkedLocked node =>
    simp only [ReadStep.step] at hstep
    split at hstep <;> cases hstep <;> trivial
  | value node =>
    cases hstep
    trivial

/-! ## All steps -/

omit [LinearOrder K] in
theorem Insertion.raise_within {i : Insertion K V} {held : List NodeId} {observed : Nat}
    (hi : (Plan.insert i).Within s) : (i.raise held observed).Within s := by
  unfold Insertion.raise
  split
  · exact hi
  · trivial

omit [LinearOrder K] in
/-- `Put` keeps the vectors and the level that it has drawn. -/
theorem InsertStep.within {i : Insertion K V} {held : List NodeId} {step : InsertStep}
    (hi : (Plan.insert i).Within s) (hstep : step.step s t choice i held = some (s', l')) :
    l'.Within s := by
  cases step with
  | predecessorMarked level | successorMarked level | forward level =>
    obtain ⟨-, hchecked⟩ := InsertStep.step_check rfl hstep
    cases hchecked with
    -- nothing is left of an attempt that is given up
    | refused => trivial
    | passed => exact hi
  | create =>
    simp only [InsertStep.step] at hstep
    split at hstep
    · split at hstep <;> cases hstep
      exact hi
    · cases hstep
  | lockOwnership node =>
    simp only [InsertStep.step] at hstep
    split at hstep <;> cases hstep
    exact hi
  | link node level =>
    simp only [InsertStep.step, Option.bind_eq_bind, Option.bind_eq_some_iff] at hstep
    obtain ⟨p, -, heq⟩ := hstep
    cases heq
    exact hi
  | loadLevel =>
    cases hstep
    exact Insertion.raise_within hi
  | raiseLevel observed =>
    simp only [InsertStep.step] at hstep
    split at hstep
    · cases hstep
      exact Insertion.raise_within hi
    · split at hstep <;> cases hstep
      · trivial
      · exact Insertion.raise_within hi
  | initForward node level | pushOwned node | unlockOwnership node | storeFullyLinked node
  | addSize node =>
    cases hstep
    exact hi

omit [LinearOrder K] in
/-- The scan of `RecomputeCurrentLevel` goes on below the highest level. -/
theorem Removal.recompute_within {d : Removal K} {held : List NodeId} (hd : s.Fits d.found)
    (hlevel : level ≤ s.maxLevel) : (d.recompute (V := V) held level).Within s := by
  unfold Removal.recompute
  split <;> exact ⟨hd, hlevel⟩

/-- `Delete` keeps the vectors, and its scan starts at the highest level. -/
theorem RemoveStep.within {d : Removal K} {held : List NodeId} {step : RemoveStep}
    (hl : (Local.remove (V := V) d held step).Within s)
    (hstep : step.step s d held = some (s', l')) : l'.Within s := by
  obtain ⟨hd, hlevel⟩ := hl
  cases step with
  | fullyLinked | marked | predecessorMarked level | forward level =>
    obtain ⟨-, hchecked⟩ := RemoveStep.step_check rfl hstep
    cases hchecked with
    | refused => trivial
    | @passed next hnext =>
      refine ⟨hd, ?_⟩
      -- the scan has not begun
      cases next <;> first | trivial | (rcases hnext with h | h <;> cases h)
  | unlink level next =>
    simp only [RemoveStep.step, Option.bind_eq_bind, Option.bind_eq_some_iff] at hstep
    obtain ⟨p, -, heq⟩ := hstep
    cases heq
    exact ⟨hd, by cases level <;> trivial⟩
  | subSize =>
    cases hstep
    exact Removal.recompute_within hd le_rfl
  | headForward level =>
    simp only [RemoveStep.step] at hstep
    split at hstep <;> cases hstep
    · exact Removal.recompute_within hd ((Nat.sub_le level 1).trans hlevel)
    · exact ⟨hd, hlevel⟩
  | storeMarked | loadNext level =>
    cases hstep
    exact ⟨hd, trivial⟩
  | storeLevel level =>
    cases hstep
    trivial

/-- What a call has found after a step was within the bounds before it: a step looks for no
    node that it creates. -/
theorem Local.Within.next (hsound : s.heap.Sound) (hheights : s.Heights) (hl : l.Within s)
    (hstep : l.step s t choice = some (s', l')) : l'.Within s := by
  cases l with
  | insert i held step => exact InsertStep.within hl hstep
  | remove d held step => exact RemoveStep.within hl hstep
  | read reader step => exact ReadStep.within hsound hheights hl hstep
  | idle =>
    simp only [Local.step] at hstep
    split at hstep <;> cases hstep
    rename_i call
    cases call with
    | scan start stop =>
      rw [Call.start]
      split <;> trivial
    | _ => trivial
  | loadLevel update =>
    simp only [Local.step, Option.bind_eq_bind, Option.bind_eq_some_iff] at hstep
    obtain ⟨l'', hfind, heq⟩ := hstep
    cases heq
    refine findFrom_within (hheights.fits_aboveActive hsound.head _) (fun below heq => ?_) hfind
    have := hheights.currentLevel
    exact hheights.hasEntry_head hsound.head (by omega)
  | find update level predecessor found =>
    simp only [Local.step, Option.bind_eq_bind, Option.bind_eq_some_iff] at hstep
    obtain ⟨l'', hfind, heq⟩ := hstep
    cases heq
    exact findStep_within hsound hl.1 hl.2 hfind
  | assign key value existing step =>
    cases step with
    | lock =>
      simp only [Local.step, AssignStep.step, Option.bind_eq_bind, Option.bind_eq_some_iff] at hstep
      obtain ⟨s₁, -, heq⟩ := hstep
      cases heq
      trivial
    | marked | fullyLinked =>
      simp only [Local.step, AssignStep.step] at hstep
      split at hstep <;> cases hstep <;> trivial
    | store =>
      cases hstep
      trivial
  | randomLevel key value found =>
    simp only [Local.step] at hstep
    split at hstep
    · -- the level that is drawn is one that there is
      split at hstep <;> cases hstep
      exact ⟨hl, ‹_›⟩
    · cases hstep
  | lockNodes plan held rest =>
    simp only [Local.step] at hstep
    split at hstep
    · simp only [Option.bind_eq_bind, Option.bind_eq_some_iff] at hstep
      obtain ⟨s₁, -, heq⟩ := hstep
      cases heq
      exact hl
    · split at hstep <;> cases hstep
      · exact hl
      · exact ⟨hl, trivial⟩
  | unlock held next =>
    simp only [Local.step] at hstep
    split at hstep <;> cases hstep
    · trivial
    · exact next.start_within
  | returning call answer =>
    cases hstep
    trivial

/-- A step creates no node that is too high, and activates no level that there is not. -/
structure Shared.Grows (s s' : Shared K V T) : Prop where
  created : ∀ n, s'.heap.allocated n = true →
    s.heap.allocated n = true ∨ (s'.heap.node n).topLevel < s.maxLevel
  currentLevel : s'.currentLevel ≤ s.maxLevel

omit [LinearOrder K] in
/-- A step that creates no node and leaves the active level as it is. -/
theorem Shared.Heights.grows (hheights : s.Heights)
    (hallocated : s'.heap.allocated = s.heap.allocated)
    (hlevel : s'.currentLevel = s.currentLevel) : s.Grows s' where
  created _ hn := .inl (hallocated ▸ hn)
  currentLevel := hlevel ▸ hheights.currentLevel

omit [LinearOrder K] in
theorem AssignStep.grows (hheights : s.Heights) {key : K} {value : V} {existing : NodeId}
    {step : AssignStep} (hstep : step.step s t key value existing = some (s', l')) :
    s.Grows s' := by
  cases step with
  | lock =>
    simp only [AssignStep.step, Option.bind_eq_bind, Option.bind_eq_some_iff] at hstep
    obtain ⟨s₁, hlock, heq⟩ := hstep
    cases heq
    obtain ⟨-, rfl⟩ := Shared.lock_eq_some.mp hlock
    exact hheights.grows rfl rfl
  | marked | fullyLinked =>
    simp only [AssignStep.step] at hstep
    split at hstep <;> cases hstep <;> exact hheights.grows rfl rfl
  | store =>
    cases hstep
    exact hheights.grows rfl rfl

omit [LinearOrder K] in
/-- `Put` creates a node of the height that has been drawn, and raises `current_level_` to it. -/
theorem InsertStep.grows (hheights : s.Heights) {i : Insertion K V} {held : List NodeId}
    {step : InsertStep} (hlevel : i.nodeLevel < s.maxLevel)
    (hstep : step.step s t choice i held = some (s', l')) : s.Grows s' := by
  cases step with
  | predecessorMarked level | successorMarked level | forward level =>
    obtain ⟨rfl, -⟩ := InsertStep.step_check rfl hstep
    exact hheights.grows rfl rfl
  | create =>
    simp only [InsertStep.step] at hstep
    split at hstep
    · split at hstep <;> cases hstep
      refine ⟨fun n hn => ?_, hheights.currentLevel⟩
      rcases (allocated_create _).mp hn with rfl | hold
      · -- the new node is as high as has been drawn
        refine .inr ?_
        rwa [node_create_self]
      · exact .inl hold
    · cases hstep
  | lockOwnership node =>
    simp only [InsertStep.step] at hstep
    split at hstep <;> cases hstep
    exact hheights.grows rfl rfl
  | link node level =>
    simp only [InsertStep.step, Option.bind_eq_bind, Option.bind_eq_some_iff] at hstep
    obtain ⟨p, -, heq⟩ := hstep
    cases heq
    exact hheights.grows rfl rfl
  | raiseLevel observed =>
    simp only [InsertStep.step] at hstep
    split at hstep
    · cases hstep
      exact hheights.grows rfl rfl
    · split at hstep <;> cases hstep
      · -- one more than the level that has been drawn
        exact ⟨fun _ => .inl, hlevel⟩
      · exact hheights.grows rfl rfl
  | initForward node level | pushOwned node | unlockOwnership node | storeFullyLinked node
  | addSize node | loadLevel =>
    cases hstep
    exact hheights.grows rfl rfl

/-- `Delete` creates nothing, and stores a level that its scan has come to. -/
theorem RemoveStep.grows (hheights : s.Heights) {d : Removal K} {held : List NodeId}
    {step : RemoveStep} (hlevel : step.Within s.maxLevel)
    (hstep : step.step s d held = some (s', l')) : s.Grows s' := by
  -- only `storeLevel` changes more than nodes that exist already
  cases step with
  | fullyLinked | marked | predecessorMarked level | forward level =>
    obtain ⟨rfl, -⟩ := RemoveStep.step_check rfl hstep
    exact hheights.grows rfl rfl
  | unlink level next =>
    simp only [RemoveStep.step, Option.bind_eq_bind, Option.bind_eq_some_iff] at hstep
    obtain ⟨p, -, heq⟩ := hstep
    cases heq
    exact hheights.grows rfl rfl
  | headForward level =>
    simp only [RemoveStep.step] at hstep
    split at hstep <;> cases hstep <;> exact hheights.grows rfl rfl
  | storeLevel level =>
    cases hstep
    exact ⟨fun _ => .inl, hlevel⟩
  | storeMarked | loadNext level | subSize =>
    cases hstep
    exact hheights.grows rfl rfl

theorem Local.Within.grows (hheights : s.Heights) (hl : l.Within s)
    (hstep : l.step s t choice = some (s', l')) : s.Grows s' := by
  cases l with
  | assign key value existing step => exact AssignStep.grows hheights hstep
  | insert i held step => exact InsertStep.grows hheights hl.2 hstep
  | remove d held step => exact RemoveStep.grows hheights hl.2 hstep
  | _ =>
    obtain ⟨holder, rfl⟩ := Local.step_shared id hstep
    exact hheights.grows rfl rfl

omit [LinearOrder K] in
/-- The heights of the nodes that there are do not change. -/
theorem Shared.Heights.move {mine : NodeId → Prop} {own : Option NodeId}
    (hheights : s.Heights) (halloc : s.heap.allocated SkipList.head = true)
    (hmoves : Moves mine own s.heap s'.heap) (hmax : s'.maxLevel = s.maxLevel)
    (hgrows : s.Grows s') : s'.Heights where
  head := by
    rw [hmoves.topLevel halloc, hmax]
    exact hheights.head
  topLevel {n} hn := by
    rw [hmax]
    rcases hgrows.created n hn with hold | hnew
    · rw [hmoves.topLevel hold]
      exact hheights.topLevel hold
    · exact hnew
  currentLevel := hmax ▸ hgrows.currentLevel

/-- Every entry of `forward` that a call loads or stores is one that the node has. -/
theorem Local.Within.inBounds (hheights : s.Heights) (hfacts : l.Facts s.heap)
    (hl : l.Within s) : l.InBounds s := by
  intro p level hentry
  cases l with
  | find update level' predecessor found =>
    cases hentry
    exact hl.1.le
  | insert i held step =>
    obtain ⟨hfound, hlevel⟩ := hl
    obtain ⟨-, hstep⟩ := hfacts
    cases step with
    | forward level' | link node level' =>
      -- `CanInsert` and the links keep to the levels of the new node
      have hle : level' ≤ i.nodeLevel := hstep.1
      obtain ⟨p', hp', heq⟩ := Option.map_eq_some_iff.mp hentry
      cases heq
      exact (hfound level p (hle.trans_lt hlevel) hp').le
    | initForward node level' =>
      cases hentry
      obtain ⟨hle, -, hnew, -⟩ := hstep
      exact hnew.topLevel ▸ hle
    | _ => cases hentry
  | remove d held step =>
    obtain ⟨hfound, hstart⟩ := hl
    obtain ⟨⟨-, hvictim, -⟩, hstep⟩ := hfacts
    -- the victim is no higher than the levels that there are
    have hbound {level' : Nat} (hle : level' ≤ (s.heap.node d.victim).topLevel)
        (hp : d.found.predecessors level' = some p) : level' ≤ (s.heap.node p).topLevel :=
      (hfound level' p (hle.trans_lt (hheights.topLevel hvictim.allocated)) hp).le
    cases step with
    | forward level' =>
      obtain ⟨p', hp', heq⟩ := Option.map_eq_some_iff.mp hentry
      cases heq
      exact hbound hstep.1 hp'
    | loadNext level' =>
      cases hentry
      exact hstep.le
    | unlink level' next =>
      obtain ⟨p', hp', heq⟩ := Option.map_eq_some_iff.mp hentry
      cases heq
      exact hbound hstep.1.le hp'
    | headForward level' =>
      cases hentry
      -- the scan looks one below its level
      have hle : level' ≤ s.maxLevel := hstart
      have := hheights.head
      omega
    | _ => cases hentry
  | read reader step =>
    cases step with
    | walk level' predecessor =>
      cases hentry
      exact HasEntry.le hl
    | candidate predecessor | next node =>
      cases hentry
      -- every node has an entry for level 0
      exact Nat.zero_le _
    | _ => cases hentry
  | _ => cases hentry

end

/-! ## Runs -/

namespace State

variable [DecidableEq T] {s s' : State K V T} {label : T × Choice K V} {maxLevel : Nat}
  {address : NodeId ↪ Nat}

/-- The heights are right, and every call keeps to them. -/
structure Bounded (s : State K V T) : Prop where
  heights : s.shared.Heights
  within : ∀ t, (s.thread t).Within s.shared

omit [DecidableEq T] in
/-- The constructor makes the head as high as `max_level_` says. -/
theorem bounded_new [Inhabited K] [Inhabited V] (maxLevel : Nat) (address : NodeId ↪ Nat) :
    (new maxLevel address : State K V T).Bounded where
  heights :=
    have hlevels := (ordered_new (K := K) (V := V) (T := T) maxLevel address).levels
    { head := by
        show (if maxLevel = 0 then 1 else maxLevel) - 1 + 1 = if maxLevel = 0 then 1 else maxLevel
        split <;> omega
      topLevel := fun {n} _ => Nat.sub_lt hlevels Nat.one_pos
      currentLevel := hlevels }
  within _ := trivial

variable [LinearOrder K]

/-- A step of any thread keeps all calls within the bounds. -/
theorem Bounded.step (hbounded : s.Bounded) (houtline : outline.Holds s.shared s.thread)
    (hstep : Step s label s') : s'.Bounded := by
  obtain ⟨shared, pc, hlocal, rfl⟩ := step_iff.mp hstep
  have hsound : s.shared.heap.Sound := houtline.inv
  have hmoves := ((houtline.asserts label.1).outcome hsound hlocal).effect.moves
  have hmax := (Local.orderly hlocal).maxLevel
  refine ⟨hbounded.heights.move hsound.head hmoves hmax
    ((hbounded.within _).grows hbounded.heights hlocal), fun t => ?_⟩
  show (Function.update s.thread label.1 pc t).Within shared
  by_cases heq : t = label.1
  · subst heq
    rw [Function.update_self]
    exact ((hbounded.within _).next hsound hbounded.heights hlocal).move hmoves hmax
  · rw [Function.update_of_ne heq]
    exact (hbounded.within t).move hmoves hmax

theorem bounded_of_run [Inhabited K] [Inhabited V] {ok : State K V T → T × Choice K V → Prop}
    (h : Run Step ok (new maxLevel address) s) : s.Bounded := by
  induction h with
  | refl => exact bounded_new maxLevel address
  | tail label run _ hstep ih => exact ih.step (outline_of_run run) hstep

end State

end ConcurrentSkipList

end KvStore
