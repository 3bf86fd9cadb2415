import KvStore.ForStd.Threads
import KvStore.Spec.ConcurrentHeap

/-!
# Proof outline of the concurrent skip list

What is known at each point of a call: which nodes the thread has locked (`Local.held`),
which node it has created and not yet fully linked (`Local.own`), and what holds of the
nodes that it has found (`Local.Facts`). The facts are about nodes that are published,
locked, marked or not yet visible to others, so that a step of another thread leaves them
true (`Local.Facts.move`).
-/

namespace KvStore

namespace ConcurrentSkipList

open SkipList (head)

variable {K V T : Type}

namespace Local

/-- The nodes that the thread has locked. -/
def held : Local K V → List NodeId
  | assign _ _ _ .lock => []
  | assign _ _ existing _ => [existing]
  | lockNodes _ held _ => held
  | insert _ held _ => held
  | remove _ held _ => held
  | read _ (.markedLocked node) => [node]
  | read _ (.fullyLinkedLocked node) => [node]
  | read _ (.value node) => [node]
  | unlock held _ => held
  | _ => []

/-- The node that the thread has created and not yet fully linked. -/
def own : Local K V → Option NodeId
  | insert _ _ (.initForward node _) => some node
  | insert _ _ (.lockOwnership node) => some node
  | insert _ _ (.pushOwned node) => some node
  | insert _ _ (.unlockOwnership node) => some node
  | insert _ _ (.link node _) => some node
  | insert _ _ (.storeFullyLinked node) => some node
  | _ => none

/-- The node that the next step of the thread links at level 0. -/
def linked : Local K V → List NodeId
  | insert _ _ (.link node level) => if level = 0 then [node] else []
  | _ => []

/-- The node that the next step of the thread unlinks at level 0. -/
def unlinked : Local K V → List NodeId
  | remove d _ (.unlink level _) => if level = 0 then [d.victim] else []
  | _ => []

end Local

namespace Heap

variable {h h' : Heap K V} {p q n new : NodeId} {level level' lo hi : Nat}
  {mine : NodeId → Prop} {own : Option NodeId}

/-- The predecessors of these levels are not marked, and their pointers are known. -/
def Points (h : Heap K V) (predecessors target : Nat → Option NodeId) (lo hi : Nat) : Prop :=
  ∀ level p, lo ≤ level → level < hi → predecessors level = some p →
    (h.node p).marked = false ∧ h.loadForward p level = target level

/-- The predecessors below a level are among these nodes. -/
def Covers (predecessors : Nat → Option NodeId) (hi : Nat) (nodes : List NodeId) : Prop :=
  ∀ level p, level < hi → predecessors level = some p → p ∈ nodes

/-- A node that a thread has created, and that nobody can reach from the level `lo` on. -/
structure Created (h : Heap K V) (key : K) (nodeLevel : Nat) (new : NodeId) (lo : Nat) :
    Prop where
  allocated : h.allocated new = true
  ne_head : new ≠ head
  key : (h.node new).key = key
  topLevel : (h.node new).topLevel = nodeLevel
  fullyLinked : (h.node new).fullyLinked = false
  unpublished : ∀ level, lo ≤ level → ¬ h.Published level new

/-- The pointers of locked predecessors are kept by the other threads. -/
theorem Points.move {predecessors target : Nat → Option NodeId} (hmoves : Moves mine own h h')
    (hpoints : h.Points predecessors target lo hi)
    (hkept : ∀ level p, lo ≤ level → level < hi → predecessors level = some p →
      h.allocated p = true ∧ h.Published level p ∧ ¬ mine p) :
    h'.Points predecessors target lo hi := by
  intro level p hlo hhi hp
  obtain ⟨hmarked, hload⟩ := hpoints level p hlo hhi hp
  obtain ⟨halloc, hpublished, hmine⟩ := hkept level p hlo hhi hp
  constructor
  · by_contra hmarked'
    rcases hmoves.marks halloc (by simpa using hmarked') with hm | ⟨hm, -⟩
    · exact absurd hm (by simp [hmarked])
    · exact hmine hm
  · rcases hmoves.stores level halloc with heq | ⟨-, ⟨hm, -⟩ | ⟨-, hnot⟩⟩
    · exact heq.trans hload
    · exact absurd hm hmine
    · exact absurd hpublished hnot

/-- The pointers that another store of the thread does not concern. -/
theorem Points.storeForward {predecessors target : Nat → Option NodeId} {value : Option NodeId}
    (hpoints : h.Points predecessors target lo hi)
    (hne : ∀ level' p', lo ≤ level' → level' < hi → predecessors level' = some p' →
      ¬ (p' = p ∧ level' = level)) :
    (h.storeForward p level value).Points predecessors target lo hi := by
  intro level' p' hlo hhi hp'
  rw [marked_storeForward, loadForward_storeForward, if_neg (hne level' p' hlo hhi hp')]
  exact hpoints level' p' hlo hhi hp'

/-- One more level. -/
theorem Points.succ {predecessors target : Nat → Option NodeId}
    (hpoints : h.Points predecessors target lo hi)
    (hnext : ∀ p, predecessors hi = some p →
      (h.node p).marked = false ∧ h.loadForward p hi = target hi) :
    h.Points predecessors target lo (hi + 1) := by
  intro level p hlo hhi hp
  by_cases hlevel : level = hi
  · subst hlevel
    exact hnext p hp
  · exact hpoints level p hlo (by omega) hp

/-- Fewer levels. -/
theorem Points.mono {predecessors target : Nat → Option NodeId} {lo' hi' : Nat}
    (hpoints : h.Points predecessors target lo hi) (hlo : lo ≤ lo') (hhi : hi' ≤ hi) :
    h.Points predecessors target lo' hi' :=
  fun level p hlo' hhi' => hpoints level p (hlo.trans hlo') (by omega)

/-- A node that is being created is left alone by the other threads. -/
theorem Created.move {key : K} {nodeLevel : Nat} (hmoves : Moves mine own h h')
    (hown : own ≠ some new) (hnew : h.Created key nodeLevel new lo) :
    h'.Created key nodeLevel new lo where
  allocated := hmoves.allocated hnew.allocated
  ne_head := hnew.ne_head
  key := (hmoves.key hnew.allocated).trans hnew.key
  topLevel := (hmoves.topLevel hnew.allocated).trans hnew.topLevel
  fullyLinked := by
    by_contra hfully
    rcases hmoves.fullyLinks hnew.allocated (by simpa using hfully) with hf | heq
    · exact absurd hf (by simp [hnew.fullyLinked])
    · exact hown heq
  -- only its own thread could have linked or marked the node
  unpublished level hlo := by
    rintro (hlisted | hmarked)
    · rcases hmoves.links hlisted with hl | ⟨heq, -⟩
      · exact hnew.unpublished level hlo (.inl hl)
      · exact hown heq
    · rcases hmoves.marks hnew.allocated hmarked with hm | ⟨-, hf⟩
      · exact hnew.unpublished level hlo (.inr hm)
      · exact absurd hf (by simp [hnew.fullyLinked])

variable [LinearOrder K]

/-- A node that a search has reached on its way to a key. -/
structure Reached (h : Heap K V) (level : Nat) (p : NodeId) (key : K) : Prop where
  allocated : h.allocated p = true
  published : h.Published level p
  before : h.Before p key

/-- A node at which a search for a key has stopped. -/
structure Beyond (h : Heap K V) (level : Nat) (q : NodeId) (key : K) : Prop where
  allocated : h.allocated q = true
  ne_head : q ≠ head
  topLevel : level ≤ (h.node q).topLevel
  published : h.Published level q
  not_before : ¬ (h.node q).key < key

/-- What `FindNode` has found when it is done with the levels from `lo` on. -/
structure Searched (h : Heap K V) (key : K) (found : FindResult) (lo : Nat) : Prop where
  predecessor : ∀ level, lo ≤ level →
    ∃ p, found.predecessors level = some p ∧ h.Reached level p key
  successor : ∀ level q, lo ≤ level → found.successors level = some q → h.Beyond level q key
  absent : found.foundLevel = none →
    ∀ level q, lo ≤ level → found.successors level = some q → (h.node q).key ≠ key
  present : ∀ level, found.foundLevel = some level →
    lo ≤ level ∧ ∃ q, found.successors level = some q ∧ (h.node q).key = key

/-- A node that a search has reached may still be gone on from. -/
theorem Reached.move (hmoves : Moves mine own h h') {key : K} (hp : h.Reached level p key) :
    h'.Reached level p key where
  allocated := hmoves.allocated hp.allocated
  published := hmoves.published hp.allocated hp.published
  before := hp.before.move hmoves hp.allocated

/-- A node at which a search has stopped is still not before the key. -/
theorem Beyond.move (hmoves : Moves mine own h h') {key : K} (hq : h.Beyond level q key) :
    h'.Beyond level q key where
  allocated := hmoves.allocated hq.allocated
  ne_head := hq.ne_head
  topLevel := by
    rw [hmoves.topLevel hq.allocated]
    exact hq.topLevel
  published := hmoves.published hq.allocated hq.published
  not_before := by
    rw [hmoves.key hq.allocated]
    exact hq.not_before

/-- What `FindNode` has found stays usable while other threads go on. -/
theorem Searched.move (hmoves : Moves mine own h h') {key : K} {found : FindResult}
    (hsearched : h.Searched key found lo) : h'.Searched key found lo where
  predecessor level hlo := by
    obtain ⟨p, hp, hreached⟩ := hsearched.predecessor level hlo
    exact ⟨p, hp, hreached.move hmoves⟩
  successor level q hlo hq := (hsearched.successor level q hlo hq).move hmoves
  absent hnone level q hlo hq := by
    rw [hmoves.key (hsearched.successor level q hlo hq).allocated]
    exact hsearched.absent hnone level q hlo hq
  present level hlevel := by
    obtain ⟨hlo, q, hq, hkey⟩ := hsearched.present level hlevel
    refine ⟨hlo, q, hq, ?_⟩
    rw [hmoves.key (hsearched.successor level q hlo hq).allocated]
    exact hkey

end Heap

/-! ## The assertions -/

open Heap

variable [LinearOrder K]

/-- What is known of the nodes that a call of `LockNodes` locks. -/
def Plan.Facts (h : Heap K V) (nodes : List NodeId) : Plan K V → Prop
  | insert i =>
    h.Searched i.key i.found 0 ∧ i.found.foundLevel = none ∧
      Covers i.found.predecessors (i.nodeLevel + 1) nodes
  | remove d =>
    h.Searched d.key d.found 0 ∧ h.Beyond 0 d.victim d.key ∧ (h.node d.victim).key = d.key ∧
      d.victim ∈ nodes ∧ Covers d.found.predecessors ((h.node d.victim).topLevel + 1) nodes

/-- `Put`: what `CanInsert` has checked, and what is linked. -/
def InsertStep.Facts (h : Heap K V) (i : Insertion K V) : InsertStep → Prop
  | predecessorMarked level =>
    level ≤ i.nodeLevel ∧ h.Points i.found.predecessors i.found.successors 0 level
  | successorMarked level =>
    level ≤ i.nodeLevel ∧ h.Points i.found.predecessors i.found.successors 0 level ∧
      ∀ p, i.found.predecessors level = some p → (h.node p).marked = false
  | forward level =>
    level ≤ i.nodeLevel ∧ h.Points i.found.predecessors i.found.successors 0 level ∧
      ∀ p, i.found.predecessors level = some p → (h.node p).marked = false
  | create => h.Points i.found.predecessors i.found.successors 0 (i.nodeLevel + 1)
  | initForward new level =>
    level ≤ i.nodeLevel ∧
      h.Points i.found.predecessors i.found.successors 0 (i.nodeLevel + 1) ∧
      h.Created i.key i.nodeLevel new 0 ∧
      ∀ l, l < level → h.loadForward new l = i.found.successors l
  | lockOwnership new | pushOwned new | unlockOwnership new =>
    h.Points i.found.predecessors i.found.successors 0 (i.nodeLevel + 1) ∧
      h.Created i.key i.nodeLevel new 0 ∧
      ∀ l, l ≤ i.nodeLevel → h.loadForward new l = i.found.successors l
  | link new level =>
    level ≤ i.nodeLevel ∧
      h.Points i.found.predecessors (fun _ => some new) 0 level ∧
      h.Points i.found.predecessors i.found.successors level (i.nodeLevel + 1) ∧
      h.Created i.key i.nodeLevel new level ∧
      ∀ l, level ≤ l → l ≤ i.nodeLevel → h.loadForward new l = i.found.successors l
  | storeFullyLinked new =>
    h.Points i.found.predecessors (fun _ => some new) 0 (i.nodeLevel + 1) ∧
      h.Created i.key i.nodeLevel new (i.nodeLevel + 1)
  | addSize new => h.Points i.found.predecessors (fun _ => some new) 0 1
  | loadLevel => True
  | raiseLevel observed => observed ≤ i.nodeLevel

/-- `Delete`: the victim is marked, and unlinked above this level. -/
structure Removal.Unlinking (h : Heap K V) (d : Removal K) (level : Nat) : Prop where
  le : level ≤ (h.node d.victim).topLevel
  marked : (h.node d.victim).marked = true
  below : h.Points d.found.predecessors (fun _ => some d.victim) 0 (level + 1)
  above : h.Points d.found.predecessors (h.loadForward d.victim) (level + 1)
    ((h.node d.victim).topLevel + 1)
  unlisted : ∀ l, level < l → ¬ h.Listed l d.victim

/-- `Delete`: what is checked, and what is unlinked. -/
def RemoveStep.Facts (h : Heap K V) (d : Removal K) : RemoveStep → Prop
  | fullyLinked => True
  | marked => (h.node d.victim).fullyLinked = true
  | predecessorMarked level =>
    level ≤ (h.node d.victim).topLevel ∧ (h.node d.victim).fullyLinked = true ∧
      (h.node d.victim).marked = false ∧
      h.Points d.found.predecessors (fun _ => some d.victim) 0 level
  | forward level =>
    level ≤ (h.node d.victim).topLevel ∧ (h.node d.victim).fullyLinked = true ∧
      (h.node d.victim).marked = false ∧
      h.Points d.found.predecessors (fun _ => some d.victim) 0 level ∧
      ∀ p, d.found.predecessors level = some p → (h.node p).marked = false
  | storeMarked =>
    (h.node d.victim).fullyLinked = true ∧ (h.node d.victim).marked = false ∧
      h.Points d.found.predecessors (fun _ => some d.victim) 0
        ((h.node d.victim).topLevel + 1)
  | loadNext level => d.Unlinking h level
  | unlink level next => d.Unlinking h level ∧ next = h.loadForward d.victim level
  | subSize => True
  | headForward _ => True
  | storeLevel _ => True

/-- What is known at each point. -/
def Local.Facts (h : Heap K V) : Local K V → Prop
  | find update level predecessor found =>
    h.Reached level predecessor update.key ∧ h.Searched update.key found (level + 1)
  | randomLevel key _ found => h.Searched key found 0 ∧ found.foundLevel = none
  | lockNodes plan held rest => (held ++ rest).Nodup ∧ plan.Facts h (held ++ rest)
  | insert i held step => (Plan.insert i).Facts h held ∧ step.Facts h i
  | remove d held step => (Plan.remove (V := V) d).Facts h held ∧ step.Facts h d
  | _ => True

/-- The assertion at a point: its facts, and that the thread has its locks. -/
structure Local.Asserts (t : T) (s : Shared K V T) (l : Local K V) : Prop where
  facts : l.Facts s.heap
  nodup : l.held.Nodup
  holds : ∀ n ∈ l.held, s.holder n = some t

/-- The proof outline. -/
def outline : Outline (Shared K V T) T (Local K V) where
  inv s := s.heap.Sound
  asserts := Local.Asserts
  apart l m := ∀ n, l.own = some n → m.own ≠ some n
  symm h n hm hl := h n hl hm

/-! ## Freedom from interference -/

section

variable {h h' : Heap K V} {mine : NodeId → Prop} {own : Option NodeId}

/-- What is known before the locks are taken does not depend on them. -/
theorem Plan.Facts.move (hmoves : Moves mine own h h') {nodes : List NodeId} {plan : Plan K V}
    (hfacts : plan.Facts h nodes) : plan.Facts h' nodes := by
  cases plan with
  | insert i => exact ⟨hfacts.1.move hmoves, hfacts.2⟩
  | remove d =>
    obtain ⟨hsearched, hvictim, hkey, hmem, hcovers⟩ := hfacts
    refine ⟨hsearched.move hmoves, hvictim.move hmoves, ?_, hmem, ?_⟩
    · rwa [hmoves.key hvictim.allocated]
    · rwa [hmoves.topLevel hvictim.allocated]

/-- The predecessors that a call has locked. -/
theorem Heap.Searched.kept {key : K} {found : FindResult} {hi : Nat} {nodes : List NodeId}
    (hsearched : h.Searched key found 0) (hcovers : Covers found.predecessors hi nodes)
    (hmine : ∀ n ∈ nodes, ¬ mine n) {level : Nat} {p : NodeId} (hlevel : level < hi)
    (hp : found.predecessors level = some p) :
    h.allocated p = true ∧ h.Published level p ∧ ¬ mine p := by
  obtain ⟨p', hp', hreached⟩ := hsearched.predecessor level (Nat.zero_le level)
  obtain rfl : p = p' := Option.some.inj (hp.symm.trans hp')
  exact ⟨hreached.allocated, hreached.published, hmine p (hcovers level p hlevel hp)⟩

/-- The checks of `CanInsert` and the links stay true: the predecessors are locked, and nobody
    else can reach the new node. -/
theorem InsertStep.Facts.move (hmoves : Moves mine own h h') {i : Insertion K V}
    {held : List NodeId} {step : InsertStep} (hplan : (Plan.insert i).Facts h held)
    (hmine : ∀ n ∈ held, ¬ mine n)
    (hapart : ∀ n, own = some n → (Local.insert i held step).own ≠ some n)
    (hfacts : step.Facts h i) : step.Facts h' i := by
  obtain ⟨hsearched, -, hcovers⟩ := hplan
  -- a locked predecessor is not the other thread's
  have hkept : ∀ {level p}, level < i.nodeLevel + 1 → i.found.predecessors level = some p →
      h.allocated p = true ∧ h.Published level p ∧ ¬ mine p :=
    fun hlevel hp => hsearched.kept hcovers hmine hlevel hp
  have hpoints : ∀ {target lo hi}, hi ≤ i.nodeLevel + 1 →
      h.Points i.found.predecessors target lo hi → h'.Points i.found.predecessors target lo hi :=
    fun hhi h => h.move hmoves fun level p _ hlevel hp => hkept (hlevel.trans_le hhi) hp
  -- nobody else marks a node that is locked
  have hunmarked : ∀ {level}, level ≤ i.nodeLevel →
      (∀ p, i.found.predecessors level = some p → (h.node p).marked = false) →
      ∀ p, i.found.predecessors level = some p → (h'.node p).marked = false := by
    intro level hlevel hmarked p hp
    obtain ⟨halloc, -, hp'⟩ := hkept (Nat.lt_succ_of_le hlevel) hp
    exact hmoves.unmarked halloc hp' (hmarked p hp)
  -- the pointers of the new node that nobody can reach
  have hload : ∀ {new lo l}, h.Created i.key i.nodeLevel new lo → own ≠ some new → lo ≤ l →
      h'.loadForward new l = h.loadForward new l := by
    intro new lo l hnew hown hl
    rcases hmoves.stores l hnew.allocated with heq | ⟨-, ⟨-, hlisted⟩ | ⟨heq, -⟩⟩
    · exact heq
    · exact absurd (.inl hlisted) (hnew.unpublished l hl)
    · exact absurd heq hown
  cases step with
  | predecessorMarked level => exact ⟨hfacts.1, hpoints (by have := hfacts.1; omega) hfacts.2⟩
  | successorMarked level =>
    obtain ⟨hlevel, hp, hmarked⟩ := hfacts
    exact ⟨hlevel, hpoints (by omega) hp, hunmarked hlevel hmarked⟩
  | forward level =>
    obtain ⟨hlevel, hp, hmarked⟩ := hfacts
    exact ⟨hlevel, hpoints (by omega) hp, hunmarked hlevel hmarked⟩
  | create => exact hpoints le_rfl hfacts
  | initForward new level =>
    obtain ⟨hlevel, hp, hnew, hinit⟩ := hfacts
    have hown : own ≠ some new := fun heq => hapart new heq rfl
    refine ⟨hlevel, hpoints le_rfl hp, hnew.move hmoves hown, fun l hl => ?_⟩
    rw [hload hnew hown (Nat.zero_le l)]
    exact hinit l hl
  | lockOwnership new | pushOwned new | unlockOwnership new =>
    obtain ⟨hp, hnew, hinit⟩ := hfacts
    have hown : own ≠ some new := fun heq => hapart new heq rfl
    refine ⟨hpoints le_rfl hp, hnew.move hmoves hown, fun l hl => ?_⟩
    rw [hload hnew hown (Nat.zero_le l)]
    exact hinit l hl
  | link new level =>
    -- below the level the predecessors point to the node, above it to the successors
    obtain ⟨hlevel, hlinked, hp, hnew, hinit⟩ := hfacts
    have hown : own ≠ some new := fun heq => hapart new heq rfl
    refine ⟨hlevel, hpoints (by omega) hlinked, hpoints le_rfl hp, hnew.move hmoves hown,
      fun l hlo hl => ?_⟩
    rw [hload hnew hown hlo]
    exact hinit l hlo hl
  | storeFullyLinked new =>
    obtain ⟨hlinked, hnew⟩ := hfacts
    exact ⟨hpoints le_rfl hlinked, hnew.move hmoves fun heq => hapart new heq rfl⟩
  | addSize new => exact hpoints (by omega) hfacts
  | loadLevel => trivial
  | raiseLevel observed => exact hfacts

/-- A victim that is marked keeps its pointers, and its locked predecessors theirs. -/
theorem Removal.Unlinking.move (hmoves : Moves mine own h h') {d : Removal K} {level : Nat}
    {held : List NodeId} (hplan : (Plan.remove (V := V) d).Facts h held)
    (hmine : ∀ n ∈ held, ¬ mine n) (hunlinking : d.Unlinking h level) :
    d.Unlinking h' level := by
  obtain ⟨hsearched, hvictim, -, hmem, hcovers⟩ := hplan
  have htop := hmoves.topLevel hvictim.allocated
  have hle := hunlinking.le
  have hmarked := hunlinking.marked
  refine
    { le := htop ▸ hle
      marked := hmoves.marked hvictim.allocated hmarked
      below := hunlinking.below.move hmoves fun l p _ hl hp =>
        hsearched.kept hcovers hmine (by omega) hp
      above := ?_
      unlisted := fun l hl hlisted => ?_ }
  · -- the pointers of a marked node are frozen
    have habove := hunlinking.above.move hmoves fun l p _ hl hp =>
      hsearched.kept hcovers hmine hl hp
    rw [htop]
    intro l p hlo hhi hp
    rw [hmoves.frozen hvictim.allocated hmarked]
    exact habove l p hlo hhi hp
  · rcases hmoves.links hlisted with hl' | ⟨-, hnot⟩
    · exact hunlinking.unlisted l hl hl'
    · exact hnot (.inr hmarked)

/-- The checks of `Delete` stay true: the victim and the predecessors are locked. -/
theorem RemoveStep.Facts.move (hmoves : Moves mine own h h') {d : Removal K}
    {held : List NodeId} {step : RemoveStep} (hplan : (Plan.remove (V := V) d).Facts h held)
    (hmine : ∀ n ∈ held, ¬ mine n) (hfacts : step.Facts h d) : step.Facts h' d := by
  obtain ⟨hsearched, hvictim, -, hmem, hcovers⟩ := id hplan
  have halloc := hvictim.allocated
  have htop := hmoves.topLevel halloc
  have hunmarked := hmoves.unmarked halloc (hmine _ hmem)
  -- the predecessors are locked, so they keep their pointers
  have hpoints : ∀ {target lo hi}, hi ≤ (h.node d.victim).topLevel + 1 →
      h.Points d.found.predecessors target lo hi → h'.Points d.found.predecessors target lo hi :=
    fun hhi h => h.move hmoves fun level p _ hlevel hp =>
      hsearched.kept hcovers hmine (hlevel.trans_le hhi) hp
  cases step with
  | fullyLinked => trivial
  | marked => exact hmoves.fullyLinked halloc hfacts
  | predecessorMarked level =>
    obtain ⟨hle, hfully, hmarked, hp⟩ := hfacts
    exact ⟨htop ▸ hle, hmoves.fullyLinked halloc hfully, hunmarked hmarked,
      hpoints (by omega) hp⟩
  | forward level =>
    obtain ⟨hle, hfully, hmarked, hp, hpred⟩ := hfacts
    refine ⟨htop ▸ hle, hmoves.fullyLinked halloc hfully, hunmarked hmarked,
      hpoints (by omega) hp, fun p hpl => ?_⟩
    obtain ⟨hp', -, hnot⟩ := hsearched.kept hcovers hmine (Nat.lt_succ_of_le hle) hpl
    exact hmoves.unmarked hp' hnot (hpred p hpl)
  | storeMarked =>
    obtain ⟨hfully, hmarked, hp⟩ := hfacts
    refine ⟨hmoves.fullyLinked halloc hfully, hunmarked hmarked, ?_⟩
    rw [htop]
    exact hpoints le_rfl hp
  | loadNext level => exact Removal.Unlinking.move hmoves hplan hmine hfacts
  | unlink level next =>
    -- the pointer that has been loaded is still that of the victim
    obtain ⟨hunlinking, hnext⟩ := hfacts
    refine ⟨hunlinking.move hmoves hplan hmine, ?_⟩
    rw [hmoves.frozen halloc hunlinking.marked]
    exact hnext
  | subSize => trivial
  | headForward level => trivial
  | storeLevel level => trivial

/-- A step of another thread leaves the facts true. -/
theorem Local.Facts.move (hmoves : Moves mine own h h') {l : Local K V}
    (hmine : ∀ n ∈ l.held, ¬ mine n) (hapart : ∀ n, own = some n → l.own ≠ some n)
    (hfacts : l.Facts h) : l.Facts h' := by
  cases l with
  | idle => trivial
  | loadLevel update => trivial
  | find update level predecessor found => exact ⟨hfacts.1.move hmoves, hfacts.2.move hmoves⟩
  | assign key value existing step => trivial
  | randomLevel key value found => exact ⟨hfacts.1.move hmoves, hfacts.2⟩
  | lockNodes plan held rest => exact ⟨hfacts.1, hfacts.2.move hmoves⟩
  | insert i held step =>
    exact ⟨hfacts.1.move hmoves, hfacts.2.move hmoves hfacts.1 hmine hapart⟩
  | remove d held step => exact ⟨hfacts.1.move hmoves, hfacts.2.move hmoves hfacts.1 hmine⟩
  | read reader step => trivial
  | unlock held next => trivial
  | returning call answer => trivial

end

end ConcurrentSkipList

end KvStore
