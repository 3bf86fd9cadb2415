import KvStore.ForStd.AtomicMap
import KvStore.Spec.ConcurrentCover

/-!
# When an update takes effect

The map that a concurrent skip list holds (`Heap.Holds`) changes at three points of the
program only (`Local.commits`): `Put` of a new key takes effect when it stores
`fully_linked`, `Put` of a key that is found when it stores the value, and `Delete` when it
stores `marked`. At each of them the thread returns what a map would return at this moment
(`Local.Asserts.commit`), and every other step leaves the map as it is
(`Local.Asserts.silent`).
-/

namespace KvStore

namespace ConcurrentSkipList

open SkipList (head)
open Heap

variable {K V T : Type}

/-! ## The map that a heap holds -/

namespace Heap

variable {h h' : Heap K V} {mine : NodeId → Prop} {own : Option NodeId} {m : K → Option V}
  {n : NodeId}

@[simp] theorem value_storeForward (p : NodeId) (level : Nat) (target : Option NodeId) :
    ((h.storeForward p level target).node n).value = (h.node n).value := by
  by_cases hn : n = p <;> simp [storeForward, setNode, hn]

@[simp] theorem value_storeMarked (p : NodeId) :
    ((h.storeMarked p).node n).value = (h.node n).value := by
  by_cases hn : n = p <;> simp [storeMarked, setNode, hn]

@[simp] theorem value_storeFullyLinked (p : NodeId) :
    ((h.storeFullyLinked p).node n).value = (h.node n).value := by
  by_cases hn : n = p <;> simp [storeFullyLinked, setNode, hn]

@[simp] theorem value_storeValue_self (value : V) :
    ((h.storeValue n value).node n).value = value := by
  simp [storeValue, setNode]

/-- Only one node gets the value. -/
theorem value_storeValue_of_ne {p : NodeId} (value : V) (hn : n ≠ p) :
    ((h.storeValue p value).node n).value = (h.node n).value := by
  simp [storeValue, setNode, hn]

/-- The keys and values of the list. -/
def Holds (h : Heap K V) (m : K → Option V) : Prop :=
  ∀ key value, m key = some value ↔ h.Present key value

/-- A step that changes only pointers, of the nodes that there were before. -/
structure Same (h h' : Heap K V) : Prop where
  marked : ∀ n, h.allocated n = true → (h'.node n).marked = (h.node n).marked
  fullyLinked : ∀ n, h.allocated n = true → (h'.node n).fullyLinked = (h.node n).fullyLinked
  value : ∀ n, h.allocated n = true → (h'.node n).value = (h.node n).value

theorem Same.refl (h : Heap K V) : Same h h :=
  ⟨fun _ _ => rfl, fun _ _ => rfl, fun _ _ => rfl⟩

/-- The store of a pointer is nothing else. -/
theorem Same.storeForward (h : Heap K V) (p : NodeId) (level : Nat) (target : Option NodeId) :
    Same h (h.storeForward p level target) where
  marked n _ := by simp
  fullyLinked n _ := by simp
  value n _ := by simp

/-- A new node is none of those that there were. -/
theorem Same.create {p : NodeId} (hfree : h.allocated p = false) (node : Node K V) :
    Same h (h.create p node) := by
  have hne : ∀ n, h.allocated n = true → (h.create p node).node n = h.node n := fun n hn =>
    node_create_of_ne node fun heq => absurd (heq ▸ hn) (by simp [hfree])
  exact ⟨fun n hn => by rw [hne n hn], fun n hn => by rw [hne n hn], fun n hn => by rw [hne n hn]⟩

variable [LinearOrder K]

/-- Which nodes are in the list depends on whether they are marked and fully linked. -/
theorem Moves.alive_iff (hmoves : Moves mine own h h') (hsound : h.Sound)
    (hown : (h'.node n).fullyLinked = true → own ≠ some n)
    (hmarked : h.allocated n = true → ((h'.node n).marked = true ↔ (h.node n).marked = true))
    (hfully : h.allocated n = true →
      ((h'.node n).fullyLinked = true ↔ (h.node n).fullyLinked = true)) :
    h'.Alive n ↔ h.Alive n := by
  have hunmarked : h.allocated n = true →
      ((h'.node n).marked = false ↔ (h.node n).marked = false) := fun halloc => by
    rw [← Bool.not_eq_true, hmarked halloc, Bool.not_eq_true]
  constructor
  · -- a node that is alive now was listed before
    intro halive
    -- a node that is alive now was listed before
    have hlisted := (hmoves.links halive.listed).resolve_right fun hnew =>
      hown halive.fullyLinked hnew.1
    have halloc := hsound.allocated hlisted
    exact ⟨hlisted, halive.ne_head, (hfully halloc).mp halive.fullyLinked,
      (hunmarked halloc).mp halive.unmarked⟩
  · intro halive
    have halloc := hsound.allocated halive.listed
    -- a node that was alive is still listed
    have hlisted := (hmoves.listed halive.listed).resolve_right fun hm =>
      absurd hm.2 (by simp [halive.unmarked])
    exact ⟨hlisted, halive.ne_head, (hfully halloc).mpr halive.fullyLinked,
      (hunmarked halloc).mpr halive.unmarked⟩

/-- The map stays as it is. -/
theorem Holds.of_same (hholds : h.Holds m) (hsame : Same h h') (hmoves : Moves mine own h h')
    (hsound : h.Sound) (hown : ∀ n, (h'.node n).fullyLinked = true → own ≠ some n) :
    h'.Holds m := by
  intro key value
  rw [hholds key value]
  have halive : ∀ n, h'.Alive n ↔ h.Alive n := fun n =>
    hmoves.alive_iff hsound (hown n) (fun halloc => by rw [hsame.marked n halloc])
      fun halloc => by rw [hsame.fullyLinked n halloc]
  refine exists_congr fun n => ?_
  rw [halive]
  refine and_congr_right fun hn => ?_
  have halloc := hsound.allocated hn.listed
  rw [hmoves.key halloc, hsame.value n halloc]

/-- The key of one node is given another value, or the node enters or leaves the list. -/
theorem Holds.update (hholds : h.Holds m) (hmoves : Moves mine own h h') (hsound : h.Sound)
    (hn : h.Listed 0 n) (hne : n ≠ SkipList.head) (effect : Option V)
    (hother : ∀ p, p ≠ n → (h'.Alive p ↔ h.Alive p))
    (hvalue : ∀ p, p ≠ n → (h'.node p).value = (h.node p).value)
    (heffect : ∀ value, effect = some value ↔ h'.Alive n ∧ (h'.node n).value = value) :
    h'.Holds (Function.update m (h.node n).key effect) := by
  have halloc := hsound.allocated hn
  intro key value
  by_cases hkey : key = (h.node n).key
  · subst hkey
    rw [Function.update_self, heffect]
    constructor
    · exact fun hn' => ⟨n, hn'.1, hmoves.key halloc, hn'.2⟩
    · -- no other node of the list has the key
      rintro ⟨p, hp, hpkey, hpvalue⟩
      by_cases hpn : p = n
      · exact hpn ▸ ⟨hp, hpvalue⟩
      · have hp' := (hother p hpn).mp hp
        rw [hmoves.key (hsound.allocated hp'.listed)] at hpkey
        exact absurd (hsound.eq_of_key hp'.listed hn hp'.ne_head hne hpkey) hpn
  · rw [Function.update_of_ne hkey, hholds key value]
    refine exists_congr fun p => ?_
    by_cases hpn : p = n
    · -- this node has the other key
      subst hpn
      rw [hmoves.key halloc]
      exact iff_of_false (fun hp => hkey hp.2.1.symm) fun hp => hkey hp.2.1.symm
    · rw [hother p hpn, hvalue p hpn]
      refine and_congr_right fun hp => ?_
      rw [hmoves.key (hsound.allocated hp.listed)]

end Heap

/-! ## Steps that leave the map as it is -/

/-- The update that takes effect with the next step of the thread, and what its call
    returns. -/
def Local.commits : Local K V → Option (Update K V × Bool)
  | assign key value _ .store => some (.put key value, false)
  | insert i _ (.storeFullyLinked _) => some (.put i.key i.value, true)
  | remove d _ .storeMarked => some (.delete d.key, true)
  | _ => none

variable {s s' : Shared K V T} {t : T} {l l' : Local K V} {choice : Choice K V}

/-- The checks of a `Put` on a key that is found change nothing. -/
theorem AssignStep.same {key : K} {value : V} {existing : NodeId} {step : AssignStep}
    (hsilent : (Local.assign key value existing step).commits = none)
    (hstep : step.step s t key value existing = some (s', l')) : Same s.heap s'.heap := by
  cases step with
  | lock =>
    simp only [AssignStep.step, Option.bind_eq_bind, Option.bind_eq_some_iff] at hstep
    obtain ⟨s₁, hlock, heq⟩ := hstep
    cases heq
    obtain ⟨-, rfl⟩ := Shared.lock_eq_some.mp hlock
    exact .refl _
  | store => cases hsilent
  | marked | fullyLinked =>
    simp only [AssignStep.step] at hstep
    split at hstep <;> cases hstep <;> exact .refl _

/-- `Put` changes only pointers until its node is fully linked. -/
theorem InsertStep.same {i : Insertion K V} {held : List NodeId} {step : InsertStep}
    (hsilent : (Local.insert i held step).commits = none)
    (hstep : step.step s t choice i held = some (s', l')) : Same s.heap s'.heap := by
  cases step with
  | predecessorMarked level | successorMarked level | forward level =>
    obtain ⟨rfl, -⟩ := step_check rfl hstep
    exact .refl _
  | create =>
    -- the new node is not one of those that there were
    simp only [InsertStep.step] at hstep
    split at hstep
    · split at hstep <;> cases hstep
      rename_i hfree
      exact .create (by simpa using hfree) _
    · cases hstep
  | lockOwnership node =>
    simp only [InsertStep.step] at hstep
    split at hstep <;> cases hstep
    exact .refl _
  | link node level =>
    simp only [InsertStep.step, Option.bind_eq_bind, Option.bind_eq_some_iff] at hstep
    obtain ⟨p, -, heq⟩ := hstep
    cases heq
    exact .storeForward _ _ _ _
  | raiseLevel observed =>
    simp only [InsertStep.step] at hstep
    split at hstep
    · cases hstep
      exact .refl _
    · split at hstep <;> cases hstep <;> exact .refl _
  | initForward node level =>
    cases hstep
    exact .storeForward _ _ _ _
  | storeFullyLinked node => cases hsilent
  | pushOwned node | unlockOwnership node | addSize node | loadLevel =>
    cases hstep
    exact .refl _

variable [LinearOrder K]

/-- `Delete` changes only pointers, but for the store of `marked`. -/
theorem RemoveStep.same {d : Removal K} {held : List NodeId} {step : RemoveStep}
    (hsilent : (Local.remove (V := V) d held step).commits = none)
    (hstep : step.step s d held = some (s', l')) : Same s.heap s'.heap := by
  by_cases hcheck : step.isCheck = true
  · obtain ⟨rfl, -⟩ := step_check hcheck hstep
    exact .refl _
  cases step with
  | storeMarked => cases hsilent
  | unlink level next =>
    -- unlinking changes pointers, but the node is marked already
    simp only [RemoveStep.step, Option.bind_eq_bind, Option.bind_eq_some_iff] at hstep
    obtain ⟨p, -, heq⟩ := hstep
    cases heq
    exact .storeForward _ _ _ _
  | headForward level =>
    simp only [RemoveStep.step] at hstep
    split at hstep <;> cases hstep <;> exact .refl _
  | loadNext level | subSize | storeLevel level =>
    cases hstep
    exact .refl _
  | _ => exact absurd rfl hcheck

/-- A step without effect on the map changes only pointers. -/
theorem Local.same (hsilent : l.commits = none) (hstep : l.step s t choice = some (s', l')) :
    Same s.heap s'.heap := by
  cases l with
  | assign key value existing step => exact AssignStep.same hsilent hstep
  | insert i held step => exact InsertStep.same hsilent hstep
  | remove d held step => exact RemoveStep.same hsilent hstep
  | _ =>
    obtain ⟨holder, rfl⟩ := Local.step_shared id hstep
    exact .refl _

/-- The node that a thread has created is not fully linked. -/
theorem Local.Facts.own_partly {h : Heap K V} (hfacts : l.Facts h) {n : NodeId}
    (hn : l.own = some n) : (h.node n).fullyLinked = false := by
  cases l with
  | insert i held step =>
    obtain ⟨-, hstep⟩ := hfacts
    cases step with
    | initForward new level => exact Option.some.inj hn ▸ hstep.2.2.1.fullyLinked
    | lockOwnership new => exact Option.some.inj hn ▸ hstep.2.1.fullyLinked
    | pushOwned new => exact Option.some.inj hn ▸ hstep.2.1.fullyLinked
    | unlockOwnership new => exact Option.some.inj hn ▸ hstep.2.1.fullyLinked
    | link new level => exact Option.some.inj hn ▸ hstep.2.2.2.1.fullyLinked
    | storeFullyLinked new => exact Option.some.inj hn ▸ hstep.2.fullyLinked
    | _ => cases hn
  | _ => cases hn

/-- A step at which no update takes effect leaves the map as it is. -/
theorem Local.Asserts.silent {m : K → Option V} (hl : l.Asserts t s) (hsound : s.heap.Sound)
    (hsilent : l.commits = none) (hstep : l.step s t choice = some (s', l'))
    (hholds : s.heap.Holds m) : s'.heap.Holds m := by
  obtain ⟨-, hmoves, -⟩ := (hl.outcome hsound hstep).effect
  have hsame := Local.same hsilent hstep
  refine hholds.of_same hsame hmoves hsound fun n hfully hn => ?_
  rw [hsame.fullyLinked n (hl.facts.own_allocated hn), hl.facts.own_partly hn] at hfully
  cases hfully

/-! ## Steps at which an update takes effect -/

/-- What `Put` has checked of the node that it has found. -/
def AssignStep.Facts (h : Heap K V) (existing : NodeId) : AssignStep → Prop
  | lock => True
  | marked => True
  | fullyLinked => (h.node existing).marked = false
  | store => (h.node existing).marked = false ∧ (h.node existing).fullyLinked = true

/-- What the outline leaves out: the node that `Put` has found, the value of the node that
    it has created, and the levels that `RecomputeCurrentLevel` looks at. -/
def Local.Tracks (h : Heap K V) : Local K V → Prop
  | assign key _ existing step =>
    h.Beyond 0 existing key ∧ (h.node existing).key = key ∧ step.Facts h existing
  | insert i held step =>
    ∀ n, (insert i held step).own = some n → (h.node n).value = i.value
  | remove _ _ (.headForward level) => 1 < level
  | remove _ _ (.storeLevel level) => 0 < level
  | _ => True

/-- A step of another thread leaves it true. -/
theorem Local.Tracks.move {h h' : Heap K V} {mine : NodeId → Prop} {own : Option NodeId}
    (hmoves : Moves mine own h h') (hmine : ∀ n ∈ l.held, ¬ mine n)
    (hvalue : ∀ n, h.allocated n = true → (h.node n).fullyLinked = false →
      (h'.node n).value = (h.node n).value)
    (hfacts : l.Facts h) (hl : l.Tracks h) : l.Tracks h' := by
  cases l with
  | assign key value existing step =>
    -- the thread has locked its node, so no other one marks it
    obtain ⟨hbeyond, hkey, hstep⟩ := hl
    have halloc := hbeyond.allocated
    refine ⟨hbeyond.move hmoves, (hmoves.key halloc).trans hkey, ?_⟩
    cases step with
    | lock => trivial
    | marked => trivial
    | fullyLinked => exact hmoves.unmarked halloc (hmine _ (List.mem_singleton_self _)) hstep
    | store =>
      exact ⟨hmoves.unmarked halloc (hmine _ (List.mem_singleton_self _)) hstep.1,
        hmoves.fullyLinked halloc hstep.2⟩
  | insert i held step =>
    -- nobody else stores a value in a node that is not fully linked
    intro n hn
    rw [hvalue n (hfacts.own_allocated hn) (hfacts.own_partly hn)]
    exact hl n hn
  | remove d held step => cases step <;> exact hl
  | _ => trivial

/-- The node whose new value is stored is in the list. -/
theorem Local.Tracks.alive {h : Heap K V} {key : K} {value : V} {existing : NodeId}
    (hl : (Local.assign key value existing .store).Tracks h) : h.Alive existing := by
  obtain ⟨hbeyond, -, hmarked, hfully⟩ := hl
  exact ⟨hbeyond.published.listed hmarked, hbeyond.ne_head, hfully, hmarked⟩

/-- Only nodes that are fully linked are given other values. -/
theorem Local.Tracks.value (htracks : l.Tracks s.heap)
    (hstep : l.step s t choice = some (s', l')) (n : NodeId) (halloc : s.heap.allocated n = true)
    (hpartly : (s.heap.node n).fullyLinked = false) :
    (s'.heap.node n).value = (s.heap.node n).value := by
  -- only a commit concerns more than pointers
  cases hcommits : l.commits with
  | none => exact (Local.same hcommits hstep).value n halloc
  | some commit =>
    cases l with
    | assign key value existing step =>
      cases step with
      | store =>
        -- the value is stored in another node
        cases hstep
        have hne : n ≠ existing := by
          rintro rfl
          simp [htracks.alive.fullyLinked] at hpartly
        exact value_storeValue_of_ne value hne
      | _ => cases hcommits
    | insert i held step =>
      cases step with
      | storeFullyLinked node =>
        cases hstep
        exact value_storeFullyLinked node
      | _ => cases hcommits
    | remove d held step =>
      cases step with
      | storeMarked =>
        cases hstep
        exact value_storeMarked d.victim
      | _ => cases hcommits
    | _ => cases hcommits

section

variable {m : K → Option V}

omit [LinearOrder K] in
/-- The map has a value for the key of every node of the list. -/
theorem Heap.Holds.isSome {h : Heap K V} (hholds : h.Holds m) {n : NodeId} (hn : h.Alive n) :
    m (h.node n).key = some (h.node n).value :=
  (hholds _ _).mpr ⟨n, hn, rfl, rfl⟩

/-- `Put` of a key that is found. -/
theorem commit_assign {key : K} {value : V} {existing : NodeId}
    (hl : (Local.assign key value existing .store).Asserts t s) (hsound : s.heap.Sound)
    (htracks : (Local.assign key value existing .store).Tracks s.heap)
    (hstep : AssignStep.step s t key value existing .store = some (s', l'))
    (hholds : s.heap.Holds m) :
    AtomicMap.answer m (.put key value) = false ∧ s'.heap.Holds ((Update.put key value).apply m) := by
  obtain ⟨-, hmoves, -⟩ := (AssignStep.outcome hsound hl hstep).effect
  have halive := htracks.alive
  obtain ⟨-, rfl, -⟩ := htracks
  cases hstep
  have hsame : ∀ n, (s.heap.storeValue existing value).Alive n ↔ s.heap.Alive n := fun n =>
    hmoves.alive_iff hsound (fun _ hnone => by cases hnone) (fun _ => by simp) fun _ => by simp
  constructor
  · simp [AtomicMap.answer, hholds.isSome halive]
  · refine hholds.update hmoves hsound halive.listed halive.ne_head (some value)
      (fun p _ => hsame p) (fun p hp => value_storeValue_of_ne value hp) fun v => ?_
    rw [hsame]
    simp [halive]

/-- `Put` of a new key. -/
theorem commit_insert {i : Insertion K V} {held : List NodeId} {new : NodeId}
    (hl : (Local.insert i held (.storeFullyLinked new)).Asserts t s) (hsound : s.heap.Sound)
    (htracks : (Local.insert i held (.storeFullyLinked new)).Tracks s.heap)
    (hstep : InsertStep.step s t choice i held (.storeFullyLinked new) = some (s', l'))
    (hholds : s.heap.Holds m) :
    AtomicMap.answer m (.put i.key i.value) = true ∧
      s'.heap.Holds ((Update.put i.key i.value).apply m) := by
  obtain ⟨-, hmoves, -⟩ := (InsertStep.outcome hsound hl hstep).effect
  obtain ⟨⟨hsearched, -, -⟩, hlinked, hnew⟩ := hl.facts
  have hvalue := htracks new rfl
  -- the node is in the list of level 0, and not marked
  obtain ⟨p, hp, -⟩ := hsearched.predecessor 0 le_rfl
  obtain ⟨hmarked, hload⟩ := hlinked 0 p le_rfl (Nat.succ_pos _) hp
  have hlisted : s.heap.Listed 0 new := (hsearched.listed hp hmarked).1.next hload
  have hunmarked : (s.heap.node new).marked = false := by
    by_contra hm
    exact hnew.unpublished _ le_rfl (.inr (by simpa using hm))
  cases hstep
  obtain ⟨hkey, hfully⟩ := And.intro hnew.key hnew.fullyLinked
  rw [← hkey, ← hvalue]
  constructor
  · -- no other node has the key
    cases hm : m (s.heap.node new).key with
    | none => simp [AtomicMap.answer, hm]
    | some old =>
      obtain ⟨n, hn, hnkey, -⟩ := (hholds _ _).mp hm
      obtain rfl := hsound.eq_of_key hn.listed hlisted hn.ne_head hnew.ne_head hnkey
      exact absurd hn.fullyLinked (by simp [hfully])
  · have hlisted' : (s.heap.storeFullyLinked new).Alive new :=
      ⟨(hmoves.listed hlisted).resolve_right fun hm => absurd hm.2 (by simp [hunmarked]),
        hnew.ne_head, by simp, by simpa using hunmarked⟩
    refine hholds.update hmoves hsound hlisted hnew.ne_head (some (s.heap.node new).value)
      (fun q hq => ?_) (fun q _ => value_storeFullyLinked new) fun v => ?_
    · exact hmoves.alive_iff hsound (fun _ heq => hq (Option.some.inj heq).symm)
        (fun _ => by simp) fun _ => by simp [hq]
    · simp [hlisted']

/-- `Delete` of a key that is found. -/
theorem commit_remove {d : Removal K} {held : List NodeId}
    (hl : (Local.remove (V := V) d held .storeMarked).Asserts t s) (hsound : s.heap.Sound)
    (hstep : RemoveStep.step s d held .storeMarked = some (s', l'))
    (hholds : s.heap.Holds m) :
    AtomicMap.answer m (.delete d.key) = true ∧ s'.heap.Holds ((Update.delete d.key).apply m) := by
  obtain ⟨-, hmoves, -⟩ := (RemoveStep.outcome hsound hl hstep).effect
  obtain ⟨⟨-, hvictim, hkey, -⟩, hfully, hunmarked, -⟩ := hl.facts
  have halive : s.heap.Alive d.victim :=
    ⟨hvictim.published.listed hunmarked, hvictim.ne_head, hfully, hunmarked⟩
  cases hstep
  rw [← hkey]
  constructor
  · simp [AtomicMap.answer, hholds.isSome halive]
  · refine hholds.update hmoves hsound halive.listed halive.ne_head none
      (fun q hq => ?_) (fun q _ => value_storeMarked d.victim) fun v => ?_
    · exact hmoves.alive_iff hsound (fun _ hnone => by cases hnone) (fun _ => by simp [hq]) fun _ => by simp
    · refine iff_of_false (fun hnone => by cases hnone) fun hdead => ?_
      exact absurd hdead.1.unmarked (by simp)

end

/-- What a call returns whose update takes effect with this step, and the map afterwards. -/
theorem Local.Asserts.commit {m : K → Option V} {u : Update K V} {b : Bool}
    (hl : l.Asserts t s) (hsound : s.heap.Sound) (htracks : l.Tracks s.heap)
    (hcommits : l.commits = some (u, b)) (hstep : l.step s t choice = some (s', l'))
    (hholds : s.heap.Holds m) : AtomicMap.answer m u = b ∧ s'.heap.Holds (u.apply m) := by
  -- a call takes effect by storing a value, the full link or the mark
  cases l with
  | assign key value existing step =>
    cases step with
    | store =>
      cases hcommits
      exact commit_assign hl hsound htracks hstep hholds
    | _ => cases hcommits
  | insert i held step =>
    cases step with
    | storeFullyLinked new =>
      cases hcommits
      have hstep : InsertStep.step s t choice i held (.storeFullyLinked new) = some (s', l') := hstep
      exact commit_insert hl hsound htracks hstep hholds
    | _ => cases hcommits
  | remove d held step =>
    cases step with
    | storeMarked =>
      cases hcommits
      exact commit_remove hl hsound hstep hholds
    | _ => cases hcommits
  | _ => cases hcommits

end ConcurrentSkipList

end KvStore
