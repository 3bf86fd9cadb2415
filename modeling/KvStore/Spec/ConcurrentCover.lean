import KvStore.Spec.ConcurrentCorrect

/-!
# Nodes in the middle of a Put or Delete

A node of level 0 that is missing at one of its levels, not fully linked, or marked is
the node of some call in flight (`State.Covered`). From what is known at the point of that
call follows that a pointer of a listed node leads to a listed node
(`State.listed_of_load`), and that an idle skip list has none of these nodes.
-/

namespace KvStore

namespace ConcurrentSkipList

open SkipList (head)
open Heap

variable {K V T : Type}

namespace Local

/-- The thread has still to link the node at this level, or has unlinked it. -/
def lacks (n : NodeId) (level : Nat) : Local K V → Prop
  | insert _ _ (.link new lo) => new = n ∧ lo ≤ level
  | remove d _ (.loadNext hi) => d.victim = n ∧ hi < level
  | remove d _ (.unlink hi _) => d.victim = n ∧ hi < level
  | _ => False

/-- The thread is in a block of `Put` or `Delete` that writes to nodes. -/
def Writes : Local K V → Prop
  | assign .. | insert .. | remove .. => True
  | _ => False

/-- The thread has marked the node and not yet unlinked it. -/
def removes (n : NodeId) : Local K V → Prop
  | remove d _ (.loadNext _) => d.victim = n
  | remove d _ (.unlink _ _) => d.victim = n
  | _ => False

/-- The thread has no node that is only partly linked. -/
structure Plain (l : Local K V) : Prop where
  lacks : ∀ n level, ¬ l.lacks n level
  own : l.own = none
  removes : ∀ n, ¬ l.removes n

end Local

/-- What a step of a thread does to the nodes of level 0. -/
structure Keeps (h : Heap K V) (l : Local K V) (h' : Heap K V) (l' : Local K V) : Prop where
  lost : ∀ n level, h'.Listed 0 n → h.Listed level n → h'.Listed level n ∨ l'.lacks n level
  lacks : ∀ n level, h'.Listed 0 n → level ≤ (h'.node n).topLevel → l.lacks n level →
    h'.Listed level n ∨ l'.lacks n level
  gained : ∀ n, h'.Listed 0 n → h.Listed 0 n ∨
    l'.own = some n ∧ (h'.node n).marked = false ∧
      ∀ level, level ≤ (h'.node n).topLevel → h'.Listed level n ∨ l'.lacks n level
  own : ∀ n, l.own = some n → l'.own = some n ∨ (h'.node n).fullyLinked = true
  marks : ∀ n, h.Listed 0 n → (h'.node n).marked = true →
    (h.node n).marked = true ∨ l'.removes n
  removes : ∀ n, h'.Listed 0 n → l.removes n → l'.removes n

section

variable {h h' : Heap K V} {l l' : Local K V}

/-- A step that leaves the lists as they are. -/
theorem Keeps.of_listed (hlisted : ∀ n level, h'.Listed level n ↔ h.Listed level n)
    (hlacks : ∀ n level, l.lacks n level → l'.lacks n level)
    (hown : ∀ n, l.own = some n → l'.own = some n ∨ (h'.node n).fullyLinked = true)
    (hmarks : ∀ n, h.Listed 0 n → (h'.node n).marked = true →
      (h.node n).marked = true ∨ l'.removes n)
    (hremoves : ∀ n, l.removes n → l'.removes n) : Keeps h l h' l' where
  lost n level _ hn := .inl ((hlisted n level).mpr hn)
  lacks n level _ _ hn := .inr (hlacks n level hn)
  gained n hn := .inl ((hlisted n 0).mp hn)
  own := hown
  marks := hmarks
  removes n _ := hremoves n

/-- A step of a thread that has no node. -/
theorem Keeps.of_plain (hl : l.Plain) : Keeps h l h l' :=
  .of_listed (fun _ _ => .rfl) (fun n level hn => absurd hn (hl.lacks n level))
    (fun n hn => absurd (hl.own.symm.trans hn) (by simp)) (fun _ _ => .inl)
    fun n hn => absurd hn (hl.removes n)

/-- A step that leaves the memory as it is, and the thread its node. -/
theorem Keeps.of_own (hlacks : ∀ n level, ¬ l.lacks n level)
    (hown : ∀ n, l.own = some n → l'.own = some n) (hremoves : ∀ n, ¬ l.removes n) :
    Keeps h l h l' :=
  .of_listed (fun _ _ => .rfl) (fun n level hn => absurd hn (hlacks n level))
    (fun n hn => .inl (hown n hn)) (fun _ _ => .inl) fun n hn => absurd hn (hremoves n)

end

variable [LinearOrder K] {s s' : Shared K V T} {t : T} {l l' : Local K V} {choice : Choice K V}

/-- The list of a level keeps its nodes when other pointers are stored. -/
theorem Heap.Sound.listed_create {h : Heap K V} (hsound : h.Sound) {p : NodeId}
    (hfree : h.allocated p = false) {node : Node K V} (n : NodeId) (level : Nat) :
    (h.create p node).Listed level n ↔ h.Listed level n := by
  refine hsound.listed_iff fun n hn => ?_
  have hne : n ≠ p := by
    rintro rfl
    exact absurd (hsound.allocated hn) (by simp [hfree])
  rw [loadForward, node_create_of_ne node hne]
  rfl

/-! ## Put -/

/-- The store that links the new node at a level. -/
theorem keeps_link (hsound : s.heap.Sound) {i : Insertion K V} {held : List NodeId}
    {new p : NodeId} {level : Nat} (hl : (Local.insert i held (.link new level)).Asserts t s)
    (hp : i.found.predecessors level = some p) :
    Keeps s.heap (.insert i held (.link new level)) (s.heap.storeForward p level (some new))
      (.insert i held
        (if level < i.nodeLevel then .link new (level + 1) else .storeFullyLinked new)) := by
  obtain ⟨⟨hsearched, -, -⟩, hlevel, hlinked, hpoints, hnew, hinit⟩ := hl.facts
  obtain ⟨hmarked, hload⟩ := hpoints level p le_rfl (Nat.lt_succ_of_le hlevel) hp
  have hunpublished := hnew.unpublished level le_rfl
  have hlisted : ∀ n level', (s.heap.storeForward p level (some new)).Listed level' n ↔
      s.heap.Listed level' n ∨ level' = level ∧ n = new := fun n level' =>
    hsound.listed_link (hsearched.listed hp hmarked).1 (fun hn => hunpublished (.inl hn))
      ((hinit level le_rfl hlevel).trans hload.symm)
  -- nobody has been able to mark the new node
  have hunmarked : (s.heap.node new).marked = false := by
    by_contra hm
    exact hunpublished (.inr (by simpa using hm))
  -- the levels above this one are left
  have hrest : ∀ level', level ≤ level' → level' ≤ i.nodeLevel →
      (s.heap.storeForward p level (some new)).Listed level' new ∨
        (Local.insert i held (if level < i.nodeLevel then .link new (level + 1)
          else .storeFullyLinked new)).lacks new level' := by
    intro level' hlo hhi
    by_cases heq : level' = level
    · exact .inl ((hlisted new level').mpr (.inr ⟨heq, rfl⟩))
    · rw [if_pos (by omega)]
      exact .inr ⟨rfl, by omega⟩
  exact
    { lost := fun n level' _ hn => .inl ((hlisted n level').mpr (.inl hn))
      lacks := fun n level' _ htop hn => by
        obtain ⟨rfl, hlo⟩ := hn
        rw [topLevel_storeForward, hnew.topLevel] at htop
        exact hrest level' hlo htop
      gained := fun n hn => by
        -- the list of level 0 gains the new node only
        rcases (hlisted n 0).mp hn with hn | ⟨rfl, rfl⟩
        · exact .inl hn
        · refine .inr ⟨?_, by simpa using hunmarked, fun level' htop => ?_⟩
          · split <;> rfl
          · rw [topLevel_storeForward, hnew.topLevel] at htop
            exact hrest level' (Nat.zero_le level') htop
      own := fun n hn => .inl (by split <;> exact hn)
      marks := fun n _ hn => .inl (by simpa using hn)
      removes := fun n _ hn => hn.elim }

/-- `Put` links its node from below: until the last link it lacks the levels above. -/
theorem InsertStep.keeps (hsound : s.heap.Sound) {i : Insertion K V} {held : List NodeId}
    {step : InsertStep} (hl : (Local.insert i held step).Asserts t s)
    (hstep : step.step s t choice i held = some (s', l')) :
    Keeps s.heap (.insert i held step) s'.heap l' := by
  cases step with
  | predecessorMarked level | successorMarked level | forward level =>
    obtain ⟨rfl, -⟩ := InsertStep.step_check rfl hstep
    exact .of_plain ⟨fun _ _ => id, rfl, fun _ => id⟩
  | create =>
    simp only [InsertStep.step] at hstep
    split at hstep
    · split at hstep <;> cases hstep
      rename_i node hfree
      -- the address is free, so it is not in the list
      have hfree : s.heap.allocated node = false := by simpa using hfree
      refine .of_listed (hsound.listed_create hfree) (fun _ _ => False.elim)
        (fun n hn => by cases hn) (fun n hn hm => .inl ?_) fun _ => False.elim
      have hne : n ≠ node := by
        rintro rfl
        exact absurd (hsound.allocated hn) (by simp [hfree])
      rwa [node_create_of_ne _ hne] at hm
    · cases hstep
  | initForward node level =>
    cases hstep
    obtain ⟨-, hlevel, -, hnew, -⟩ := hl.facts
    refine .of_listed (fun n level' => hsound.listed_initForward
      (hnew.unpublished level (Nat.zero_le level)) _) (fun _ _ => False.elim)
      (fun n hn => .inl ?_) (fun n _ hm => .inl (by simpa using hm)) fun _ => False.elim
    split <;> exact hn
  | lockOwnership node =>
    simp only [InsertStep.step] at hstep
    split at hstep <;> cases hstep
    exact .of_own (fun _ _ => id) (fun _ => id) fun _ => id
  | pushOwned node =>
    cases hstep
    exact .of_own (fun _ _ => id) (fun _ => id) fun _ => id
  | unlockOwnership node =>
    cases hstep
    exact .of_own (fun _ _ => id) (fun _ => id) fun _ => id
  | link node level =>
    -- the levels that are left are those above
    simp only [InsertStep.step, Option.bind_eq_bind, Option.bind_eq_some_iff] at hstep
    obtain ⟨p, hp, heq⟩ := hstep
    cases heq
    exact keeps_link hsound hl hp
  | storeFullyLinked node =>
    -- the last thing that the node was lacking
    cases hstep
    refine .of_listed (fun n level => listed_congr (by simp) n) (fun _ _ => False.elim)
      (fun n hn => .inr ?_) (fun n _ hm => .inl (by simpa using hm)) fun _ => False.elim
    exact fullyLinked_storeFullyLinked.mpr (.inl (Option.some.inj hn).symm)
  | addSize node =>
    cases hstep
    exact .of_plain ⟨fun _ _ => id, rfl, fun _ => id⟩
  | loadLevel =>
    cases hstep
    exact .of_plain ⟨fun _ _ => id, rfl, fun _ => id⟩
  | raiseLevel observed =>
    have hplain : (Local.insert i held (.raiseLevel observed)).Plain :=
      ⟨fun _ _ => id, rfl, fun _ => id⟩
    simp only [InsertStep.step] at hstep
    split at hstep
    · cases hstep
      exact .of_plain hplain
    · split at hstep <;> cases hstep <;> exact .of_plain hplain

/-! ## Delete -/

/-- The store that unlinks the victim at a level. -/
theorem keeps_unlink (hsound : s.heap.Sound) {d : Removal K} {held : List NodeId} {p : NodeId}
    {level : Nat} {next : Option NodeId}
    (hl : (Local.remove d held (.unlink level next) : Local K V).Asserts t s)
    (hp : d.found.predecessors level = some p) :
    Keeps s.heap (.remove d held (.unlink level next)) (s.heap.storeForward p level next)
      (.remove d held (.unlinkFrom level)) := by
  obtain ⟨⟨hsearched, -⟩, hunlinking, rfl⟩ := hl.facts
  obtain ⟨hmarked, hload⟩ := hunlinking.below level p (Nat.zero_le level)
    (Nat.lt_succ_self level) hp
  have hlisted : ∀ n level',
      (s.heap.storeForward p level (s.heap.loadForward d.victim level)).Listed level' n ↔
        s.heap.Listed level' n ∧ ¬ (level' = level ∧ n = d.victim) := fun n level' =>
    hsound.listed_unlink (hsearched.listed hp hmarked).1 hload
  refine
    { lost := fun n level' hn0 hn => ?_
      lacks := fun n level' hn0 _ hn => .inr ?_
      gained := fun n hn => .inl ((hlisted n 0).mp hn).1
      own := fun n hn => by cases hn
      marks := fun n _ hn => .inl (by simpa using hn)
      removes := fun n hn0 hn => ?_ }
  · by_cases heq : level' = level ∧ n = d.victim
    · obtain ⟨rfl, rfl⟩ := heq
      -- level 0 comes last: above it, the loop goes on with the levels below
      cases level' with
      | zero => exact absurd ⟨rfl, rfl⟩ ((hlisted _ 0).mp hn0).2
      | succ level => exact .inr ⟨rfl, Nat.lt_succ_self level⟩
    · exact .inl ((hlisted n level').mpr ⟨hn, heq⟩)
  · -- the victim goes on lacking the levels above
    obtain ⟨rfl, hlt⟩ := hn
    cases level with
    | zero => exact absurd ⟨rfl, rfl⟩ ((hlisted _ 0).mp hn0).2
    | succ level => exact ⟨rfl, by omega⟩
  · -- as long as the victim is listed, the call removes it
    obtain rfl : d.victim = n := hn
    cases level with
    | zero => exact absurd ⟨rfl, rfl⟩ ((hlisted _ 0).mp hn0).2
    | succ level => rfl

/-- `Delete` unlinks its victim from above, which stays its own while it is listed. -/
theorem RemoveStep.keeps (hsound : s.heap.Sound) {d : Removal K} {held : List NodeId}
    {step : RemoveStep} (hl : (Local.remove d held step : Local K V).Asserts t s)
    (hstep : step.step s d held = some (s', l')) :
    Keeps s.heap (.remove d held step) s'.heap l' := by
  cases step with
  | fullyLinked | marked | predecessorMarked level | forward level =>
    obtain ⟨rfl, -⟩ := RemoveStep.step_check rfl hstep
    exact .of_plain ⟨fun _ _ => id, rfl, fun _ => id⟩
  | storeMarked =>
    -- the only node that is marked is the victim
    cases hstep
    refine .of_listed (fun n level => listed_congr (by simp) n) (fun _ _ => False.elim)
      (fun n hn => by cases hn) (fun n _ hm => ?_) fun _ => False.elim
    exact (marked_storeMarked.mp hm).symm.imp_right Eq.symm
  | loadNext level =>
    cases hstep
    exact .of_listed (fun _ _ => .rfl) (fun _ _ => id) (fun n hn => by cases hn) (fun _ _ => .inl)
      fun _ => id
  | unlink level next =>
    simp only [RemoveStep.step, Option.bind_eq_bind, Option.bind_eq_some_iff] at hstep
    obtain ⟨p, hp, heq⟩ := hstep
    cases heq
    exact keeps_unlink hsound hl hp
  | subSize =>
    cases hstep
    exact .of_plain ⟨fun _ _ => id, rfl, fun _ => id⟩
  | headForward level =>
    simp only [RemoveStep.step] at hstep
    split at hstep <;> cases hstep <;> exact .of_plain ⟨fun _ _ => id, rfl, fun _ => id⟩
  | storeLevel level =>
    cases hstep
    exact .of_plain ⟨fun _ _ => id, rfl, fun _ => id⟩

/-! ## All steps -/

/-- A reader changes nothing but the mutexes. -/
theorem ReadStep.step_shared {reader : Reader K V} {step : ReadStep}
    (hstep : step.step s t reader = some (s', l')) : ∃ holder, s' = { s with holder } := by
  cases step with
  | lock node =>
    simp only [ReadStep.step, Option.bind_eq_bind, Option.bind_eq_some_iff] at hstep
    obtain ⟨s₁, hlock, heq⟩ := hstep
    cases heq
    obtain ⟨-, rfl⟩ := Shared.lock_eq_some.mp hlock
    exact ⟨_, rfl⟩
  | walk level predecessor | marked node | fullyLinked node | markedLocked node
  | fullyLinkedLocked node =>
    simp only [ReadStep.step] at hstep
    split at hstep <;> cases hstep <;> exact ⟨_, rfl⟩
  | loadLevel | candidate predecessor | value node | next node =>
    cases hstep
    exact ⟨_, rfl⟩

theorem ReadStep.step_heap {reader : Reader K V} {step : ReadStep}
    (hstep : step.step s t reader = some (s', l')) : s'.heap = s.heap := by
  obtain ⟨holder, rfl⟩ := ReadStep.step_shared hstep
  rfl

/-- A step outside of the blocks that write changes nothing but the mutexes. -/
theorem Local.step_shared (hl : ¬ l.Writes) (hstep : l.step s t choice = some (s', l')) :
    ∃ holder, s' = { s with holder } := by
  -- a step that does not write may take or give back a lock, and leaves the nodes alone
  cases l with
  | idle =>
    simp only [Local.step] at hstep
    split at hstep <;> cases hstep
    exact ⟨_, rfl⟩
  | loadLevel update | find update level predecessor found =>
    simp only [Local.step, Option.bind_eq_bind, Option.bind_eq_some_iff] at hstep
    obtain ⟨l'', -, heq⟩ := hstep
    cases heq
    exact ⟨_, rfl⟩
  | randomLevel key value found =>
    simp only [Local.step] at hstep
    split at hstep
    · split at hstep <;> cases hstep
      exact ⟨_, rfl⟩
    · cases hstep
  | lockNodes plan held rest =>
    simp only [Local.step] at hstep
    split at hstep
    · simp only [Option.bind_eq_bind, Option.bind_eq_some_iff] at hstep
      obtain ⟨s₁, hlock, heq⟩ := hstep
      cases heq
      obtain ⟨-, rfl⟩ := Shared.lock_eq_some.mp hlock
      exact ⟨_, rfl⟩
    · split at hstep <;> cases hstep <;> exact ⟨_, rfl⟩
  | assign key value existing step => exact absurd trivial hl
  | insert i held step => exact absurd trivial hl
  | remove d held step => exact absurd trivial hl
  | read reader step => exact ReadStep.step_shared hstep
  | unlock held next =>
    simp only [Local.step] at hstep
    split at hstep <;> cases hstep <;> exact ⟨_, rfl⟩
  | returning call answer =>
    cases hstep
    exact ⟨_, rfl⟩

omit [LinearOrder K] in
/-- `Put` on a key that is found leaves the nodes of level 0 alone. -/
theorem AssignStep.keeps {key : K} {value : V} {existing : NodeId} {step : AssignStep}
    (hstep : step.step s t key value existing = some (s', l')) :
    Keeps s.heap (.assign key value existing step) s'.heap l' := by
  cases step with
  | lock =>
    simp only [AssignStep.step, Option.bind_eq_bind, Option.bind_eq_some_iff] at hstep
    obtain ⟨s₁, hlock, heq⟩ := hstep
    cases heq
    obtain ⟨-, rfl⟩ := Shared.lock_eq_some.mp hlock
    exact .of_plain ⟨fun _ _ => id, rfl, fun _ => id⟩
  | store =>
    cases hstep
    exact .of_listed (fun n level => listed_congr (by simp) n) (fun _ _ => False.elim)
      (fun n hn => by cases hn) (fun n _ hm => .inl (by simpa using hm)) fun _ => False.elim
  | marked | fullyLinked =>
    simp only [AssignStep.step] at hstep
    split at hstep <;> cases hstep <;> exact .of_plain ⟨fun _ _ => id, rfl, fun _ => id⟩

/-- What every step does to the nodes of level 0. -/
theorem Local.Asserts.keeps (hl : l.Asserts t s) (hsound : s.heap.Sound)
    (hstep : l.step s t choice = some (s', l')) : Keeps s.heap l s'.heap l' := by
  cases l with
  | assign key value existing step => exact AssignStep.keeps hstep
  | insert i held step => exact InsertStep.keeps hsound hl hstep
  | remove d held step => exact RemoveStep.keeps hsound hl hstep
  | _ =>
    obtain ⟨holder, rfl⟩ := Local.step_shared id hstep
    exact .of_plain ⟨fun _ _ => id, rfl, fun _ => id⟩

/-! ## Runs -/

namespace State

variable [DecidableEq T] {s s' : State K V T} {label : T × Choice K V} {maxLevel : Nat}
  {address : NodeId ↪ Nat}

/-- The nodes of level 0 that are not as a finished `Put` leaves them, and the mutexes that
    are taken, are those of calls in flight. -/
structure Covered (s : State K V T) : Prop where
  levels : ∀ n level, s.shared.heap.Listed 0 n → level ≤ (s.shared.heap.node n).topLevel →
    s.shared.heap.Listed level n ∨ ∃ t, (s.thread t).lacks n level
  fullyLinked : ∀ n, s.shared.heap.Listed 0 n → n ≠ head →
    (s.shared.heap.node n).fullyLinked = true ∨ ∃ t, (s.thread t).own = some n
  unmarked : ∀ n, s.shared.heap.Listed 0 n → (s.shared.heap.node n).marked = true →
    ∃ t, (s.thread t).removes n
  held : ∀ n t, s.shared.holder n = some t → n ∈ (s.thread t).held

omit [LinearOrder K] [DecidableEq T] in
/-- An empty list has no nodes to cover. -/
theorem covered_new [Inhabited K] [Inhabited V] (maxLevel : Nat) (address : NodeId ↪ Nat) :
    (new maxLevel address : State K V T).Covered := by
  have hlisted : ∀ n, (new maxLevel address : State K V T).shared.heap.Listed 0 n → n = head := by
    intro n hn
    have hempty : (new maxLevel address : State K V T).shared.heap.Lists 0 [] := rfl
    exact List.mem_singleton.mp (hempty.listed_iff.mp hn)
  exact
    { levels := fun n level hn _ => .inl (hlisted n hn ▸ ⟨[], rfl, List.mem_cons_self⟩)
      fullyLinked := fun n hn hne => absurd (hlisted n hn) hne
      unmarked := fun n _ hm => by cases hm
      held := fun n t hn => by cases hn }

/-- A step of any thread leaves every unfinished node to a call in flight. -/
theorem Covered.step (hcovered : s.Covered) (houtline : outline.Holds s.shared s.thread)
    (hstep : Step s label s') : s'.Covered := by
  have hsound : s.shared.heap.Sound := houtline.inv
  obtain ⟨shared, pc, hlocal, rfl⟩ := step_iff.mp hstep
  have hl := houtline.asserts label.1
  obtain ⟨⟨hsound', hmoves, -⟩, -, hholder, hholder', -⟩ := hl.outcome hsound hlocal
  have hkeeps := hl.keeps hsound hlocal
  -- the thread that stands at a point does not move, or it is the one that makes the step
  have hthread : ∀ {P : Local K V → Prop}, (∃ t, P (s.thread t)) →
      (P (s.thread label.1) → P pc) → ∃ t, P (Function.update s.thread label.1 pc t) := by
    rintro P ⟨t, ht⟩ hown
    by_cases heq : t = label.1
    · subst heq
      exact ⟨_, by rw [Function.update_self]; exact hown ht⟩
    · exact ⟨t, by rwa [Function.update_of_ne heq]⟩
  have hself : ∀ {P : Local K V → Prop}, P pc →
      ∃ t, P (Function.update s.thread label.1 pc t) :=
    fun hP => ⟨label.1, by rwa [Function.update_self]⟩
  refine
    { levels := fun n level hn htop => ?_
      fullyLinked := fun n hn hne => ?_
      unmarked := fun n hn hmarked => ?_
      held := fun n t hn => ?_ }
  · rcases hkeeps.gained n hn with hold | ⟨-, -, hlevels⟩
    · -- a level that was missing has a thread that owes it, and a level that is lost gets one
      have htop' := hmoves.topLevel (hsound.allocated hold) ▸ htop
      rcases hcovered.levels n level hold htop' with hlisted | ⟨t, ht⟩
      · exact (hkeeps.lost n level hn hlisted).imp_right fun h => hself h
      · by_cases heq : t = label.1
        · subst heq
          exact (hkeeps.lacks n level hn htop ht).imp_right fun h => hself h
        · exact .inr ⟨t, by dsimp only; rwa [Function.update_of_ne heq]⟩
    · -- the node has just been linked at level 0
      exact (hlevels level htop).imp_right fun h => hself h
  · rcases hkeeps.gained n hn with hold | ⟨hown, -⟩
    · rcases hcovered.fullyLinked n hold hne with hfully | ⟨t, ht⟩
      · exact .inl (hmoves.fullyLinked (hsound.allocated hold) hfully)
      · by_cases heq : t = label.1
        · subst heq
          exact (hkeeps.own n ht).symm.imp_right (@hself fun l => l.own = some n)
        · exact .inr ⟨t, by dsimp only; rwa [Function.update_of_ne heq]⟩
    · exact .inr (@hself (fun l => l.own = some n) hown)
  · rcases hkeeps.gained n hn with hold | ⟨-, hunmarked, -⟩
    · -- marked before, or by this step
      rcases hkeeps.marks n hold hmarked with hm | hpc
      · exact hthread (hcovered.unmarked n hold hm) (hkeeps.removes n hn)
      · exact hself hpc
    · exact absurd hmarked (by simp [hunmarked])
  · dsimp only at hn ⊢
    rcases hholder' t n hn with ⟨hold, hmem⟩ | ⟨rfl, hmem⟩
    · by_cases heq : t = label.1
      · subst heq
        rw [Function.update_self]
        exact hmem rfl (hcovered.held n _ hold)
      · rw [Function.update_of_ne heq]
        exact hcovered.held n t hold
    · rwa [Function.update_self]

theorem covered_of_run [Inhabited K] [Inhabited V] {ok : State K V T → T × Choice K V → Prop}
    (h : Run Step ok (new maxLevel address) s) : s.Covered := by
  induction h with
  | refl => exact covered_new maxLevel address
  | tail label run _ hstep ih => exact ih.step (outline_of_run run) hstep

omit [DecidableEq T] in
/-- The pointers of a listed node lead to listed nodes, also where it is not linked itself. -/
theorem listed_of_load (hcovered : s.Covered) (houtline : outline.Holds s.shared s.thread)
    {n q : NodeId} {level : Nat} (hn : s.shared.heap.Listed 0 n)
    (hload : s.shared.heap.loadForward n level = some q) : s.shared.heap.Listed level q := by
  have hsound : s.shared.heap.Sound := houtline.inv
  have hlevel : s.shared.heap.Listed level n ∨ ∃ t, (s.thread t).lacks n level := by
    rcases (hsound.leads (hsound.allocated hn) hload).height with rfl | htop
    · exact .inl (hsound.listed_head level)
    · exact hcovered.levels n level hn htop
  rcases hlevel with hlisted | ⟨t, ht⟩
  · exact hlisted.next hload
  -- a thread is linking the node at this level, or has unlinked it there; the predecessor that
  -- it has locked points to the same node
  have hl := houtline.asserts t
  cases hpc : s.thread t with
  | insert i held step =>
    rw [hpc] at hl ht
    cases step with
    | link new lo =>
      obtain ⟨rfl, hlo⟩ := ht
      obtain ⟨⟨hsearched, -, -⟩, -, -, hpoints, hnew, hinit⟩ := hl.facts
      have htop : level ≤ i.nodeLevel := by
        rcases (hsound.leads (hsound.allocated hn) hload).height with heq | htop
        · exact absurd heq hnew.ne_head
        · exact hnew.topLevel ▸ htop
      obtain ⟨p, hp, -⟩ := hsearched.predecessor level (Nat.zero_le level)
      obtain ⟨hmarked, heq⟩ := hpoints level p hlo (by omega) hp
      rw [← hinit level hlo htop, hload] at heq
      exact (hsearched.listed hp hmarked).1.next heq
    | _ => exact ht.elim
  | remove d held step =>
    rw [hpc] at hl ht
    obtain ⟨⟨hsearched, hvictim, -⟩, hfacts⟩ := hl.facts
    have hunlinking : ∀ {hi}, d.Unlinking s.shared.heap hi → d.victim = n → hi < level →
        s.shared.heap.Listed level q := by
      rintro hi hunlinking rfl hhi
      have htop : level ≤ (s.shared.heap.node d.victim).topLevel :=
        (hsound.leads hvictim.allocated hload).height.resolve_left hvictim.ne_head
      obtain ⟨p, hp, -⟩ := hsearched.predecessor level (Nat.zero_le level)
      obtain ⟨hmarked, heq⟩ := hunlinking.above level p hhi (by omega) hp
      exact (hsearched.listed hp hmarked).1.next (heq.trans hload)
    cases step with
    | loadNext hi => exact hunlinking hfacts ht.1 ht.2
    | unlink hi next => exact hunlinking hfacts.1 ht.1 ht.2
    | _ => exact ht.elim
  | _ =>
    rw [hpc] at ht
    exact ht.elim

omit [LinearOrder K] [DecidableEq T] in
/-- When no operation is in flight, no node of the list is marked. -/
theorem Quiescent.unmarked (hquiescent : s.Quiescent) (hcovered : s.Covered) {n : NodeId}
    (hn : s.shared.heap.Listed 0 n) : (s.shared.heap.node n).marked = false := by
  by_contra hmarked
  obtain ⟨t, ht⟩ := hcovered.unmarked n hn (by simpa using hmarked)
  exact (hquiescent t ▸ ht : Local.removes n (.idle : Local K V))

omit [LinearOrder K] [DecidableEq T] in
/-- When no operation is in flight, every node of the list is linked at all its levels, and
    fully linked. -/
theorem Quiescent.settled (hquiescent : s.Quiescent) (hcovered : s.Covered) {n : NodeId}
    (hn : s.shared.heap.Listed 0 n) (hne : n ≠ head) :
    (∀ level, level ≤ (s.shared.heap.node n).topLevel → s.shared.heap.Listed level n) ∧
      (s.shared.heap.node n).fullyLinked = true := by
  refine ⟨fun level htop => ?_, ?_⟩
  · refine (hcovered.levels n level hn htop).resolve_right ?_
    rintro ⟨t, ht⟩
    exact (hquiescent t ▸ ht : Local.lacks n level (.idle : Local K V))
  · refine (hcovered.fullyLinked n hn hne).resolve_right ?_
    rintro ⟨t, ht⟩
    rw [hquiescent t] at ht
    cases ht

omit [LinearOrder K] [DecidableEq T] in
/-- When no operation is in flight, no mutex is taken. -/
theorem Quiescent.unlocked (hquiescent : s.Quiescent) (hcovered : s.Covered) (n : NodeId) :
    s.shared.holder n = none := by
  cases hn : s.shared.holder n with
  | none => rfl
  | some t =>
    have hmem := hcovered.held n t hn
    rw [hquiescent t] at hmem
    cases hmem

end State

end ConcurrentSkipList

end KvStore
