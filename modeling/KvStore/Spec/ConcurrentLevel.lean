import KvStore.Spec.ConcurrentBounds

/-!
# The active level

A level at which the head has a successor lies below `current_level_`, or some `Put` in
flight has still to raise `current_level_` above it (`State.Raised`). Every step keeps this
but one: `RecomputeCurrentLevel` stores the level that its scan of the head has found
without looking again. In runs whose stores are not too low (`State.StoresEnough`), no node
of an idle list is higher than `current_level_`, and a `Delete` that runs alone succeeds at
its first attempt.
-/

namespace KvStore

namespace ConcurrentSkipList

open SkipList (head keysEqual_eq)
open Heap

variable {K V T : Type}

namespace Local

/-- The thread has still to raise `current_level_` above this level. -/
def raises (level : Nat) : Local K V → Prop
  | insert i _ .create => level ≤ i.nodeLevel
  | insert i _ (.initForward _ _) => level ≤ i.nodeLevel
  | insert i _ (.lockOwnership _) => level ≤ i.nodeLevel
  | insert i _ (.pushOwned _) => level ≤ i.nodeLevel
  | insert i _ (.unlockOwnership _) => level ≤ i.nodeLevel
  | insert i _ (.link _ _) => level ≤ i.nodeLevel
  | insert i _ (.storeFullyLinked _) => level ≤ i.nodeLevel
  | insert i _ (.addSize _) => level ≤ i.nodeLevel
  | insert i _ .loadLevel => level ≤ i.nodeLevel
  | insert i _ (.raiseLevel _) => level ≤ i.nodeLevel
  | _ => False

/-- The level that the next step of the thread stores in `RecomputeCurrentLevel`. -/
def storesLevel : Local K V → Option Nat
  | remove _ _ (.storeLevel level) => some level
  | _ => none

end Local

/-- What a step of a thread that is not a store of `RecomputeCurrentLevel` does to the active
    level and the levels of the head. -/
structure Raises (s : Shared K V T) (l : Local K V) (s' : Shared K V T) (l' : Local K V) :
    Prop where
  linked : ∀ level, s'.heap.loadForward head level ≠ none →
    s.heap.loadForward head level ≠ none ∨ l'.raises level
  raises : ∀ level, l.raises level → l'.raises level ∨ level < s'.currentLevel
  le : s.currentLevel ≤ s'.currentLevel

section

variable {s s' : Shared K V T} {t : T} {l l' : Local K V} {choice : Choice K V}

/-- A step that concerns neither the head nor the active level. -/
theorem Raises.of_head (hload : ∀ level,
      s'.heap.loadForward head level = s.heap.loadForward head level)
    (hlevel : s'.currentLevel = s.currentLevel)
    (hraises : ∀ level, l.raises level → l'.raises level) : Raises s l s' l' where
  linked level hne := .inl (hload level ▸ hne)
  raises level hl := .inl (hraises level hl)
  le := hlevel.ge

/-- A load of a thread that has nothing to raise. -/
theorem Raises.load (hl : ∀ level, ¬ l.raises level) : Raises s l s l' :=
  .of_head (fun _ => rfl) rfl fun level h => absurd h (hl level)

variable [LinearOrder K]

/-- `Put`: a level at which it links its node behind the head is one that it raises
    `current_level_` above. -/
theorem InsertStep.raises (hsound : s.heap.Sound) {i : Insertion K V} {held : List NodeId}
    {step : InsertStep} (hl : (Local.insert i held step).Asserts t s)
    (hstep : step.step s t choice i held = some (s', l')) :
    Raises s (.insert i held step) s' l' := by
  -- the level that is loaded is high enough, or it is raised next
  have hraise : Raises s (.insert i held .loadLevel) s (i.raise held s.currentLevel) := by
    refine ⟨fun _ => .inl, fun level hlevel => ?_, le_rfl⟩
    have hlevel : level ≤ i.nodeLevel := hlevel
    unfold Insertion.raise
    split
    · exact .inl hlevel
    · exact .inr (by omega)
  cases step with
  | predecessorMarked level | successorMarked level | forward level =>
    obtain ⟨rfl, -⟩ := InsertStep.step_check rfl hstep
    exact .load fun _ => id
  | create =>
    -- the head is not what is created
    simp only [InsertStep.step] at hstep
    split at hstep
    · split at hstep <;> cases hstep
      rename_i node hfree
      have hne : head ≠ node := by
        rintro rfl
        exact hfree hsound.head
      refine .of_head (fun level => ?_) rfl fun _ => id
      rw [loadForward, node_create_of_ne _ hne]
      rfl
    · cases hstep
  | initForward node level =>
    -- the pointers of a new node are not the head's
    cases hstep
    obtain ⟨-, -, -, hnew, -⟩ := hl.facts
    refine .of_head (fun level' => ?_) rfl fun level' hlevel => ?_
    · rw [loadForward_storeForward, if_neg]
      exact fun heq => hnew.ne_head heq.1.symm
    · split <;> exact hlevel
  | lockOwnership node =>
    simp only [InsertStep.step] at hstep
    split at hstep <;> cases hstep
    exact .of_head (fun _ => rfl) rfl fun _ => id
  | pushOwned node =>
    cases hstep
    exact .of_head (fun _ => rfl) rfl fun _ => id
  | unlockOwnership node =>
    cases hstep
    exact .of_head (fun _ => rfl) rfl fun _ => id
  | link node level =>
    simp only [InsertStep.step, Option.bind_eq_bind, Option.bind_eq_some_iff] at hstep
    obtain ⟨p, hp, heq⟩ := hstep
    cases heq
    obtain ⟨-, hlevel, -⟩ := hl.facts
    have hkept : ∀ level', level' ≤ i.nodeLevel → (Local.insert i held
        (if level < i.nodeLevel then .link node (level + 1)
          else .storeFullyLinked node)).raises level' := by
      intro level' hle
      split <;> exact hle
    refine ⟨fun level' hne => ?_, fun level' hle => .inl (hkept level' hle), le_rfl⟩
    rw [loadForward_storeForward] at hne
    split at hne
    · -- the new node is behind the head
      rename_i heq
      exact .inr (hkept level' (heq.2 ▸ hlevel))
    · exact .inl hne
  | storeFullyLinked node =>
    cases hstep
    exact .of_head (by simp) rfl fun _ => id
  | addSize node =>
    cases hstep
    exact .of_head (fun _ => rfl) rfl fun _ => id
  | loadLevel =>
    cases hstep
    exact hraise
  | raiseLevel observed =>
    obtain ⟨-, hobserved⟩ := hl.facts
    have hobserved : observed ≤ i.nodeLevel := hobserved
    have hagain : Raises s (.insert i held (.raiseLevel observed)) s
        (i.raise held s.currentLevel) := ⟨hraise.linked, hraise.raises, le_rfl⟩
    simp only [InsertStep.step] at hstep
    split at hstep
    · cases hstep
      exact hagain
    · split at hstep
      · -- the exchange succeeds: all levels of the node are active now
        rename_i heq
        cases hstep
        refine ⟨fun _ => .inl, fun level hlevel => .inr ?_, ?_⟩
        · exact Nat.lt_succ_of_le hlevel
        · show s.currentLevel ≤ i.nodeLevel + 1
          omega
      · cases hstep
        exact hagain

/-- `Delete` takes successors from the head and gives it none. -/
theorem RemoveStep.raises {d : Removal K} {held : List NodeId} {step : RemoveStep}
    (hl : (Local.remove d held step : Local K V).Asserts t s)
    (hstep : step.step s d held = some (s', l'))
    (hstore : (Local.remove d held step : Local K V).storesLevel = none) :
    Raises s (.remove d held step) s' l' := by
  cases step with
  | fullyLinked | marked | predecessorMarked level | forward level =>
    obtain ⟨rfl, -⟩ := RemoveStep.step_check rfl hstep
    exact .load fun _ => id
  | storeMarked =>
    cases hstep
    exact .of_head (by simp) rfl fun _ => False.elim
  | loadNext level =>
    cases hstep
    exact .load fun _ => id
  | unlink level next =>
    simp only [RemoveStep.step, Option.bind_eq_bind, Option.bind_eq_some_iff] at hstep
    obtain ⟨p, hp, heq⟩ := hstep
    cases heq
    obtain ⟨-, hunlinking, -⟩ := hl.facts
    have hload := (hunlinking.below level p (Nat.zero_le level) (Nat.lt_succ_self level) hp).2
    refine ⟨fun level' hne => .inl ?_, fun _ => False.elim, le_rfl⟩
    rw [loadForward_storeForward] at hne
    split at hne
    · -- the head has pointed to the victim
      rename_i heq
      obtain ⟨rfl, rfl⟩ := heq
      simp [hload]
    · exact hne
  | subSize =>
    cases hstep
    exact .of_head (fun _ => rfl) rfl fun _ => False.elim
  | headForward level =>
    simp only [RemoveStep.step] at hstep
    split at hstep <;> cases hstep <;> exact .load fun _ => id
  -- this is the store that is left out
  | storeLevel level => cases hstore

omit [LinearOrder K] in
/-- `Put` on a key that is found concerns neither the head nor the active level. -/
theorem AssignStep.raises {key : K} {value : V} {existing : NodeId} {step : AssignStep}
    (hstep : step.step s t key value existing = some (s', l')) :
    Raises s (.assign key value existing step) s' l' := by
  cases step with
  | lock =>
    simp only [AssignStep.step, Option.bind_eq_bind, Option.bind_eq_some_iff] at hstep
    obtain ⟨s₁, hlock, heq⟩ := hstep
    cases heq
    obtain ⟨-, rfl⟩ := Shared.lock_eq_some.mp hlock
    exact .of_head (fun _ => rfl) rfl fun _ => False.elim
  | store =>
    cases hstep
    exact .of_head (by simp) rfl fun _ => False.elim
  | marked | fullyLinked =>
    simp only [AssignStep.step] at hstep
    split at hstep <;> cases hstep <;> exact .load fun _ => id

/-- Every step but the store of `RecomputeCurrentLevel`. -/
theorem Local.Asserts.raises_step (hl : l.Asserts t s) (hsound : s.heap.Sound)
    (hstep : l.step s t choice = some (s', l')) (hstore : l.storesLevel = none) :
    Raises s l s' l' := by
  cases l with
  | assign key value existing step => exact AssignStep.raises hstep
  | insert i held step => exact InsertStep.raises hsound hl hstep
  | remove d held step => exact RemoveStep.raises hl hstep hstore
  | _ =>
    obtain ⟨holder, rfl⟩ := Local.step_shared id hstep
    exact .of_head (fun _ => rfl) rfl fun _ => False.elim

end

namespace State

variable [LinearOrder K] [DecidableEq T] {s s' : State K V T} {label : T × Choice K V}
  {maxLevel : Nat} {address : NodeId ↪ Nat}

/-- A level of the head is active, or will be. -/
def Active (s : State K V T) (level : Nat) : Prop :=
  level < s.shared.currentLevel ∨ ∃ t, (s.thread t).raises level

/-- Every level at which the head has a successor is active. -/
def Raised (s : State K V T) : Prop :=
  ∀ level, s.shared.heap.loadForward head level ≠ none → s.Active level

/-- A step that, if it stores in `RecomputeCurrentLevel` the level that the scan of the head
    has found, does not leave behind a level at which the head has a successor by now, and
    above which no `Put` in flight has still to raise `current_level_`. -/
def StoresEnough (s : State K V T) (label : T × Choice K V) : Prop :=
  ∀ stored level, (s.thread label.1).storesLevel = some stored → stored ≤ level →
    s.shared.heap.loadForward head level ≠ none → ∃ t, (s.thread t).raises level

/-- A step keeps the levels of the head active, if it is no store that is too low. -/
theorem Raised.step (hraised : s.Raised) (houtline : outline.Holds s.shared s.thread)
    (hok : s.StoresEnough label) (hstep : Step s label s') : s'.Raised := by
  obtain ⟨shared, pc, hlocal, rfl⟩ := step_iff.mp hstep
  have hl := houtline.asserts label.1
  -- what another thread has still to do is not changed
  have hother : ∀ {t level}, t ≠ label.1 → (s.thread t).raises level →
      ∃ u, (Function.update s.thread label.1 pc u).raises level :=
    fun {t level} hne ht => ⟨t, by rwa [Function.update_of_ne hne]⟩
  intro level hne
  cases hstore : (s.thread label.1).storesLevel with
  | none =>
    have hraises := hl.raises_step houtline.inv hlocal hstore
    have hself : pc.raises level →
        ∃ u, (Function.update s.thread label.1 pc u).raises level :=
      fun h => ⟨label.1, by rwa [Function.update_self]⟩
    rcases hraises.linked level hne with hold | hpc
    · -- the head had a successor there before
      rcases hraised level hold with hlt | ⟨t, ht⟩
      · exact .inl (hlt.trans_le hraises.le)
      · by_cases heq : t = label.1
        · subst heq
          exact (hraises.raises level ht).symm.imp_right hself
        · exact .inr (hother heq ht)
    · -- the step has linked one, and its `Put` raises the level later
      exact .inr (hself hpc)
  | some stored =>
    -- the store of `RecomputeCurrentLevel`
    revert hstore
    cases hremove : s.thread label.1 with
    | remove d held step =>
      cases step with
      | storeLevel level' =>
        intro hstore
        rw [hremove] at hlocal
        cases hlocal
        by_cases hlt : level < level'
        · exact .inl hlt
        · obtain ⟨t, ht⟩ := hok level' level (by rw [hremove]; rfl) (by omega) hne
          refine .inr (hother ?_ ht)
          rintro rfl
          rw [hremove] at ht
          exact ht
      | _ => exact fun hstore => by cases hstore
    | _ => exact fun hstore => by cases hstore

theorem raised_of_run [Inhabited K] [Inhabited V] (h : Run Step StoresEnough (new maxLevel address) s) :
    s.Raised := by
  induction h with
  | refl => exact fun level hne => absurd rfl hne
  | tail label run hok hstep ih => exact ih.step (outline_of_run run) hok hstep

omit [LinearOrder K] [DecidableEq T] in
/-- When no operation is in flight, no node of the list is higher than the active level. -/
theorem Quiescent.top_lt (hquiescent : s.Quiescent) (hcovered : s.Covered) (hraised : s.Raised)
    {n : NodeId} (hn : s.shared.heap.Listed 0 n) (hne : n ≠ head) :
    (s.shared.heap.node n).topLevel < s.shared.currentLevel := by
  obtain ⟨cells, hlists, hmem⟩ := (hquiescent.settled hcovered hn hne).1 _ le_rfl
  have hcells : n ∈ cells := (List.mem_cons.mp hmem).resolve_left hne
  -- the list of the highest level of the node is not empty
  have hload : s.shared.heap.loadForward head (s.shared.heap.node n).topLevel ≠ none := by
    have heq := Option.some.inj hlists.load_eq
    rw [heq]
    cases cells with
    | nil => cases hcells
    | cons c rest => simp
  refine (hraised _ hload).resolve_right ?_
  rintro ⟨t, ht⟩
  rw [hquiescent t] at ht
  exact ht

end State

/-! ## A call that runs alone -/

/-- The call is about to start again. -/
def Local.refuses : Local K V → Bool
  | unlock _ (.retry _) => true
  | _ => false

/-- The steps of the thread `t` while nobody else makes any, up to where its call starts again. -/
def Alone [LinearOrder K] (t : T) : Shared K V T × Local K V → Shared K V T × Local K V → Prop :=
  Run (fun x (_ : Unit) y => x.2.step x.1 t .go = some y) fun x _ => x.2.refuses = false

section

variable [LinearOrder K] {h : Heap K V} {s s' : Shared K V T} {t : T} {l : Local K V}
  {x y : Shared K V T × Local K V} {p n : NodeId} {level : Nat}

theorem Alone.refl : Alone t x x := Run.refl

/-- A call that runs alone makes its next step. -/
theorem Alone.step (hstep : l.step s t .go = some x) (hok : l.refuses = false) (h : Alone t x y) :
    Alone t (s, l) y :=
  Run.trans (.tail () .refl hok hstep) h

/-- The search walks along a level up to the last node before the key. -/
theorem alone_walk {update : Update K V} {found : FindResult} {cells : List NodeId}
    (hpath : PtrPath (s.heap.load level) p cells) (hp : s.heap.Listed level p)
    (hbefore : s.heap.Before p update.key) :
    ∃ p', s.heap.Listed level p' ∧ s.heap.Before p' update.key ∧
      s.heap.passes update.key (s.heap.loadForward p' level) = none ∧
      Alone t (s, .find update level p found) (s, .find update level p' found) := by
  -- on the nodes that are left of the level
  induction cells generalizing p with
  | nil =>
    have hload : s.heap.loadForward p level = none := Option.some.inj hpath
    exact ⟨p, hp, hbefore, by rw [hload]; rfl, .refl⟩
  | cons q cells ih =>
    have hload : s.heap.loadForward p level = some q := Option.some.inj hpath.1
    cases hpasses : s.heap.passes update.key (s.heap.loadForward p level) with
    | none => exact ⟨p, hp, hbefore, hpasses, .refl⟩
    | some node =>
      obtain ⟨hnode, hlt⟩ := passes_eq_some.mp hpasses
      obtain rfl : q = node := Option.some.inj (hload.symm.trans hnode)
      obtain ⟨p', hp', hbefore', hstop, halone⟩ := ih hpath.2 (hp.next hload) (.inr hlt)
      refine ⟨p', hp', hbefore', hstop, .step ?_ rfl halone⟩
      simp only [Local.step, findStep, hpasses]
      rfl

/-- What a search that is not disturbed has found on the levels from `lo` on, below the active
    level `hi`. -/
structure Found (h : Heap K V) (key : K) (found : FindResult) (lo hi : Nat) : Prop where
  searched : h.Searched key found lo
  exact_below : ∀ level, lo ≤ level → level < hi → ∃ p, found.predecessors level = some p ∧
    h.Listed level p ∧ h.Before p key ∧ h.passes key (h.loadForward p level) = none ∧
    found.successors level = h.loadForward p level
  above : ∀ level, hi ≤ level → found.successors level = none

omit [LinearOrder K] in
/-- A `Delete` can always go on behind `FindNode`. -/
theorem exists_afterFind (h : Heap K V) (found : FindResult) (key : K) :
    ∃ l, afterFind h found (.delete key) = some l := by
  unfold afterFind
  cases found.foundLevel with
  | none => exact ⟨_, rfl⟩
  | some level =>
    dsimp only
    cases found.successors level with
    | none => exact ⟨_, rfl⟩
    | some victim => exact ⟨_, rfl⟩

omit [LinearOrder K] in
/-- A `Delete` can always go down a level. -/
theorem exists_findFrom (h : Heap K V) (found : FindResult) (key : K) (p : NodeId)
    (level : Nat) : ∃ l, findFrom h (.delete key) found p level = some l := by
  cases level with
  | zero => exact exists_afterFind h found key
  | succ level => exact ⟨_, rfl⟩

/-- `FindNode` when nobody disturbs it. -/
theorem alone_find {key : K} {found : FindResult} {hi : Nat} (hsound : s.heap.Sound)
    (hfound : Found s.heap key found level hi) (hle : level ≤ hi)
    (hp : s.heap.Listed (level - 1) p) (hbefore : s.heap.Before p key)
    (hfrom : findFrom s.heap (.delete key) found p level = some l) :
    ∃ found' l', Found s.heap key found' 0 hi ∧
      afterFind s.heap found' (.delete key) = some l' ∧ Alone t (s, l) (s, l') := by
  -- down the levels; on each, along the nodes in front of the key
  induction level generalizing found p l with
  | zero => exact ⟨found, l, hfound, hfrom, .refl⟩
  | succ level ih =>
    cases hfrom
    obtain ⟨cells, hlists, hmem⟩ := hp
    obtain ⟨front, rest, rfl, rfl⟩ := PtrPath.exists_front hmem
    have hwalk : ∃ p', s.heap.Listed level p' ∧ s.heap.Before p' key ∧
        s.heap.passes key (s.heap.loadForward p' level) = none ∧
        Alone t (s, .find (.delete key) level (front.getLastD head) found)
          (s, .find (.delete key) level p' found) :=
      @alone_walk _ _ _ _ s t _ level (.delete key) found rest hlists.suffix
        ⟨_, hlists, hmem⟩ hbefore
    obtain ⟨p', hp', hbefore', hstop, halone⟩ := hwalk
    -- the level is done
    have hreached : s.heap.Reached level p' key :=
      ⟨hsound.allocated hp', .inl hp', hbefore'⟩
    have hdone := hsound.searched_level hfound.searched hreached hstop
    obtain ⟨l₁, hl₁⟩ := exists_findFrom s.heap
      { foundLevel :=
          if found.foundLevel.isNone && s.heap.holdsKey key (s.heap.loadForward p' level) then
            some level
          else found.foundLevel
        predecessors := Function.update found.predecessors level (some p')
        successors := Function.update found.successors level (s.heap.loadForward p' level) }
      key p' level
    have hbelow : ∀ l, level ≤ l → l < hi →
        ∃ q, Function.update found.predecessors level (some p') l = some q ∧
          s.heap.Listed l q ∧ s.heap.Before q key ∧
          s.heap.passes key (s.heap.loadForward q l) = none ∧
          Function.update found.successors level (s.heap.loadForward p' level) l =
            s.heap.loadForward q l := by
      intro l hlo hhi
      by_cases heq : l = level
      · subst heq
        exact ⟨p', Function.update_self .., hp', hbefore', hstop, Function.update_self ..⟩
      · -- the entries of the levels above are kept
        obtain ⟨q, hq, hlisted, hqbefore, hqstop, hsucc⟩ :=
          hfound.exact_below l (by omega) hhi
        exact ⟨q, (Function.update_of_ne heq _ _).trans hq, hlisted, hqbefore, hqstop,
          (Function.update_of_ne heq _ _).trans hsucc⟩
    -- above the active levels the vectors hold the head
    have habove : ∀ l, hi ≤ l →
        Function.update found.successors level (s.heap.loadForward p' level) l = none :=
      fun l hl => (Function.update_of_ne (by omega) _ _).trans (hfound.above l hl)
    have hlocal : (Local.find (.delete key) level p' found).step s t .go = some (s, l₁) := by
      show (do some (s, ← findStep s.heap (.delete key) level p' found
        (s.heap.loadForward p' level))) = some (s, l₁)
      unfold findStep
      rw [show s.heap.passes (Update.delete key : Update K V).key (s.heap.loadForward p' level) =
        none from hstop]
      exact congrArg (fun o => o.bind fun l => some (s, l)) hl₁
    obtain ⟨found', l', hfound', hafter, hrest⟩ := ih ⟨hdone, hbelow, habove⟩ (by omega)
      (hsound.listed_of_le (Nat.sub_le level 1) hp') hbefore' hl₁
    exact ⟨found', l', hfound', hafter, Run.trans halone (Alone.step hlocal rfl hrest)⟩

/-- The locking of nodes that nobody has locked. -/
theorem alone_lockNodes {plan : Plan K V} {rest : List NodeId} (hnodup : rest.Nodup)
    (held : List NodeId) (s : Shared K V T) (hfree : ∀ n ∈ rest, s.holder n = none) :
    ∃ holder, Alone t (s, .lockNodes plan held rest)
      ({ s with holder }, .lockNodes plan (held ++ rest) []) := by
  -- by induction on the nodes that are left to lock
  induction rest generalizing held s with
  | nil => exact ⟨s.holder, by rw [List.append_nil]; exact .refl⟩
  | cons n rest ih =>
    obtain ⟨hn, hnodup⟩ := List.nodup_cons.mp hnodup
    have hlock : s.lock t n =
        some { s with holder := Function.update s.holder n (some t) } :=
      Shared.lock_eq_some.mpr ⟨hfree n List.mem_cons_self, rfl⟩
    obtain ⟨holder, halone⟩ := ih hnodup (held ++ [n])
      { s with holder := Function.update s.holder n (some t) } fun m hm => by
        have hne : m ≠ n := fun heq => hn (heq ▸ hm)
        exact (Function.update_of_ne hne _ _).trans (hfree m (List.mem_cons_of_mem n hm))
    rw [List.append_assoc, List.singleton_append] at halone
    refine ⟨holder, .step ?_ rfl halone⟩
    simp only [Local.step, hlock]
    rfl

/-- `CanDelete` when the predecessors point to the victim at all its levels. -/
theorem alone_canDelete {d : Removal K} {held : List NodeId}
    (hpoints : ∀ l, l ≤ (s.heap.node d.victim).topLevel → ∃ p, d.found.predecessors l = some p ∧
      (s.heap.node p).marked = false ∧ s.heap.loadForward p l = some d.victim)
    {rest : Nat} (hrest : level + rest = (s.heap.node d.victim).topLevel) :
    Alone (V := V) t (s, .remove d held (.predecessorMarked level))
      (s, .remove d held .storeMarked) := by
  induction rest generalizing level with
  | zero =>
    obtain ⟨p, hp, hmarked, hload⟩ := hpoints level (by omega)
    refine .step (x := (s, .remove d held (.forward level))) ?_ rfl (.step ?_ rfl .refl)
    · simp [Local.step, RemoveStep.step, hp, hmarked]
    · simp [Local.step, RemoveStep.step, hp, hload, ← hrest]
  | succ rest ih =>
    obtain ⟨p, hp, hmarked, hload⟩ := hpoints level (by omega)
    refine .step (x := (s, .remove d held (.forward level))) ?_ rfl
      (.step ?_ rfl (ih (by omega : level + 1 + rest = _)))
    · simp [Local.step, RemoveStep.step, hp, hmarked]
    · have hlevel : level < (s.heap.node d.victim).topLevel := by omega
      simp [Local.step, RemoveStep.step, hp, hload, hlevel]

/-- The loop of `Delete` that unlinks its victim. -/
theorem alone_unlink {d : Removal K} {held : List NodeId} (s : Shared K V T)
    (hpredecessors : ∀ l, l ≤ level → ∃ p, d.found.predecessors l = some p) :
    ∃ heap, Alone t (s, .remove d held (.loadNext level))
      ({ s with heap }, .remove d held .subSize) := by
  -- one round of the loop
  have hround : ∀ (s : Shared K V T) (l : Nat) (p : NodeId), d.found.predecessors l = some p →
      (Local.remove d held (.unlink l (s.heap.loadForward d.victim l))).step s t .go =
        some ({ s with heap := s.heap.storeForward p l (s.heap.loadForward d.victim l) },
          .remove d held (.unlinkFrom l)) := by
    intro s l p hp
    simp only [Local.step, RemoveStep.step, hp]
    rfl
  induction level generalizing s with
  | zero =>
    obtain ⟨p, hp⟩ := hpredecessors 0 le_rfl
    exact ⟨_, .step rfl rfl (.step (hround s 0 p hp) rfl .refl)⟩
  | succ level ih =>
    obtain ⟨p, hp⟩ := hpredecessors (level + 1) le_rfl
    obtain ⟨heap, halone⟩ := ih
      { s with heap :=
          s.heap.storeForward p (level + 1) (s.heap.loadForward d.victim (level + 1)) }
      fun l hl => hpredecessors l (by omega)
    exact ⟨heap, .step rfl rfl (.step (hround s (level + 1) p hp) rfl halone)⟩

/-- The scan of `RecomputeCurrentLevel`. -/
theorem alone_recompute (d : Removal K) (held : List NodeId) (level : Nat) :
    ∃ stored, Alone t (s, d.recompute held level)
      (s, .remove (V := V) d held (.storeLevel stored)) := by
  induction level with
  | zero => exact ⟨0, .refl⟩
  | succ level ih =>
    unfold Removal.recompute
    split
    · cases hload : s.heap.loadForward head level with
      | none =>
        -- the level is empty: the scan goes on below it
        have hstep : (Local.remove d held (.headForward (level + 1))).step s t .go =
            some (s, (d.recompute held level : Local K V)) := by
          simp only [Local.step, RemoveStep.step, hload, Nat.add_sub_cancel]
        obtain ⟨stored, halone⟩ := ih
        exact ⟨stored, .step hstep rfl halone⟩
      | some n =>
        have hstep : (Local.remove d held (.headForward (level + 1))).step s t .go =
            some (s, (.remove d held (.storeLevel (level + 1)) : Local K V)) := by
          simp only [Local.step, RemoveStep.step, hload, Nat.add_sub_cancel]
        exact ⟨level + 1, .step hstep rfl .refl⟩
    · exact ⟨level + 1, .refl⟩

/-- The destructors of the locks. -/
theorem alone_unlock {call : Call K V} {answer : Answer K V} (held : List NodeId)
    (s : Shared K V T) :
    ∃ s', Alone t (s, .unlock held (.done call answer)) (s', .returning call answer) := by
  induction held generalizing s with
  | nil => exact ⟨s, .step rfl rfl .refl⟩
  | cons n held ih =>
    obtain ⟨s', halone⟩ := ih (s.unlock n)
    exact ⟨s', .step rfl rfl halone⟩

/-- `Delete` behind `CanDelete`. -/
theorem alone_remove {d : Removal K} {held : List NodeId}
    (hpredecessors : ∀ l, l ≤ (s.heap.node d.victim).topLevel →
      ∃ p, d.found.predecessors l = some p) :
    ∃ s', Alone (V := V) t (s, .remove d held .storeMarked)
      (s', .returning (.delete d.key) (.delete true)) := by
  obtain ⟨heap, hunlink⟩ := @alone_unlink K V T _ t (s.heap.node d.victim).topLevel d held
    { s with heap := s.heap.storeMarked d.victim } hpredecessors
  obtain ⟨stored, hrecompute⟩ := @alone_recompute K V T _
    { s with heap, size := s.size - 1 } t d held s.maxLevel
  obtain ⟨s', hunlock⟩ := @alone_unlock K V T _ t (.delete d.key) (.delete true) held
    { s with heap, size := s.size - 1, currentLevel := stored }
  refine ⟨s', .step rfl rfl (Run.trans hunlink ?_)⟩
  exact Alone.step rfl rfl (Run.trans hrecompute (Alone.step rfl rfl hunlock))

/-- A `Delete` of a key of the list that runs alone, when all nodes of the list are linked at
    all their levels, none is higher than the active level, and no mutex is taken. -/
theorem alone_delete {key : K} (hsound : s.heap.Sound) (hn : s.heap.Alive n)
    (hkey : (s.heap.node n).key = key)
    (hlevels : ∀ l, l ≤ (s.heap.node n).topLevel → s.heap.Listed l n)
    (htop : (s.heap.node n).topLevel < s.currentLevel)
    (hunmarked : ∀ m, s.heap.Listed 0 m → (s.heap.node m).marked = false)
    (hfree : ∀ m, s.holder m = none) :
    ∃ s', Alone (V := V) t (s, .loadLevel (.delete key))
      (s', .returning (.delete key) (.delete true)) := by
  -- the search finds the node
  obtain ⟨l, hfrom⟩ :=
    exists_findFrom s.heap (aboveActive s.currentLevel) key head s.currentLevel
  have hstart : Found s.heap key (aboveActive s.currentLevel) s.currentLevel s.currentLevel :=
    ⟨hsound.searched_above _ key, fun l hlo hhi => absurd hhi (not_lt.mpr hlo), fun _ _ => rfl⟩
  obtain ⟨found, l', ⟨hsearched, hexact, habove⟩, hafter, hfind⟩ :=
    @alone_find K V T _ s t l head s.currentLevel key _ _ hsound hstart le_rfl
      (hsound.listed_head _) (.inl rfl) hfrom
  -- at the levels of the node its predecessor points to it
  have hpoints : ∀ l, l ≤ (s.heap.node n).topLevel → ∃ p, found.predecessors l = some p ∧
      (s.heap.node p).marked = false ∧ s.heap.loadForward p l = some n ∧
      found.successors l = some n := by
    intro l hl
    obtain ⟨p, hp, hlisted, hbefore, hstop, hsucc⟩ := hexact l (Nat.zero_le l) (by omega)
    obtain ⟨q, hload, heq⟩ :=
      hsound.exists_next hlisted (hlevels l hl) hn.ne_head (hkey ▸ hbefore)
    have hqn : q = n := heq.resolve_right fun hlt =>
      passes_eq_none.mp hstop q hload (hkey ▸ hlt)
    subst hqn
    exact ⟨p, hp, hunmarked p (hsound.listed_of_le (Nat.zero_le l) hlisted), hload,
      hsucc.trans hload⟩
  obtain ⟨p₀, -, -, -, hsucc₀⟩ := hpoints 0 (Nat.zero_le _)
  -- so `Delete` goes on with this node as its victim
  have hlocked : l' = .lockNodes (.remove { key, found, victim := n }) []
      (lockTargets s.heap (predecessorsUpTo found (s.heap.node n).topLevel ++ [some n])) := by
    unfold afterFind at hafter
    cases hlevel : found.foundLevel with
    | none => exact absurd hkey (hsearched.absent hlevel 0 n le_rfl hsucc₀)
    | some level =>
      -- what has been found at another level is the same node, since it has the key
      obtain ⟨-, q, hq, hqkey⟩ := hsearched.present level hlevel
      have hlt : level < s.currentLevel := by
        by_contra hge
        exact absurd (hq.symm.trans (habove level (by omega))) (by simp)
      obtain ⟨p, hp, hlisted, -, -, hsucc⟩ := hexact level (Nat.zero_le level) hlt
      have hload := hsucc.symm.trans hq
      have hqn : q = n := hsound.eq_of_key
        (hsound.listed_of_le (Nat.zero_le level) (hlisted.next hload)) hn.listed
        (hsound.leads (hsound.allocated hlisted) hload).ne_head hn.ne_head
        (hqkey.trans hkey.symm)
      simp only [hlevel, hq, hqn] at hafter
      exact (Option.some.inj hafter).symm
  -- nobody has locked the nodes, and `CanDelete` succeeds
  obtain ⟨holder, hlock⟩ := @alone_lockNodes K V T _ t (.remove { key, found, victim := n })
    _ (nodup_lockTargets s.heap (predecessorsUpTo found (s.heap.node n).topLevel ++ [some n])) [] s
    fun m _ => hfree m
  rw [List.nil_append, ← hlocked] at hlock
  obtain ⟨s', hremove⟩ := @alone_remove K V T _ { s with holder } t { key, found, victim := n }
    (lockTargets s.heap (predecessorsUpTo found (s.heap.node n).topLevel ++ [some n])) fun l hl => by
      obtain ⟨p, hp, -⟩ := hpoints l hl
      exact ⟨p, hp⟩
  have hcheck := @alone_canDelete K V T _ { s with holder } t 0 { key, found, victim := n }
    (lockTargets s.heap (predecessorsUpTo found (s.heap.node n).topLevel ++ [some n]))
    (fun l hl => by
      obtain ⟨p, hp, hmarked, hload, -⟩ := hpoints l hl
      exact ⟨p, hp, hmarked, hload⟩) (s.heap.node n).topLevel (Nat.zero_add _)
  refine ⟨s', .step ?_ rfl (Run.trans hfind (Run.trans hlock ?_))⟩
  · exact congrArg (fun o => o.bind fun l => some (s, l)) hfrom
  refine Alone.step rfl rfl (.step (x := ({ s with holder }, .remove { key, found, victim := n }
    (lockTargets s.heap (predecessorsUpTo found (s.heap.node n).topLevel ++ [some n])) .marked)) ?_ rfl
    (.step (x := ({ s with holder }, .remove { key, found, victim := n }
      (lockTargets s.heap (predecessorsUpTo found (s.heap.node n).topLevel ++ [some n]))
      (.predecessorMarked 0))) ?_ rfl (Run.trans hcheck hremove)))
  · simp [Local.step, RemoveStep.step, hn.fullyLinked]
  · simp [Local.step, RemoveStep.step, hn.unmarked, keysEqual_eq, hkey]

end

namespace State

variable [LinearOrder K] [DecidableEq T] {s : State K V T} {t : T} {maxLevel : Nat}
  {address : NodeId ↪ Nat}

/-- The steps of a call that runs alone are steps of the skip list. -/
theorem run_of_alone {x y : Shared K V T × Local K V} (h : Alone t x y) (hshared : s.shared = x.1)
    (hthread : s.thread t = x.2) :
    ∃ s', Run Step (fun u label => label = (t, .go) ∧ (u.thread t).refuses = false) s s' ∧
      s'.shared = y.1 ∧ s'.thread t = y.2 := by
  induction h with
  | refl => exact ⟨s, .refl, hshared, hthread⟩
  | tail _ _ hok hstep ih =>
    obtain ⟨u, hrun, hushared, huthread⟩ := ih
    refine ⟨_, .tail (t, .go) hrun ⟨rfl, by rwa [huthread]⟩ (step_iff.mpr ⟨_, _, ?_, rfl⟩), rfl,
      Function.update_self ..⟩
    rw [hushared, huthread]
    exact hstep

/-- In a run whose stores of `RecomputeCurrentLevel` are not too low, when no operation is in
    flight: no node of the list is higher than the active level, and a `Delete` of a key of
    the list that runs alone deletes it without starting again. -/
theorem level_suffices [Inhabited K] [Inhabited V]
    (hrun : Run Step StoresEnough (new maxLevel address) s) (hquiescent : s.Quiescent) :
    (∀ n, s.shared.heap.Listed 0 n → n ≠ head →
      (s.shared.heap.node n).topLevel + 1 ≤ s.shared.currentLevel) ∧
    ∀ key value t, s.shared.heap.Present key value → ∃ s₁ s₂,
      Step s (t, .call (.delete key)) s₁ ∧
      Run Step (fun u label => label = (t, .go) ∧ (u.thread t).refuses = false) s₁ s₂ ∧
      s₂.thread t = .returning (.delete key) (.delete true) := by
  have hcovered := covered_of_run hrun
  have htop : ∀ n, s.shared.heap.Listed 0 n → n ≠ head →
      (s.shared.heap.node n).topLevel < s.shared.currentLevel := fun n hn hne =>
    hquiescent.top_lt hcovered (raised_of_run hrun) hn hne
  refine ⟨htop, fun key value t hpresent => ?_⟩
  obtain ⟨n, hn, hkey, -⟩ := hpresent
  -- no call is in flight, so no node of the list is marked and no mutex is taken
  obtain ⟨shared, halone⟩ := @alone_delete K V T _ s.shared t n key (outline_of_run hrun).inv hn
    hkey (hquiescent.settled hcovered hn.listed hn.ne_head).1 (htop n hn.listed hn.ne_head)
    (fun m hm => hquiescent.unmarked hcovered hm) (hquiescent.unlocked hcovered)
  have hfirst : Step s (t, .call (.delete key))
      { shared := s.shared
        thread := Function.update s.thread t (.loadLevel (.delete key))
        returned := s.returned } := by
    refine step_iff.mpr ⟨s.shared, .loadLevel (.delete key), ?_, ?_⟩
    · rw [hquiescent t]
      rfl
    · rw [hquiescent t]
      simp [Local.returns]
  -- and from there the thread goes on alone
  obtain ⟨s₂, hrest, -, hreturn⟩ := run_of_alone
    (s := { shared := s.shared
            thread := Function.update s.thread t (.loadLevel (.delete key))
            returned := s.returned })
    halone rfl (Function.update_self ..)
  exact ⟨_, s₂, hfirst, hrest, hreturn⟩

/-- A node of height two is put and deleted, which lowers the active level, while a node of
    height one stays. A `Delete` of that runs alone. -/
theorem level_suffices_delete :
    ∃ s : State Nat Nat Bool, s.Quiescent ∧ s.shared.currentLevel = 1 ∧ ∃ s₁ s₂,
      Step s (false, .call (.delete 10)) s₁ ∧
      Run Step (fun u label => label = (false, .go) ∧ (u.thread false).refuses = false) s₁ s₂ ∧
      s₂.thread false = .returning (.delete 10) (.delete true) := by
  -- what is stored is checked at the levels that there are
  obtain ⟨s, hrun, hs⟩ := Run.exists_of_any
    (show Option.any (fun s : State Nat Nat Bool => s.Quiescent ∧ s.shared.currentLevel = 1 ∧
        s.shared.heap.Lists 0 [7] ∧ (s.shared.heap.node 7).key = 10 ∧
        (s.shared.heap.node 7).fullyLinked = true ∧ (s.shared.heap.node 7).marked = false)
      (List.foldlM (fun s (label : Bool × Choice Nat Nat) =>
          if ∀ stored ∈ (s.thread label.1).storesLevel.toList, ∀ level < s.shared.maxLevel,
              stored ≤ level → s.shared.heap.loadForward head level = none then
            s.step label.1 label.2
          else none)
        (new 4 (.refl _))
        ([(true, .call (.put 20 1)), (true, .go), (true, .go), (true, .level 1)] ++
          List.replicate 8 (true, .go) ++ [(true, .address 8)] ++ List.replicate 14 (true, .go) ++
          [(true, .call (.put 10 1)), (true, .go), (true, .go), (true, .go), (true, .level 0)] ++
          List.replicate 5 (true, .go) ++ [(true, .address 7)] ++ List.replicate 11 (true, .go) ++
          [(false, .call (.delete 20))] ++ List.replicate 29 (false, .go))) = true by
      decide +kernel)
  obtain ⟨hquiescent, hcurrent, hlists, hkey, hfully, hmarked⟩ := of_decide_eq_true hs
  have hrun' : Run Step StoresEnough (new 4 (.refl _)) s :=
    hrun.weaken fun {u _} hu hchecked stored level hstored hle hne => by
      refine absurd ?_ hne
      by_cases hlevel : level < u.shared.maxLevel
      · exact hchecked stored (Option.mem_toList.mpr hstored) level hlevel hle
      · exact (bounded_of_run hu).heights.loadForward_head (outline_of_run hu).inv
          (not_lt.mp hlevel)
  -- the node that is left
  have hpresent : s.shared.heap.Present 10 (s.shared.heap.node 7).value :=
    ⟨7, ⟨⟨[7], hlists, by simp⟩, by decide, hfully, hmarked⟩, hkey, rfl⟩
  exact ⟨s, hquiescent, hcurrent, (level_suffices hrun' hquiescent).2 10 _ false hpresent⟩

/-- While a `Delete` is between the scan and the store of `RecomputeCurrentLevel`, two nodes of
    height two are put. When all calls have returned, the active level is one, and a `Delete`
    of the second node that runs alone starts again. -/
theorem level_left_too_low :
    ∃ s s₁ s₂ : State Nat Nat Bool, Run Step (fun _ _ => True) (new 4 (.refl _)) s ∧ s.Quiescent ∧
      (∃ n, s.shared.heap.Listed 0 n ∧ n ≠ head ∧
        ¬ (s.shared.heap.node n).topLevel + 1 ≤ s.shared.currentLevel) ∧
      (∃ value, s.shared.heap.Present 7 value) ∧
      Step s (true, .call (.delete 7)) s₁ ∧
      Run Step (fun _ label => label = (true, .go)) s₁ s₂ ∧
      (s₂.thread true).refuses = true := by
  obtain ⟨s, hrun, hs⟩ := Run.exists_of_any
    (show Option.any (fun s : State Nat Nat Bool => decide (s.Quiescent ∧
          s.shared.heap.Lists 0 [9, 11, 7] ∧ (s.shared.heap.node 11).topLevel = 1 ∧
          s.shared.currentLevel = 1 ∧ (s.shared.heap.node 11).key = 7 ∧
          (s.shared.heap.node 11).fullyLinked = true ∧
          (s.shared.heap.node 11).marked = false) &&
        Option.any (fun s₁ => Option.any (fun s₂ => (s₂.thread true).refuses)
            ((List.replicate 13 (true, Choice.go)).foldlM (fun s label =>
              if label = (true, Choice.go) then s.step label.1 label.2 else none) s₁))
          (s.step true (.call (.delete 7))))
      (List.foldlM (fun s label => if True then s.step label.1 label.2 else none) (new 4 (.refl _))
        (putSteps true 20 1 8 ++ putSteps true 10 1 7 ++ [(false, .call (.delete 20))] ++
          List.replicate 17 (false, .go) ++
          -- the level is stored at the end
          [(true, .call (.put 5 1)), (true, .go), (true, .go), (true, .level 1)] ++
          List.replicate 8 (true, .go) ++ [(true, .address 9)] ++ List.replicate 14 (true, .go) ++
          [(true, .call (.put 7 1))] ++ List.replicate 4 (true, .go) ++ [(true, .level 1)] ++
          List.replicate 8 (true, .go) ++ [(true, .address 11)] ++
          List.replicate 13 (true, .go) ++ List.replicate 5 (false, .go))) = true by
      decide +kernel)
  obtain ⟨hs, hdelete⟩ := Bool.and_eq_true_iff.mp hs
  obtain ⟨hquiescent, hlists, htop, hlevel, hkey, hfully, hmarked⟩ := of_decide_eq_true hs
  obtain ⟨s₁, hs₁, hdelete⟩ := (Option.any_eq_true _ _).mp hdelete
  obtain ⟨s₂, hrest, hrefuses⟩ := Run.exists_of_any hdelete
  -- the second node is in the list, above the active level
  have halive : s.shared.heap.Alive 11 := ⟨⟨_, hlists, by simp⟩, by decide, hfully, hmarked⟩
  exact ⟨s, s₁, s₂, hrun, hquiescent, ⟨11, halive.listed, halive.ne_head, by omega⟩,
    ⟨_, 11, halive, hkey, rfl⟩, hs₁, hrest, hrefuses⟩

end State

end ConcurrentSkipList

end KvStore
