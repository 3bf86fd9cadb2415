import KvStore.Spec.ConcurrentOutline
import KvStore.Spec.SkipListSearch
import Mathlib.Data.List.ReduceOption

/-!
# The steps of the concurrent skip list

Every step of a call, from a point whose assertion is true, leaves the heap sound and
establishes the assertion of the point that it leads to (`Local.Asserts.outcome`). One
lemma for each part of a call; the loads only add to what is known, and each store is one
of the effects of `Spec.ConcurrentHeap`.
-/

namespace KvStore

namespace ConcurrentSkipList

open SkipList (head keysEqual keysEqual_eq)
open Heap

variable {K V T : Type} {h : Heap K V} {s s' : Shared K V T} {t : T} {l l' : Local K V}

/-- Who takes a mutex found it free. -/
theorem Shared.lock_eq_some {p : NodeId} :
    s.lock t p = some s' ↔
      s.holder p = none ∧ s' = { s with holder := Function.update s.holder p (some t) } := by
  unfold Shared.lock
  cases hholder : s.holder p with
  | none => simp [eq_comm]
  | some u => simp

variable [LinearOrder K]

/-! ## The search -/

/-- The search goes on to a node with a smaller key. -/
theorem Heap.passes_eq_some {key : K} {current : Option NodeId} {node : NodeId} :
    h.passes key current = some node ↔ current = some node ∧ (h.node node).key < key := by
  simp [Heap.passes, Option.filter_eq_some_iff]

/-- The search stops at the end and at a key that is not smaller. -/
theorem Heap.passes_eq_none {key : K} {current : Option NodeId} :
    h.passes key current = none ↔ ∀ node, current = some node → ¬ (h.node node).key < key := by
  simp [Heap.passes, Option.filter_eq_none_iff]

/-- The node that has been loaded has the key. -/
theorem Heap.holdsKey_iff {key : K} {current : Option NodeId} :
    h.holdsKey key current = true ↔ ∃ node, current = some node ∧ (h.node node).key = key := by
  cases current <;> simp [Heap.holdsKey, keysEqual_eq]

omit [LinearOrder K] in
/-- `LockNodes` locks each node that is given to it. -/
theorem mem_lockTargets {nodes : List (Option NodeId)} {n : NodeId} :
    n ∈ lockTargets h nodes ↔ some n ∈ nodes := by
  rw [lockTargets, List.mem_dedup, List.mem_insertionSort, List.reduceOption_mem_iff]

omit [LinearOrder K] in
/-- `LockNodes` locks no node twice. -/
theorem nodup_lockTargets (h : Heap K V) (nodes : List (Option NodeId)) :
    (lockTargets h nodes).Nodup :=
  List.nodup_dedup _

omit [LinearOrder K] in
/-- The predecessors up to the level are among the nodes that are locked. -/
theorem covers_lockTargets (h : Heap K V) (found : FindResult) (level : Nat) (more : List (Option NodeId)) :
    Covers found.predecessors (level + 1)
      (lockTargets h (predecessorsUpTo found level ++ more)) := by
  intro l p hl hp
  rw [mem_lockTargets, List.mem_append]
  exact .inl (List.mem_map.mpr ⟨l, List.mem_range.mpr hl, hp⟩)

/-- A published node is published at every lower level. -/
theorem Heap.Sound.published_of_le (hsound : h.Sound) {n : NodeId} {level level' : Nat}
    (hlevel : level' ≤ level) (hn : h.Published level n) : h.Published level' n :=
  hn.imp_left (hsound.listed_of_le hlevel)

/-- The head is where a search begins. -/
theorem Heap.Sound.reached_head (hsound : h.Sound) (level : Nat) (key : K) :
    h.Reached level SkipList.head key :=
  ⟨hsound.head, .inl (hsound.listed_head level), .inl rfl⟩

/-- The next node on the way to the key. -/
theorem Heap.Sound.reached_next (hsound : h.Sound) {level : Nat} {p q : NodeId} {key : K}
    (hp : h.Reached level p key) (hload : h.loadForward p level = some q)
    (hlt : (h.node q).key < key) : h.Reached level q key := by
  have hleads := hsound.leads hp.allocated hload
  exact ⟨hleads.allocated, hleads.published, .inr hlt⟩

/-- A node at which the search stops. -/
theorem Heap.Sound.beyond_next (hsound : h.Sound) {level : Nat} {p q : NodeId} {key : K}
    (hp : h.Reached level p key) (hload : h.loadForward p level = some q)
    (hge : ¬ (h.node q).key < key) : h.Beyond level q key := by
  have hleads := hsound.leads hp.allocated hload
  exact ⟨hleads.allocated, hleads.ne_head, hleads.topLevel, hleads.published, hge⟩

/-- What the second loop of `FindNode` fills in. -/
theorem Heap.Sound.searched_above (hsound : h.Sound) (activeLevels : Nat) (key : K) :
    h.Searched key (aboveActive activeLevels) activeLevels where
  predecessor level hlevel :=
    ⟨SkipList.head, if_neg (by omega), hsound.reached_head level key⟩
  successor _ _ _ hq := absurd hq (by simp [aboveActive])
  absent _ _ _ _ hq := absurd hq (by simp [aboveActive])
  present _ hlevel := absurd hlevel (by simp [aboveActive])

/-- One more level of `FindNode` is done. -/
theorem Heap.Sound.searched_level (hsound : h.Sound) {key : K} {found : FindResult}
    {level : Nat} {p : NodeId} (hsearched : h.Searched key found (level + 1))
    (hp : h.Reached level p key)
    (hstop : h.passes key (h.loadForward p level) = none) :
    h.Searched key
      { foundLevel :=
          if found.foundLevel.isNone && h.holdsKey key (h.loadForward p level) then some level
          else found.foundLevel
        predecessors := Function.update found.predecessors level (some p)
        successors := Function.update found.successors level (h.loadForward p level) }
      level where
  predecessor l hl := by
    by_cases hlevel : l = level
    · subst hlevel
      exact ⟨p, Function.update_self .., hp⟩
    · obtain ⟨p', hp', hreached⟩ := hsearched.predecessor l (by omega)
      exact ⟨p', (Function.update_of_ne hlevel _ _).trans hp', hreached⟩
  successor l q hl hq := by
    dsimp only at hq
    by_cases hlevel : l = level
    · subst hlevel
      rw [Function.update_self] at hq
      exact hsound.beyond_next hp hq (passes_eq_none.mp hstop q hq)
    · rw [Function.update_of_ne hlevel] at hq
      exact hsearched.successor l q (by omega) hq
  absent hnone l q hl hq := by
    dsimp only at hnone hq
    split at hnone
    · cases hnone
    · -- a node with the key at this level would have been noticed
      rename_i hnot
      by_cases hlevel : l = level
      · subst hlevel
        rw [Function.update_self] at hq
        intro hkey
        have hhit := holdsKey_iff.mpr ⟨q, hq, hkey⟩
        exact hnot (by rw [hnone, hhit]; rfl)
      · rw [Function.update_of_ne hlevel] at hq
        exact hsearched.absent hnone l q (by omega) hq
  present l hl := by
    dsimp only at hl
    split at hl
    · rename_i hhit
      cases hl
      rw [Bool.and_eq_true] at hhit
      obtain ⟨q, hq, hkey⟩ := holdsKey_iff.mp hhit.2
      exact ⟨le_rfl, q, (Function.update_self ..).trans hq, hkey⟩
    · -- it has been found above
      obtain ⟨hlo, q, hq, hkey⟩ := hsearched.present l hl
      exact ⟨by omega, q, (Function.update_of_ne (by omega) _ _).trans hq, hkey⟩

/-- What is known behind `FindNode`. -/
theorem afterFind_facts (hsound : h.Sound) {update : Update K V} {found : FindResult}
    (hsearched : h.Searched update.key found 0) (hafter : afterFind h found update = some l) :
    l.Facts h ∧ l.held = [] ∧ l.own = none := by
  cases update with
  | put key value =>
    unfold afterFind at hafter
    cases hfound : found.foundLevel with
    | none =>
      simp only [hfound] at hafter
      cases hafter
      exact ⟨⟨hsearched, hfound⟩, rfl, rfl⟩
    | some level =>
      -- the level at which the key has been found has a successor
      obtain ⟨-, existing, hexisting, -⟩ := hsearched.present level hfound
      simp only [hfound, hexisting, Option.bind_eq_bind, Option.bind_some] at hafter
      cases hafter
      exact ⟨trivial, rfl, rfl⟩
  | delete key =>
    unfold afterFind at hafter
    cases hfound : found.foundLevel with
    | none =>
      simp only [hfound] at hafter
      cases hafter
      exact ⟨trivial, rfl, rfl⟩
    | some level =>
      obtain ⟨-, victim, hvictim, hkey⟩ := hsearched.present level hfound
      simp only [hfound, hvictim] at hafter
      cases hafter
      -- the victim is locked together with the predecessors
      have hbeyond := hsearched.successor level victim (Nat.zero_le level) hvictim
      refine ⟨⟨nodup_lockTargets _ _, hsearched, ?_, hkey, ?_, covers_lockTargets _ _ _ _⟩, rfl, rfl⟩
      · exact { hbeyond with
          topLevel := Nat.zero_le _
          published := hsound.published_of_le (Nat.zero_le level) hbeyond.published }
      · rw [List.nil_append, mem_lockTargets]
        exact List.mem_append_right _ (List.mem_singleton_self _)

/-- The search goes down a level, or is done. -/
theorem findFrom_facts (hsound : h.Sound) {update : Update K V} {found : FindResult}
    {p : NodeId} {level : Nat} (hsearched : h.Searched update.key found level)
    (hp : h.Reached (level - 1) p update.key)
    (hfind : findFrom h update found p level = some l) :
    l.Facts h ∧ l.held = [] ∧ l.own = none := by
  cases level with
  | zero => exact afterFind_facts hsound hsearched hfind
  | succ level =>
    cases hfind
    exact ⟨⟨hp, hsearched⟩, rfl, rfl⟩

/-- One more node on a level, or one more level. -/
theorem findStep_facts (hsound : h.Sound) {update : Update K V} {found : FindResult}
    {p : NodeId} {level : Nat} (hp : h.Reached level p update.key)
    (hsearched : h.Searched update.key found (level + 1))
    (hfind : findStep h update level p found (h.loadForward p level) = some l) :
    l.Facts h ∧ l.held = [] ∧ l.own = none := by
  unfold findStep at hfind
  cases hpasses : h.passes update.key (h.loadForward p level) with
  | some node =>
    simp only [hpasses] at hfind
    cases hfind
    obtain ⟨hload, hlt⟩ := passes_eq_some.mp hpasses
    exact ⟨⟨hsound.reached_next hp hload hlt, hsearched⟩, rfl, rfl⟩
  | none =>
    simp only [hpasses] at hfind
    refine findFrom_facts hsound (hsound.searched_level hsearched hp hpasses) ?_ hfind
    exact { hp with published := hsound.published_of_le (Nat.sub_le level 1) hp.published }

/-! ## What a step does -/

/-- The nodes that the thread has locked. -/
def Shared.Mine (s : Shared K V T) (t : T) (n : NodeId) : Prop :=
  s.holder n = some t

/-- What a step does to the heap and to the locks, and the assertion that it establishes. -/
structure Outcome (t : T) (s : Shared K V T) (l : Local K V) (s' : Shared K V T)
    (l' : Local K V) : Prop where
  effect : Effect (s.Mine t) l.own l.linked l.unlinked s.heap s'.heap
  asserts : l'.Asserts t s'
  holder : ∀ u n, u ≠ t → s.holder n = some u → s'.holder n = some u
  holder' : ∀ u n, s'.holder n = some u →
    s.holder n = some u ∧ (u = t → n ∈ l.held → n ∈ l'.held) ∨ u = t ∧ n ∈ l'.held
  own : ∀ n, l'.own = some n → l.own = some n ∨ s.heap.allocated n = false

/-- A thread has created its own node. -/
theorem Local.Facts.own_allocated (hfacts : l.Facts h) {n : NodeId} (hn : l.own = some n) :
    h.allocated n = true := by
  cases l with
  | insert i held step =>
    obtain ⟨-, hstep⟩ := hfacts
    cases step with
    | initForward new level => exact Option.some.inj hn ▸ hstep.2.2.1.allocated
    | lockOwnership new => exact Option.some.inj hn ▸ hstep.2.1.allocated
    | pushOwned new => exact Option.some.inj hn ▸ hstep.2.1.allocated
    | unlockOwnership new => exact Option.some.inj hn ▸ hstep.2.1.allocated
    | link new level => exact Option.some.inj hn ▸ hstep.2.2.2.1.allocated
    | storeFullyLinked new => exact Option.some.inj hn ▸ hstep.2.allocated
    | _ => cases hn
  | _ => cases hn

/-- A step with its outcome is correct and does not interfere. -/
theorem Outcome.correct (h : Outcome t s l s' l') :
    outline.Correct t s l s' l' where
  inv := h.effect.sound
  asserts := h.asserts
  free u m hu hm hapart :=
    { facts := by
        refine hm.facts.move h.effect.moves (fun n hn heq => ?_) hapart
        exact hu (Option.some.inj ((hm.holds n hn).symm.trans heq))
      nodup := hm.nodup
      holds := fun n hn => h.holder u n hu (hm.holds n hn) }
  apart u m hu hm hapart n hn hm' := by
    rcases h.own n hn with hl | hfree
    · exact hapart n hl hm'
    · have halloc := hm.facts.own_allocated hm'
      exact absurd halloc (by simp [hfree])

/-- A step that takes and gives back no lock. -/
theorem Outcome.of_effect (hl : l.Asserts t s)
    (heffect : Effect (s.Mine t) l.own l.linked l.unlinked s.heap s'.heap)
    (hholder : s'.holder = s.holder) (hheld : l'.held = l.held)
    (hown : ∀ n, l'.own = some n → l.own = some n ∨ s.heap.allocated n = false)
    (hfacts : l'.Facts s'.heap) : Outcome t s l s' l' where
  effect := heffect
  asserts :=
    { facts := hfacts
      nodup := hheld ▸ hl.nodup
      holds := by
        rw [hheld, hholder]
        exact hl.holds }
  holder _ _ _ := by
    rw [hholder]
    exact id
  holder' _ _ hn := .inl ⟨hholder ▸ hn, fun _ h => hheld ▸ h⟩
  own := hown

/-- A step that leaves the heap as it is. -/
theorem Outcome.of_heap (hsound : s.heap.Sound) (hl : l.Asserts t s) (hheap : s'.heap = s.heap)
    (hholder : s'.holder = s.holder) (hlinked : l.linked = []) (hunlinked : l.unlinked = [])
    (hheld : l'.held = l.held) (hown : l'.own = l.own ∨ l'.own = none)
    (hfacts : l'.Facts s.heap) : Outcome t s l s' l' := by
  refine .of_effect hl ?_ hholder hheld (fun n hn => .inl ?_) (hheap ▸ hfacts)
  · rw [hlinked, hunlinked, hheap]
    exact hsound.effect_refl
  · rcases hown with heq | heq
    · exact heq ▸ hn
    · exact absurd hn (by simp [heq])

/-- A load. -/
theorem Outcome.load (hsound : s.heap.Sound) (hl : l.Asserts t s) (hlinked : l.linked = [])
    (hunlinked : l.unlinked = []) (hheld : l'.held = l.held)
    (hown : l'.own = l.own ∨ l'.own = none) (hfacts : l'.Facts s.heap) : Outcome t s l s l' :=
  .of_heap hsound hl rfl rfl hlinked hunlinked hheld hown hfacts

/-- The locking of a node. -/
theorem Outcome.lock (hsound : s.heap.Sound) (hl : l.Asserts t s) {p : NodeId}
    (hlock : s.lock t p = some s') (hlinked : l.linked = []) (hunlinked : l.unlinked = [])
    (hown : l'.own = none) (hnodup : l'.held.Nodup)
    (hheld : ∀ n, n ∈ l'.held ↔ n = p ∨ n ∈ l.held) (hfacts : l'.Facts s.heap) :
    Outcome t s l s' l' := by
  -- the mutex was free, so it is none of those that are held
  obtain ⟨hfree, rfl⟩ := Shared.lock_eq_some.mp hlock
  -- the mutexes of the others stay as they are
  refine
    { effect := by
        rw [hlinked, hunlinked]
        exact hsound.effect_refl
      asserts := ⟨hfacts, hnodup, fun n hn => ?_⟩
      holder := fun u n _ hn => ?_
      holder' := fun u n hn => ?_
      own := fun n hn => absurd hn (by simp [hown]) }
  · rcases (hheld n).mp hn with rfl | hn
    · exact Function.update_self ..
    · have hne : n ≠ p := by
        rintro rfl
        exact absurd (hl.holds n hn) (by simp [hfree])
      exact (Function.update_of_ne hne _ _).trans (hl.holds n hn)
  · have hne : n ≠ p := by
      rintro rfl
      exact absurd hn (by simp [hfree])
    exact (Function.update_of_ne hne _ _).trans hn
  · by_cases hnp : n = p
    · subst hnp
      have heq : some t = some u := (Function.update_self n (some t) s.holder).symm.trans hn
      exact .inr ⟨(Option.some.inj heq).symm, (hheld n).mpr (.inl rfl)⟩
    · exact .inl ⟨(Function.update_of_ne hnp _ _).symm.trans hn,
        fun _ hn => (hheld n).mpr (.inr hn)⟩

/-- The unlocking of a node. -/
theorem Outcome.unlock (hsound : s.heap.Sound) {node : NodeId} {held : List NodeId}
    {next : Next K V} (hl : (Local.unlock (node :: held) next).Asserts t s) :
    Outcome t s (.unlock (node :: held) next) (s.unlock node) (.unlock held next) := by
  have hheld : s.holder node = some t := hl.holds node List.mem_cons_self
  obtain ⟨hnode, hnodup⟩ := List.nodup_cons.mp hl.nodup
  refine
    { effect := hsound.effect_refl
      asserts := ⟨trivial, hnodup, fun n hn => ?_⟩
      holder := fun u n hu hn => ?_
      holder' := fun u n hn => ?_
      own := fun n hn => by cases hn }
  · have hne : n ≠ node := fun heq => hnode (heq ▸ hn)
    exact (Function.update_of_ne hne _ _).trans (hl.holds n (List.mem_cons_of_mem node hn))
  · have hne : n ≠ node := by
      -- another thread does not hold the mutex that is given up
      rintro rfl
      exact hu (Option.some.inj (hn.symm.trans hheld))
    exact (Function.update_of_ne hne _ _).trans hn
  · have hne : n ≠ node := by
      rintro rfl
      have heq : Function.update s.holder n none n = some u := hn
      rw [Function.update_self] at heq
      cases heq
    exact .inl ⟨(Function.update_of_ne hne _ _).symm.trans hn,
      fun _ hmem => (List.mem_cons.mp hmem).resolve_left hne⟩

/-! ## Put on a key that is found -/

/-- `Put` on a key that is found. -/
theorem AssignStep.outcome (hsound : s.heap.Sound) {key : K} {value : V} {existing : NodeId}
    {step : AssignStep} (hl : (Local.assign key value existing step).Asserts t s)
    (hstep : step.step s t key value existing = some (s', l')) :
    Outcome t s (.assign key value existing step) s' l' := by
  cases step with
  | lock =>
    simp only [AssignStep.step, Option.bind_eq_bind, Option.bind_eq_some_iff] at hstep
    obtain ⟨s₁, hlock, heq⟩ := hstep
    cases heq
    exact .lock hsound hl hlock rfl rfl rfl (List.nodup_singleton existing)
      (fun n => by simp [Local.held]) trivial
  | marked =>
    simp only [AssignStep.step] at hstep
    split at hstep <;> cases hstep <;> exact .load hsound hl rfl rfl rfl (.inl rfl) trivial
  | fullyLinked =>
    simp only [AssignStep.step] at hstep
    split at hstep <;> cases hstep <;> exact .load hsound hl rfl rfl rfl (.inl rfl) trivial
  | store =>
    -- the value is no part of what the outline says
    cases hstep
    exact .of_effect hl (hsound.storeValue existing value) rfl rfl
      (fun n hn => by cases hn) trivial

/-! ## Get and Scan -/

theorem Next.start_plain (next : Next K V) (h : Heap K V) :
    next.start.Facts h ∧ next.start.held = [] ∧ next.start.own = none := by
  cases next <;> exact ⟨trivial, rfl, rfl⟩

theorem Reader.visit_plain (reader : Reader K V) (h : Heap K V) (current : Option NodeId) :
    (reader.visit h current).Facts h ∧ (reader.visit h current).held = [] ∧
      (reader.visit h current).own = none := by
  unfold Reader.visit
  cases reader <;> cases current <;> dsimp only <;> (try split) <;> exact ⟨trivial, rfl, rfl⟩

theorem Reader.walkFrom_plain (reader : Reader K V) (p : NodeId) (level : Nat) (h : Heap K V) :
    (reader.walkFrom p level).Facts h ∧ (reader.walkFrom p level).held = [] ∧
      (reader.walkFrom p level).own = none := by
  cases level <;> exact ⟨trivial, rfl, rfl⟩

/-- `Get` and `Scan` take one mutex at a time and store nothing. -/
theorem ReadStep.outcome (hsound : s.heap.Sound) {reader : Reader K V} {step : ReadStep}
    (hl : (Local.read reader step).Asserts t s)
    (hstep : step.step s t reader = some (s', l')) :
    Outcome t s (.read reader step) s' l' := by
  -- a load that leads to a point without locks and facts
  have hplain : ∀ {l'' : Local K V}, (Local.read reader step).held = [] →
      l''.Facts s.heap ∧ l''.held = [] ∧ l''.own = none →
      Outcome t s (.read reader step) s l'' :=
    fun hheld ⟨hfacts, hheld', hown⟩ =>
      .load hsound hl rfl rfl (hheld'.trans hheld.symm) (.inr hown) hfacts
  cases step with
  | loadLevel =>
    cases hstep
    exact hplain rfl (reader.walkFrom_plain _ _ _)
  | walk level predecessor =>
    simp only [ReadStep.step] at hstep
    split at hstep <;> cases hstep
    · exact hplain rfl ⟨trivial, rfl, rfl⟩
    · exact hplain rfl (reader.walkFrom_plain _ _ _)
  | candidate predecessor =>
    cases hstep
    exact hplain rfl (reader.visit_plain _ _)
  | marked node =>
    simp only [ReadStep.step] at hstep
    split at hstep <;> cases hstep
    · exact hplain rfl ((reader.skip node).start_plain _)
    · exact hplain rfl ⟨trivial, rfl, rfl⟩
  | fullyLinked node =>
    simp only [ReadStep.step] at hstep
    split at hstep <;> cases hstep
    · exact hplain rfl ⟨trivial, rfl, rfl⟩
    · exact hplain rfl ((reader.skip node).start_plain _)
  | lock node =>
    simp only [ReadStep.step, Option.bind_eq_bind, Option.bind_eq_some_iff] at hstep
    obtain ⟨s₁, hlock, heq⟩ := hstep
    cases heq
    exact .lock hsound hl hlock rfl rfl rfl (List.nodup_singleton node)
      (fun n => by simp [Local.held]) trivial
  | markedLocked node =>
    simp only [ReadStep.step] at hstep
    split at hstep <;> cases hstep <;> exact .load hsound hl rfl rfl rfl (.inl rfl) trivial
  | fullyLinkedLocked node =>
    simp only [ReadStep.step] at hstep
    split at hstep <;> cases hstep <;> exact .load hsound hl rfl rfl rfl (.inl rfl) trivial
  | value node =>
    -- the value is read under the lock
    cases hstep
    exact .load hsound hl rfl rfl rfl (.inl rfl) trivial
  | next node =>
    cases hstep
    exact hplain rfl (reader.visit_plain _ _)

/-! ## Put behind LockNodes -/

section Insert

variable {i : Insertion K V} {held : List NodeId} {choice : Choice K V}

/-- A predecessor that `Put` or `Delete` has locked and found unmarked is listed. -/
theorem Heap.Searched.listed {key : K} {found : FindResult} {level : Nat} {p : NodeId}
    (hsearched : h.Searched key found 0) (hp : found.predecessors level = some p)
    (hmarked : (h.node p).marked = false) : h.Listed level p ∧ h.Before p key := by
  obtain ⟨p', hp', hreached⟩ := hsearched.predecessor level (Nat.zero_le level)
  obtain rfl : p = p' := Option.some.inj (hp.symm.trans hp')
  exact ⟨hreached.published.listed hmarked, hreached.before⟩

/-- The new node may point to the successors that `FindNode` has found. -/
theorem Heap.Searched.leads {found : FindResult} {new m : NodeId} {level lo : Nat}
    (hsearched : h.Searched i.key found 0) (habsent : found.foundLevel = none)
    (hnew : h.Created i.key i.nodeLevel new lo) (hlevel : level ≤ i.nodeLevel)
    (hm : found.successors level = some m) : h.Leads new level m := by
  have hbeyond := hsearched.successor level m (Nat.zero_le level) hm
  have hne := hsearched.absent habsent level m (Nat.zero_le level) hm
  exact
    { height := .inr (hnew.topLevel ▸ hlevel)
      allocated := hbeyond.allocated
      ne_head := hbeyond.ne_head
      before := .inr (hnew.key ▸ lt_of_le_of_ne (not_lt.mp hbeyond.not_before) hne.symm)
      topLevel := hbeyond.topLevel
      published := hbeyond.published }

/-- The new node, when it has just been created. -/
theorem Heap.Sound.created_create (hsound : h.Sound) {new : NodeId}
    (hfree : h.allocated new = false) (key : K) (value : V) (nodeLevel : Nat) :
    (h.create new { key, value, topLevel := nodeLevel }).Created key nodeLevel new 0 where
  allocated := (allocated_create _).mpr (.inl rfl)
  ne_head := by
    rintro rfl
    exact absurd hsound.head (by simp [hfree])
  key := by rw [node_create_self]
  topLevel := by rw [node_create_self]
  fullyLinked := by rw [node_create_self]
  unpublished level _ := by
    rintro (hlisted | hmarked)
    · -- the creation links nothing, and no list held a node that was not allocated
      have heffect : Effect (fun _ => False) none [] [] h
          (h.create new { key, value, topLevel := nodeLevel }) :=
        hsound.create hfree fun _ => rfl
      rcases heffect.moves.links hlisted with hl | ⟨heq, -⟩
      · exact absurd (hsound.allocated hl) (by simp [hfree])
      · cases heq
    · rw [node_create_self] at hmarked
      cases hmarked

theorem Insertion.raise_plain (i : Insertion K V) (held : List NodeId) (observed : Nat)
    (hplan : (Plan.insert i).Facts h held) :
    (i.raise held observed).Facts h ∧ (i.raise held observed).held = held ∧
      (i.raise held observed).own = none := by
  unfold Insertion.raise
  split
  · exact ⟨⟨hplan, show observed ≤ i.nodeLevel by omega⟩, rfl, rfl⟩
  · exact ⟨trivial, rfl, rfl⟩

/-- `Put`: a pointer of the new node is stored. -/
theorem outcome_initForward (hsound : s.heap.Sound) {new : NodeId} {level : Nat}
    (hl : (Local.insert i held (.initForward new level)).Asserts t s) :
    Outcome t s (.insert i held (.initForward new level))
      { s with heap := s.heap.storeForward new level (i.found.successors level) }
      (.insert i held
        (if level < i.nodeLevel then .initForward new (level + 1) else .lockOwnership new)) := by
  obtain ⟨hplan, hlevel, hpoints, hnew, hinit⟩ := hl.facts
  obtain ⟨hsearched, habsent, hcovers⟩ := id hplan
  have hunpublished := hnew.unpublished level (Nat.zero_le level)
  have heffect : Effect (s.Mine t) (some new) [] [] s.heap
      (s.heap.storeForward new level (i.found.successors level)) :=
    hsound.initForward hunpublished hnew.allocated fun m hm =>
      hsearched.leads habsent hnew hlevel hm
  have hplan' := hplan.move heffect.moves
  have hpoints' : (s.heap.storeForward new level (i.found.successors level)).Points
      i.found.predecessors i.found.successors 0 (i.nodeLevel + 1) :=
    hpoints.storeForward fun l p _ _ hp => by
      -- a predecessor can be reached, the new node cannot
      rintro ⟨rfl, rfl⟩
      obtain ⟨p', hp', hreached⟩ := hsearched.predecessor l (Nat.zero_le l)
      obtain rfl : p = p' := Option.some.inj (hp.symm.trans hp')
      exact hunpublished hreached.published
  -- the store makes the node no more visible
  have hnew' : (s.heap.storeForward new level (i.found.successors level)).Created
      i.key i.nodeLevel new 0 :=
    { allocated := hnew.allocated
      ne_head := hnew.ne_head
      key := by simpa using hnew.key
      topLevel := by simpa using hnew.topLevel
      fullyLinked := by simpa using hnew.fullyLinked
      unpublished := fun l hl hpublished => hnew.unpublished l hl <| by
        unfold Heap.Published at hpublished ⊢
        rwa [hsound.listed_initForward hunpublished, marked_storeForward] at hpublished }
  have hinit' : ∀ l, l < level + 1 →
      (s.heap.storeForward new level (i.found.successors level)).loadForward new l =
        i.found.successors l := by
    intro l hl
    rw [loadForward_storeForward]
    split
    · rename_i heq
      rw [heq.2]
    · rename_i hne
      exact hinit l (by simp at hne; omega)
  split
  · exact .of_effect hl heffect rfl rfl (fun n hn => .inl hn)
      ⟨hplan', by omega, hpoints', hnew', hinit'⟩
  · exact .of_effect hl heffect rfl rfl (fun n hn => .inl hn)
      ⟨hplan', hpoints', hnew', fun l hl => hinit' l (by omega)⟩

/-- `Put`: the new node is linked at a level. -/
theorem outcome_link (hsound : s.heap.Sound) {new p : NodeId} {level : Nat}
    (hl : (Local.insert i held (.link new level)).Asserts t s)
    (hp : i.found.predecessors level = some p) :
    Outcome t s (.insert i held (.link new level))
      { s with heap := s.heap.storeForward p level (some new) }
      (.insert i held
        (if level < i.nodeLevel then .link new (level + 1) else .storeFullyLinked new)) := by
  obtain ⟨hplan, hlevel, hlinked, hpoints, hnew, hinit⟩ := hl.facts
  obtain ⟨hsearched, habsent, hcovers⟩ := id hplan
  obtain ⟨hmarked, hload⟩ := hpoints level p le_rfl (Nat.lt_succ_of_le hlevel) hp
  obtain ⟨hlisted, hbefore⟩ := hsearched.listed hp hmarked
  have hunpublished := hnew.unpublished level le_rfl
  have hload' : s.heap.loadForward new level = s.heap.loadForward p level :=
    (hinit level le_rfl hlevel).trans hload.symm
  -- the levels are linked from below
  have hbelow : ∀ l, level = l + 1 → s.heap.Listed l new := by
    rintro l rfl
    obtain ⟨p', hp', -⟩ := hsearched.predecessor l (Nat.zero_le l)
    obtain ⟨hmarked', hnext⟩ := hlinked l p' (Nat.zero_le l) (Nat.lt_succ_self l) hp'
    exact (hsearched.listed hp' hmarked').1.next hnext
  have heffect : Effect (s.Mine t) (some new) (if level = 0 then [new] else []) [] s.heap
      (s.heap.storeForward p level (some new)) := hsound.link
    (hl.holds p (hcovers level p (Nat.lt_succ_of_le hlevel) hp)) hlisted hmarked hunpublished
    hnew.allocated hnew.ne_head (hnew.key.symm ▸ hbefore) (hnew.topLevel.symm ▸ hlevel) hload'
    hbelow
  have hplan' := hplan.move heffect.moves
  have hlinked' : (s.heap.storeForward p level (some new)).Points i.found.predecessors
      (fun _ => some new) 0 (level + 1) := by
    refine (hlinked.storeForward fun l p' _ hl _ heq => ?_).succ fun p' hp' => ?_
    · exact absurd heq.2 (Nat.ne_of_lt hl)
    · obtain rfl : p = p' := Option.some.inj (hp.symm.trans hp')
      simp [hmarked]
  -- above them, what `CanInsert` has seen is still true
  have hpoints' : (s.heap.storeForward p level (some new)).Points i.found.predecessors
      i.found.successors (level + 1) (i.nodeLevel + 1) := by
    refine (hpoints.mono (Nat.le_succ level) le_rfl).storeForward fun l p' hl _ _ heq => ?_
    exact absurd heq.2 (Nat.ne_of_gt hl)
  -- on the levels above, nobody can reach the node
  have hnew' : (s.heap.storeForward p level (some new)).Created i.key i.nodeLevel new
      (level + 1) :=
    { allocated := hnew.allocated
      ne_head := hnew.ne_head
      key := by simpa using hnew.key
      topLevel := by simpa using hnew.topLevel
      fullyLinked := by simpa using hnew.fullyLinked
      unpublished := fun l hl hpublished => hnew.unpublished l (by omega) <| by
        unfold Heap.Published at hpublished ⊢
        rw [hsound.listed_link hlisted (fun h => hunpublished (.inl h)) hload',
          marked_storeForward] at hpublished
        refine hpublished.imp_left fun hlisted' => hlisted'.resolve_right ?_
        exact fun heq => absurd heq.1 (Nat.ne_of_gt hl) }
  have hinit' : ∀ l, level + 1 ≤ l → l ≤ i.nodeLevel →
      (s.heap.storeForward p level (some new)).loadForward new l = i.found.successors l := by
    intro l hlo hhi
    rw [loadForward_storeForward, if_neg (fun heq => absurd heq.2 (Nat.ne_of_gt hlo))]
    exact hinit l (by omega) hhi
  split
  · exact .of_effect hl heffect rfl rfl (fun n hn => .inl hn)
      ⟨hplan', by omega, hlinked', hpoints', hnew', hinit'⟩
  · have hlast : level = i.nodeLevel := by omega
    subst hlast
    exact .of_effect hl heffect rfl rfl (fun n hn => .inl hn) ⟨hplan', hlinked', hnew'⟩

/-- `Put`: the new node is created at an address that is free. -/
theorem outcome_create (hsound : s.heap.Sound) {new : NodeId}
    (hl : (Local.insert i held .create).Asserts t s) (hfree : s.heap.allocated new = false) :
    Outcome t s (.insert i held .create)
      { s with heap :=
          s.heap.create new { key := i.key, value := i.value, topLevel := i.nodeLevel } }
      (.insert i held (.initForward new 0)) := by
  obtain ⟨hplan, hpoints⟩ := hl.facts
  obtain ⟨hsearched, -, hcovers⟩ := id hplan
  have hcreate : ∀ mine : NodeId → Prop, Effect mine none [] [] s.heap
      (s.heap.create new { key := i.key, value := i.value, topLevel := i.nodeLevel }) :=
    fun mine => hsound.create hfree fun _ => rfl
  have heffect := hcreate (s.Mine t)
  -- none of the nodes that are there is changed
  have hnobody := hcreate fun _ => False
  refine .of_effect hl heffect rfl rfl (fun n hn => .inr ?_)
    ⟨hplan.move heffect.moves, Nat.zero_le _, ?_, hsound.created_create hfree _ _ _,
      fun l hl => absurd hl (Nat.not_lt_zero l)⟩
  · cases hn
    exact hfree
  · exact Points.move hnobody.moves hpoints fun level p _ hlevel hp =>
      hsearched.kept hcovers (fun _ _ => id) hlevel hp

/-- A check of `CanInsert`. -/
def InsertStep.isCheck : InsertStep → Bool
  | predecessorMarked _ | successorMarked _ | forward _ => true
  | _ => false

/-- Where a check of `CanInsert` leads: to a new attempt, to the next check, or behind all of
    them. -/
inductive Insertion.Checked (i : Insertion K V) (held : List NodeId) : Local K V → Prop where
  | refused : Checked i held (i.refuse held)
  | passed {next : InsertStep} (hnext : next.isCheck = true ∨ next = .create) :
      Checked i held (.insert i held next)

omit [LinearOrder K] in
/-- The checks of `CanInsert` change nothing. -/
theorem InsertStep.step_check {step : InsertStep} (hcheck : step.isCheck = true)
    (hstep : step.step s t choice i held = some (s', l')) : s' = s ∧ i.Checked held l' := by
  cases step with
  | predecessorMarked level =>
    simp only [InsertStep.step] at hstep
    split at hstep
    · -- `FindNode` has found no predecessor at the level
      cases hstep
      exact ⟨rfl, .refused⟩
    · split at hstep <;> cases hstep
      · exact ⟨rfl, .refused⟩
      · exact ⟨rfl, .passed (.inl rfl)⟩
  | successorMarked level =>
    simp only [InsertStep.step] at hstep
    split at hstep
    · -- the end of the list cannot be marked
      cases hstep
      exact ⟨rfl, .passed (.inl rfl)⟩
    · split at hstep <;> cases hstep
      · exact ⟨rfl, .refused⟩
      · exact ⟨rfl, .passed (.inl rfl)⟩
  | forward level =>
    simp only [InsertStep.step, Option.bind_eq_bind, Option.bind_eq_some_iff] at hstep
    obtain ⟨p, -, hstep⟩ := hstep
    split at hstep
    · -- another node has come behind the predecessor
      cases hstep
      exact ⟨rfl, .refused⟩
    · split at hstep <;> cases hstep
      · exact ⟨rfl, .passed (.inl rfl)⟩
      · exact ⟨rfl, .passed (.inr rfl)⟩
  | _ => cases hcheck

/-- `Put` behind `LockNodes`: what a check has seen of a locked predecessor is still true when
    the node is linked there. -/
theorem InsertStep.outcome (hsound : s.heap.Sound) {step : InsertStep}
    (hl : (Local.insert i held step).Asserts t s)
    (hstep : step.step s t choice i held = some (s', l')) :
    Outcome t s (.insert i held step) s' l' := by
  obtain ⟨hplan, hfacts⟩ := hl.facts
  cases step with
  | predecessorMarked level =>
    obtain ⟨hlevel, hpoints⟩ := hfacts
    simp only [InsertStep.step] at hstep
    split at hstep
    · -- `FindNode` has found no predecessor at the level
      cases hstep
      exact .load hsound hl rfl rfl rfl (.inr rfl) trivial
    · rename_i p hp
      split at hstep <;> cases hstep
      · exact .load hsound hl rfl rfl rfl (.inr rfl) trivial
      · -- it is not marked, and locked: it stays so
        rename_i hmarked
        refine .load hsound hl rfl rfl rfl (.inr rfl) ⟨hplan, hlevel, hpoints, fun p' hp' => ?_⟩
        obtain rfl : p = p' := Option.some.inj (hp.symm.trans hp')
        simpa using hmarked
  | successorMarked level =>
    simp only [InsertStep.step] at hstep
    split at hstep
    · cases hstep
      exact .load hsound hl rfl rfl rfl (.inr rfl) ⟨hplan, hfacts⟩
    · split at hstep <;> cases hstep
      · exact .load hsound hl rfl rfl rfl (.inr rfl) trivial
      · exact .load hsound hl rfl rfl rfl (.inr rfl) ⟨hplan, hfacts⟩
  | forward level =>
    obtain ⟨hlevel, hpoints, hmarked⟩ := hfacts
    simp only [InsertStep.step, Option.bind_eq_bind, Option.bind_eq_some_iff] at hstep
    obtain ⟨p, hp, hstep⟩ := hstep
    split at hstep
    · -- another node has come behind the predecessor
      cases hstep
      exact .load hsound hl rfl rfl rfl (.inr rfl) trivial
    · rename_i hload
      have hpoints' := hpoints.succ fun p' hp' => by
        obtain rfl : p = p' := Option.some.inj (hp.symm.trans hp')
        exact ⟨hmarked p hp, not_not.mp hload⟩
      split at hstep <;> cases hstep
      · exact .load hsound hl rfl rfl rfl (.inr rfl) ⟨hplan, by omega, hpoints'⟩
      · refine .load hsound hl rfl rfl rfl (.inr rfl) ⟨hplan, ?_⟩
        exact hpoints'.mono le_rfl (by omega)
  | create =>
    -- all predecessors are locked, unmarked and point to the successors
    simp only [InsertStep.step] at hstep
    split at hstep
    · split at hstep
      · cases hstep
      · rename_i hfree
        cases hstep
        exact outcome_create hsound hl (by simpa using hfree)
    · cases hstep
  | initForward new level =>
    cases hstep
    exact outcome_initForward hsound hl
  | lockOwnership new =>
    simp only [InsertStep.step] at hstep
    split at hstep <;> cases hstep
    exact .of_heap hsound hl rfl rfl rfl rfl rfl (.inl rfl) ⟨hplan, hfacts⟩
  | pushOwned new =>
    cases hstep
    exact .of_heap hsound hl rfl rfl rfl rfl rfl (.inl rfl) ⟨hplan, hfacts⟩
  | unlockOwnership new =>
    obtain ⟨hpoints, hnew, hinit⟩ := hfacts
    cases hstep
    exact .of_heap hsound hl rfl rfl rfl rfl rfl (.inl rfl) ⟨hplan, Nat.zero_le _,
      fun l p _ hl => absurd hl (Nat.not_lt_zero l), hpoints, hnew, fun l _ hl => hinit l hl⟩
  | link new level =>
    simp only [InsertStep.step, Option.bind_eq_bind, Option.bind_eq_some_iff] at hstep
    obtain ⟨p, hp, heq⟩ := hstep
    cases heq
    exact outcome_link hsound hl hp
  | storeFullyLinked new =>
    -- all levels are linked
    obtain ⟨hlinked, hnew⟩ := hfacts
    cases hstep
    have heffect : Effect (s.Mine t) (some new) [] [] s.heap (s.heap.storeFullyLinked new) :=
      hsound.storeFullyLinked new
    refine .of_effect hl heffect rfl rfl (fun n hn => by cases hn)
      ⟨hplan.move heffect.moves, fun level p _ hlevel hp => ?_⟩
    rw [marked_storeFullyLinked, loadForward_storeFullyLinked]
    exact hlinked level p (Nat.zero_le level) (by omega) hp
  | addSize new =>
    cases hstep
    exact .of_heap hsound hl rfl rfl rfl rfl rfl (.inr rfl) ⟨hplan, trivial⟩
  | loadLevel =>
    cases hstep
    obtain ⟨hraise, hheld, hown⟩ := i.raise_plain held s.currentLevel hplan
    exact .load hsound hl rfl rfl hheld (.inr hown) hraise
  | raiseLevel observed =>
    obtain ⟨hraise, hheld, hown⟩ := i.raise_plain held s.currentLevel hplan
    simp only [InsertStep.step] at hstep
    split at hstep
    · -- `compare_exchange_weak` fails although it need not
      cases hstep
      exact .load hsound hl rfl rfl hheld (.inr hown) hraise
    · split at hstep <;> cases hstep
      · exact .of_heap hsound hl rfl rfl rfl rfl rfl (.inr rfl) trivial
      · -- another thread has changed `current_level_`
        exact .load hsound hl rfl rfl hheld (.inr hown) hraise

end Insert

/-! ## Delete behind LockNodes -/

section Remove

variable {d : Removal K} {held : List NodeId} {choice : Choice K V}

theorem Removal.recompute_plain (d : Removal K) (held : List NodeId) (level : Nat)
    (hplan : (Plan.remove d).Facts h held) :
    (d.recompute (V := V) held level).Facts h ∧ (d.recompute (V := V) held level).held = held ∧
      (d.recompute (V := V) held level).own = none := by
  unfold Removal.recompute
  split <;> exact ⟨⟨hplan, trivial⟩, rfl, rfl⟩

/-- `Delete`: the victim is marked. -/
theorem outcome_storeMarked (hsound : s.heap.Sound)
    (hl : (Local.remove d held .storeMarked).Asserts t s) :
    Outcome t s (.remove d held .storeMarked)
      { s with heap := s.heap.storeMarked d.victim }
      (.remove d held (.loadNext (s.heap.node d.victim).topLevel)) := by
  obtain ⟨hplan, hfully, hunmarked, hpoints⟩ := hl.facts
  obtain ⟨hsearched, hvictim, hkey, hmem, hcovers⟩ := id hplan
  have heffect : Effect (s.Mine t) none [] [] s.heap (s.heap.storeMarked d.victim) :=
    hsound.storeMarked (hl.holds _ hmem) hfully
  refine .of_effect hl heffect rfl rfl (fun n hn => by cases hn) ⟨hplan.move heffect.moves, ?_⟩
  refine
    { le := by simp
      marked := marked_storeMarked.mpr (.inl rfl)
      below := fun level p _ hlevel hp => ?_
      above := fun level p hlo hhi hp => ?_
      unlisted := fun level hlevel hlisted => ?_ }
  · obtain ⟨hmarked, hload⟩ := hpoints level p (Nat.zero_le level) hlevel hp
    have hleads := hsound.leads (hsound.allocated (hsearched.listed hp hmarked).1) hload
    -- the victim is not its own predecessor
    have hne : p ≠ d.victim := by
      rintro rfl
      exact lt_irrefl _ (hleads.before.resolve_left hvictim.ne_head)
    rw [loadForward_storeMarked]
    refine ⟨?_, hload⟩
    by_contra hmarked'
    rcases marked_storeMarked.mp (by simpa using hmarked') with heq | hm
    · exact hne heq
    · exact absurd hm (by simp [hmarked])
  · simp only [topLevel_storeMarked] at hhi
    omega
  · -- no list of a level above its top level contains it
    rw [listed_congr (h := s.heap) fun n => by simp] at hlisted
    have hle := hsound.le_topLevel hlisted hvictim.ne_head
    omega

/-- `Delete`: the victim is unlinked at a level. -/
theorem outcome_unlink (hsound : s.heap.Sound) {p : NodeId} {level : Nat}
    {next : Option NodeId} (hl : (Local.remove d held (.unlink level next)).Asserts t s)
    (hp : d.found.predecessors level = some p) :
    Outcome t s (.remove d held (.unlink level next))
      { s with heap := s.heap.storeForward p level next }
      (.remove d held (.unlinkFrom level)) := by
  obtain ⟨hplan, hunlinking, rfl⟩ := hl.facts
  obtain ⟨hsearched, hvictim, hkey, hmem, hcovers⟩ := id hplan
  have hle := hunlinking.le
  obtain ⟨hmarked, hload⟩ := hunlinking.below level p (Nat.zero_le level)
    (Nat.lt_succ_self level) hp
  have hlisted := (hsearched.listed hp hmarked).1
  have heffect : Effect (s.Mine t) none [] (if level = 0 then [d.victim] else []) s.heap
      (s.heap.storeForward p level (s.heap.loadForward d.victim level)) := hsound.unlink
    (hl.holds p (hcovers level p (by omega) hp)) (hl.holds _ hmem) hlisted hmarked hload
    hunlinking.marked (hunlinking.unlisted (level + 1) (Nat.lt_succ_self level))
  have hne : d.victim ≠ p := by
    intro heq
    exact absurd hunlinking.marked (by simp [heq, hmarked])
  cases level with
  | zero =>
    -- the victim has left the list of level 0
    exact .of_effect hl heffect rfl rfl (fun n hn => by cases hn)
      ⟨hplan.move heffect.moves, trivial⟩
  | succ level =>
    refine .of_effect hl heffect rfl rfl (fun n hn => by cases hn)
      ⟨hplan.move heffect.moves, ?_⟩
    refine
      { le := by simpa using Nat.le_of_succ_le hle
        marked := by simpa using hunlinking.marked
        below := ?_
        above := fun l p' hlo hhi hp' => ?_
        unlisted := fun l hl' hlisted' => ?_ }
    · refine (hunlinking.below.mono le_rfl (Nat.le_succ _)).storeForward fun l p' _ hl' _ heq => ?_
      exact absurd heq.2 (Nat.ne_of_lt hl')
    · rw [topLevel_storeForward] at hhi
      simp only [marked_storeForward, loadForward_storeForward, hne, false_and, if_false]
      by_cases hlevel : l = level + 1
      · subst hlevel
        obtain rfl : p = p' := Option.some.inj (hp.symm.trans hp')
        simp [hmarked]
      · simp only [hlevel, and_false, if_false]
        exact hunlinking.above l p' (by omega) hhi hp'
    · rw [hsound.listed_unlink hlisted hload] at hlisted'
      by_cases hlevel : l = level + 1
      · exact hlisted'.2 ⟨hlevel, rfl⟩
      · exact hunlinking.unlisted l (by omega) hlisted'.1

/-- A check of `Delete` behind `LockNodes`. -/
def RemoveStep.isCheck : RemoveStep → Bool
  | fullyLinked | marked | predecessorMarked _ | forward _ => true
  | _ => false

/-- Where a check of `Delete` leads: to a new attempt, to the next check, or behind all of
    them. -/
inductive Removal.Checked (d : Removal K) (held : List NodeId) : Local K V → Prop where
  | refused : Checked d held (d.refuse held)
  | passed {next : RemoveStep} (hnext : next.isCheck = true ∨ next = .storeMarked) :
      Checked d held (.remove d held next)

/-- The checks of `Delete` change nothing. -/
theorem RemoveStep.step_check {step : RemoveStep} (hcheck : step.isCheck = true)
    (hstep : step.step s d held = some (s', l')) : s' = s ∧ d.Checked held l' := by
  cases step with
  | fullyLinked =>
    simp only [RemoveStep.step] at hstep
    split at hstep <;> cases hstep
    · exact ⟨rfl, .passed (.inl rfl)⟩
    · exact ⟨rfl, .refused⟩
  | marked =>
    simp only [RemoveStep.step] at hstep
    split at hstep
    · -- another `Delete` was faster
      cases hstep
      exact ⟨rfl, .refused⟩
    · split at hstep <;> cases hstep
      · exact ⟨rfl, .passed (.inl rfl)⟩
      · exact ⟨rfl, .refused⟩
  | predecessorMarked level =>
    simp only [RemoveStep.step] at hstep
    split at hstep
    · -- `FindNode` has found no predecessor at the level
      cases hstep
      exact ⟨rfl, .refused⟩
    · split at hstep <;> cases hstep
      · exact ⟨rfl, .refused⟩
      · exact ⟨rfl, .passed (.inl rfl)⟩
  | forward level =>
    simp only [RemoveStep.step, Option.bind_eq_bind, Option.bind_eq_some_iff] at hstep
    obtain ⟨p, -, hstep⟩ := hstep
    split at hstep
    · -- the predecessor does not point to the victim
      cases hstep
      exact ⟨rfl, .refused⟩
    · split at hstep <;> cases hstep
      · exact ⟨rfl, .passed (.inl rfl)⟩
      · exact ⟨rfl, .passed (.inr rfl)⟩
  | _ => cases hcheck

/-- `Delete` behind `LockNodes`: what a check has seen of the locked nodes is still true when the
    victim is unlinked. -/
theorem RemoveStep.outcome (hsound : s.heap.Sound) {step : RemoveStep}
    (hl : (Local.remove d held step).Asserts t s)
    (hstep : step.step s d held = some (s', l')) :
    Outcome t s (.remove d held step) s' l' := by
  obtain ⟨hplan, hfacts⟩ := hl.facts
  cases step with
  | fullyLinked =>
    simp only [RemoveStep.step] at hstep
    split at hstep <;> cases hstep
    · rename_i hfully
      exact .load hsound hl rfl rfl rfl (.inr rfl) ⟨hplan, hfully⟩
    · exact .load hsound hl rfl rfl rfl (.inr rfl) trivial
  | marked =>
    simp only [RemoveStep.step] at hstep
    split at hstep
    · -- another `Delete` was faster
      cases hstep
      exact .load hsound hl rfl rfl rfl (.inr rfl) trivial
    · rename_i hmarked
      rw [Bool.not_eq_true] at hmarked
      split at hstep <;> cases hstep
      · exact .load hsound hl rfl rfl rfl (.inr rfl) ⟨hplan, Nat.zero_le _, hfacts, hmarked,
          fun l p _ hl => absurd hl (Nat.not_lt_zero l)⟩
      · exact .load hsound hl rfl rfl rfl (.inr rfl) trivial
  | predecessorMarked level =>
    obtain ⟨hlevel, hfully, hunmarked, hpoints⟩ := hfacts
    simp only [RemoveStep.step] at hstep
    split at hstep
    · -- `FindNode` has found no predecessor at the level
      cases hstep
      exact .load hsound hl rfl rfl rfl (.inr rfl) trivial
    · rename_i p hp
      split at hstep <;> cases hstep
      · exact .load hsound hl rfl rfl rfl (.inr rfl) trivial
      · rename_i hmarked
        refine .load hsound hl rfl rfl rfl (.inr rfl)
          ⟨hplan, hlevel, hfully, hunmarked, hpoints, fun p' hp' => ?_⟩
        obtain rfl : p = p' := Option.some.inj (hp.symm.trans hp')
        simpa using hmarked
  | forward level =>
    obtain ⟨hlevel, hfully, hunmarked, hpoints, hmarked⟩ := hfacts
    simp only [RemoveStep.step, Option.bind_eq_bind, Option.bind_eq_some_iff] at hstep
    obtain ⟨p, hp, hstep⟩ := hstep
    split at hstep
    · -- the predecessor does not point to the victim
      cases hstep
      exact .load hsound hl rfl rfl rfl (.inr rfl) trivial
    · rename_i hload
      have hpoints' := hpoints.succ fun p' hp' => by
        obtain rfl : p = p' := Option.some.inj (hp.symm.trans hp')
        exact ⟨hmarked p hp, not_not.mp hload⟩
      split at hstep <;> cases hstep
      · exact .load hsound hl rfl rfl rfl (.inr rfl)
          ⟨hplan, by omega, hfully, hunmarked, hpoints'⟩
      · exact .load hsound hl rfl rfl rfl (.inr rfl)
          ⟨hplan, hfully, hunmarked, hpoints'.mono le_rfl (by omega)⟩
  | storeMarked =>
    cases hstep
    exact outcome_storeMarked hsound hl
  | loadNext level =>
    -- the pointers of the victim are frozen
    cases hstep
    exact .load hsound hl rfl rfl rfl (.inr rfl) ⟨hplan, hfacts, rfl⟩
  | unlink level next =>
    simp only [RemoveStep.step, Option.bind_eq_bind, Option.bind_eq_some_iff] at hstep
    obtain ⟨p, hp, heq⟩ := hstep
    cases heq
    exact outcome_unlink hsound hl hp
  | subSize =>
    cases hstep
    obtain ⟨hrecompute, hheld, hown⟩ :=
      d.recompute_plain (V := V) held s.maxLevel (by exact hplan)
    exact .of_heap hsound hl rfl rfl rfl rfl hheld (.inr hown) hrecompute
  | headForward level =>
    simp only [RemoveStep.step] at hstep
    split at hstep <;> cases hstep
    · -- the level is empty
      obtain ⟨hrecompute, hheld, hown⟩ :=
        d.recompute_plain (V := V) held (level - 1) (by exact hplan)
      exact .load hsound hl rfl rfl hheld (.inr hown) hrecompute
    · exact .load hsound hl rfl rfl rfl (.inr rfl) ⟨hplan, trivial⟩
  | storeLevel level =>
    cases hstep
    exact .of_heap hsound hl rfl rfl rfl rfl rfl (.inr rfl) trivial

end Remove

/-! ## All steps -/

/-- `RandomLevel` has been drawn. -/
theorem randomLevel_facts {key : K} {value : V} {found : FindResult} (nodeLevel : Nat)
    (hfacts : (Local.randomLevel key value found).Facts h) :
    (Local.lockNodes (.insert { key, value, found, nodeLevel }) []
      (lockTargets h (predecessorsUpTo found nodeLevel))).Facts h := by
  refine ⟨nodup_lockTargets _ _, hfacts.1, hfacts.2, ?_⟩
  have hcovers := covers_lockTargets h found nodeLevel []
  rw [List.append_nil] at hcovers
  exact hcovers

/-- Every step from a point whose assertion is true. -/
theorem Local.Asserts.outcome (hl : l.Asserts t s) (hsound : s.heap.Sound) {choice : Choice K V}
    (hstep : l.step s t choice = some (s', l')) : Outcome t s l s' l' := by
  cases l with
  | idle =>
    simp only [Local.step] at hstep
    split at hstep <;> cases hstep
    rename_i call
    cases call with
    | scan start stop =>
      show Outcome t s .idle s (if stop < start then _ else _)
      split <;> exact .load hsound hl rfl rfl rfl (.inr rfl) trivial
    | _ => exact .load hsound hl rfl rfl rfl (.inr rfl) trivial
  | loadLevel update =>
    simp only [Local.step, Option.bind_eq_bind, Option.bind_eq_some_iff] at hstep
    obtain ⟨l'', hfind, heq⟩ := hstep
    cases heq
    obtain ⟨hfacts, hheld, hown⟩ := findFrom_facts hsound
      (hsound.searched_above s.currentLevel update.key) (hsound.reached_head _ _) hfind
    exact .load hsound hl rfl rfl hheld (.inr hown) hfacts
  | find update level predecessor found =>
    simp only [Local.step, Option.bind_eq_bind, Option.bind_eq_some_iff] at hstep
    obtain ⟨l'', hfind, heq⟩ := hstep
    cases heq
    obtain ⟨hfacts, hheld, hown⟩ := findStep_facts hsound hl.facts.1 hl.facts.2 hfind
    exact .load hsound hl rfl rfl hheld (.inr hown) hfacts
  | assign key value existing step => exact AssignStep.outcome hsound hl hstep
  | randomLevel key value found =>
    simp only [Local.step] at hstep
    split at hstep
    · split at hstep <;> cases hstep
      exact .load hsound hl rfl rfl rfl (.inr rfl) (randomLevel_facts _ hl.facts)
    · cases hstep
  | lockNodes plan held rest =>
    obtain ⟨hnodup, hplan⟩ := hl.facts
    simp only [Local.step] at hstep
    split at hstep
    · -- one more node is locked
      rename_i node rest
      simp only [Option.bind_eq_bind, Option.bind_eq_some_iff] at hstep
      obtain ⟨s₁, hlock, heq⟩ := hstep
      cases heq
      have happend : held ++ [node] ++ rest = held ++ node :: rest := by simp
      refine .lock hsound hl hlock rfl rfl rfl ?_ (fun n => ?_) ?_
      · exact (happend ▸ hnodup).of_append_left
      · simp [Local.held, or_comm]
      · exact ⟨happend ▸ hnodup, happend ▸ hplan⟩
    · -- all nodes are locked, and the checks begin
      rw [List.append_nil] at hplan
      cases plan with
      | insert i =>
        cases hstep
        exact .load hsound hl rfl rfl rfl (.inr rfl)
          ⟨hplan, Nat.zero_le _, fun l p _ hl => absurd hl (Nat.not_lt_zero l)⟩
      | remove d =>
        cases hstep
        exact .load hsound hl rfl rfl rfl (.inr rfl) ⟨hplan, trivial⟩
  | insert i held step => exact InsertStep.outcome hsound hl hstep
  | remove d held step => exact RemoveStep.outcome hsound hl hstep
  | read reader step => exact ReadStep.outcome hsound hl hstep
  | unlock held next =>
    simp only [Local.step] at hstep
    split at hstep <;> cases hstep
    · exact .unlock hsound hl
    · obtain ⟨hfacts, hheld, hown⟩ := next.start_plain s.heap
      exact .load hsound hl rfl rfl hheld (.inr hown) hfacts
  | returning call answer =>
    cases hstep
    exact .load hsound hl rfl rfl rfl (.inr rfl) trivial

end ConcurrentSkipList

end KvStore
