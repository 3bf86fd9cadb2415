import KvStore.Spec.ConcurrentContents
import KvStore.Spec.ConcurrentProgress
import KvStore.Spec.ConcurrentRead

/-!
# Put and Delete are linearizable

Whatever can be seen of the calls of `Put` and `Delete`, when they begin and what they
return, can be seen of a map that is updated atomically (`State.updates_linearizable`). The
skip list is followed by an `AtomicMap` step by step: an update is committed where
`Local.commits` says, and a `Delete` that finds no node has passed through a state without
the key, because its search does not lead past a key that is there all the time
(`Searchable`).
-/

namespace KvStore

namespace ConcurrentSkipList

open SkipList (head)
open Heap
open AtomicMap (Phase Event)

variable {K V T : Type}

/-! ## What can be seen of a call -/

/-- The update that a call makes. -/
def Call.update : Call K V → Option (Update K V)
  | put key value => some (.put key value)
  | delete key => some (.delete key)
  | _ => none

/-- The update that a call has made, and what it returns. -/
def Call.answered : Call K V → Answer K V → Option (Update K V × Bool)
  | put key value, .put inserted => some (.put key value, inserted)
  | delete key, .delete deleted => some (.delete key, deleted)
  | _, _ => none

/-- What a call that returns has done to the map. -/
def Call.phase (call : Call K V) (answer : Answer K V) : Phase K V :=
  match call.answered answer with
  | some (update, answer) => .done update answer
  | none => .idle

def Plan.update : Plan K V → Update K V
  | insert i => .put i.key i.value
  | remove d => .delete d.key

def Next.phase : Next K V → Phase K V
  | retry update => .called update
  | done call answer => call.phase answer
  | resume _ _ => .idle

/-- The new node is fully linked. -/
def InsertStep.committed : InsertStep → Bool
  | addSize _ | loadLevel | raiseLevel _ => true
  | _ => false

/-- The victim is marked. -/
def RemoveStep.committed : RemoveStep → Bool
  | loadNext _ | unlink _ _ | subSize | headForward _ | storeLevel _ => true
  | _ => false

namespace Local

/-- What the thread has done to the map. -/
def phase : Local K V → Phase K V
  | idle => .idle
  | loadLevel update => .called update
  | find update _ _ _ => .called update
  | assign key value _ _ => .called (.put key value)
  | randomLevel key value _ => .called (.put key value)
  | lockNodes plan _ _ => .called plan.update
  | insert i _ step =>
    if step.committed then .done (.put i.key i.value) true else .called (.put i.key i.value)
  | remove d _ step => if step.committed then .done (.delete d.key) true else .called (.delete d.key)
  | read _ _ => .idle
  | unlock _ next => next.phase
  | returning call answer => call.phase answer

/-- What can be seen of the next step of the thread. -/
def emits : Local K V → Choice K V → List (Event K V)
  | idle, .call call => (call.update.map .call).toList
  | returning call answer, _ =>
    ((call.answered answer).map fun answered => .answer answered.1 answered.2).toList
  | _, _ => []

/-- `FindNode` in a `Delete` has come to a node that was in the list in one of the states. -/
def Seeks (states : List (State K V T)) : Local K V → Prop
  | find (.delete _) _ p _ => Seen states p
  | _ => True

end Local

variable [LinearOrder K]

/-- What a step does for the map. -/
inductive Advances (s : Shared K V T) (l : Local K V) (choice : Choice K V) (l' : Local K V) :
    Prop where
  | stays (hcommits : l.commits = none) (hemits : l.emits choice = [])
      (hphase : l'.phase = l.phase)
  | calls (update : Update K V) (hcommits : l.commits = none) (hphase : l.phase = .idle)
      (hemits : l.emits choice = [.call update]) (hphase' : l'.phase = .called update)
      (hseeks : ∀ states : List (State K V T), l'.Seeks states)
  | commits (update : Update K V) (answer : Bool) (hcommits : l.commits = some (update, answer))
      (hemits : l.emits choice = []) (hphase : l.phase = .called update)
      (hphase' : l'.phase = .done update answer)
  | misses (key : K) (hcommits : l.commits = none) (hemits : l.emits choice = [])
      (hphase : l.phase = .called (.delete key)) (hphase' : l'.phase = .done (.delete key) false)
      (hmiss : ∀ states : List (State K V T), Searchable states s.heap → l.Seeks states →
        ¬ Stable states key)
  | returns (update : Update K V) (answer : Bool) (hcommits : l.commits = none)
      (hphase : l.phase = .done update answer) (hemits : l.emits choice = [.answer update answer])
      (hphase' : l'.phase = .idle)

/-- What a step does for the map, and what it does to what the outline leaves out. -/
structure Advanced (s : Shared K V T) (l : Local K V) (choice : Choice K V) (s' : Shared K V T)
    (l' : Local K V) : Prop where
  advances : Advances s l choice l'
  tracks : l'.Tracks s'.heap
  level : 0 < s'.currentLevel
  seeks : ∀ states : List (State K V T), Searchable states s.heap → Seen states head →
    l.Seeks states → l'.Seeks states

section

variable {s s' : Shared K V T} {t : T} {l l' : Local K V} {h : Heap K V} {choice : Choice K V}

/-! ## FindNode -/

/-- Behind `FindNode` the call goes on as before, unless it is a `Delete` that returns `false`
    because no level had the key. -/
theorem afterFind_advances {update : Update K V} {found : FindResult} (hsound : h.Sound)
    (hsearched : h.Searched update.key found 0) (hafter : afterFind h found update = some l) :
    (l.phase = .called update ∧ l.Tracks h ∧ ∀ states : List (State K V T), l.Seeks states) ∨
      found.foundLevel = none ∧
        ∃ key, update = .delete key ∧ l = .returning (.delete key) (.delete false) := by
  unfold afterFind at hafter
  cases update with
  | put key value =>
    cases hfound : found.foundLevel with
    | none =>
      simp only [hfound] at hafter
      cases hafter
      exact .inl ⟨rfl, trivial, fun _ => trivial⟩
    | some level =>
      obtain ⟨-, existing, hexisting, hkey⟩ := hsearched.present level hfound
      simp only [hfound, hexisting, Option.bind_eq_bind, Option.bind_some] at hafter
      cases hafter
      -- the node that is found is where the search has stopped
      have hbeyond := hsearched.successor level existing (Nat.zero_le level) hexisting
      refine .inl ⟨rfl, ⟨?_, hkey, trivial⟩, fun _ => trivial⟩
      exact { hbeyond with
        topLevel := Nat.zero_le _
        published := hsound.published_of_le (Nat.zero_le level) hbeyond.published }
  | delete key =>
    cases hfound : found.foundLevel with
    | none =>
      simp only [hfound] at hafter
      cases hafter
      -- no level has the key: this is the miss
      exact .inr ⟨rfl, key, rfl, rfl⟩
    | some level =>
      -- the victim still has to be locked and marked
      obtain ⟨-, victim, hvictim, -⟩ := hsearched.present level hfound
      simp only [hfound, hvictim] at hafter
      cases hafter
      exact .inl ⟨rfl, trivial, fun _ => trivial⟩

/-- A search that stops on level 0 without the key has not come past a key that is in the list
    all the time. -/
theorem not_stable_of_stop {states : List (State K V T)} {key : K} {p : NodeId}
    (hsearch : Searchable states h) (hp : Seen states p) (hbefore : h.Before p key)
    (hstop : h.passes key (h.loadForward p 0) = none)
    (hkey : h.holdsKey key (h.loadForward p 0) = false) : ¬ Stable states key := by
  intro hstable
  obtain ⟨q, hload, hlt | ⟨heq, -⟩⟩ := hsearch.next p key hp hstable hbefore
  · exact passes_eq_none.mp hstop q hload hlt
  · exact absurd (holdsKey_iff.mpr ⟨q, hload, heq⟩) (by simp [hkey])

/-- A level of `FindNode`. The search of a `Delete` that ends without the key is a miss. -/
theorem find_advanced {update : Update K V} {level : Nat} {p : NodeId} {found : FindResult}
    (hl : (Local.find update level p found).Asserts t s) (hsound : s.heap.Sound)
    (hlevel : 0 < s.currentLevel)
    (hfind : findStep s.heap update level p found (s.heap.loadForward p level) = some l') :
    Advanced s (.find update level p found) choice s l' := by
  obtain ⟨hp, hsearched⟩ := hl.facts
  unfold findStep at hfind
  cases hpasses : s.heap.passes update.key (s.heap.loadForward p level) with
  | some node =>
    -- one node on, which the list has had in one of the states
    simp only [hpasses] at hfind
    cases hfind
    obtain ⟨hload, -⟩ := passes_eq_some.mp hpasses
    refine ⟨.stays rfl rfl rfl, trivial, hlevel, fun states hsearch _ hseeks => ?_⟩
    cases update with
    | put key value => trivial
    | delete key => exact hsearch.closed p level node hseeks hload
  | none =>
    simp only [hpasses] at hfind
    have hsearched' := hsound.searched_level hsearched hp hpasses
    cases level with
    | succ level =>
      -- one level down, with the same node
      cases hfind
      refine ⟨.stays rfl rfl rfl, trivial, hlevel, fun states _ _ hseeks => ?_⟩
      cases update <;> exact hseeks
    | zero =>
      rcases afterFind_advances (T := T) hsound hsearched' hfind with
        ⟨hphase, htracks, hseeks⟩ | ⟨hnone, key, rfl, rfl⟩
      · exact ⟨.stays rfl rfl hphase, htracks, hlevel, fun states _ _ _ => hseeks states⟩
      · -- the key has been found on no level, so not on level 0 either
        have hkey : s.heap.holdsKey key (s.heap.loadForward p 0) = false := by
          by_contra hkey
          rw [Bool.not_eq_false] at hkey
          cases hfound : found.foundLevel <;> simp [hfound, hkey, Update.key] at hnone
        exact ⟨.misses key rfl rfl rfl rfl fun states hsearch hseeks =>
          not_stable_of_stop hsearch hseeks hp.before hpasses hkey, trivial, hlevel,
          fun _ _ _ _ => trivial⟩

/-! ## All steps -/

/-- A step that does nothing for the map. -/
theorem Advanced.stay (hcommits : l.commits = none) (hemits : l.emits choice = [])
    (hphase : l'.phase = l.phase) (htracks : l'.Tracks s'.heap) (hlevel : 0 < s'.currentLevel)
    (hseeks : ∀ states : List (State K V T), l'.Seeks states) : Advanced s l choice s' l' :=
  ⟨.stays hcommits hemits hphase, htracks, hlevel, fun states _ _ _ => hseeks states⟩

/-- Nothing is known of the node of a `Put` that has none of its own. -/
theorem Local.tracks_insert {i : Insertion K V} {held : List NodeId} {step : InsertStep}
    (hown : (Local.insert i held step).own = none) : (Local.insert i held step).Tracks h := by
  intro n hn
  rw [hown] at hn
  cases hn

/-- `Put` on a key that is found: the store of the value is its commit. -/
theorem AssignStep.advanced {key : K} {value : V} {existing : NodeId} {step : AssignStep}
    (htracks : (Local.assign key value existing step).Tracks s.heap) (hlevel : 0 < s.currentLevel)
    (hstep : step.step s t key value existing = some (s', l')) :
    Advanced s (.assign key value existing step) choice s' l' := by
  obtain ⟨hbeyond, hkey, hfacts⟩ := id htracks
  cases step with
  | lock =>
    simp only [AssignStep.step, Option.bind_eq_bind, Option.bind_eq_some_iff] at hstep
    obtain ⟨s₁, hlock, heq⟩ := hstep
    cases heq
    obtain ⟨-, rfl⟩ := Shared.lock_eq_some.mp hlock
    exact .stay rfl rfl rfl ⟨hbeyond, hkey, trivial⟩ hlevel fun _ => trivial
  | marked =>
    -- the node is locked, so it stays unmarked once it has been seen so
    simp only [AssignStep.step] at hstep
    split at hstep <;> cases hstep
    · exact .stay rfl rfl rfl trivial hlevel fun _ => trivial
    · rename_i hmarked
      rw [Bool.not_eq_true] at hmarked
      exact .stay rfl rfl rfl ⟨hbeyond, hkey, hmarked⟩ hlevel fun _ => trivial
  | fullyLinked =>
    simp only [AssignStep.step] at hstep
    split at hstep <;> cases hstep
    · rename_i hfully
      exact .stay rfl rfl rfl ⟨hbeyond, hkey, hfacts, hfully⟩ hlevel fun _ => trivial
    · exact .stay rfl rfl rfl trivial hlevel fun _ => trivial
  | store =>
    -- the value is the map's from here on
    cases hstep
    exact ⟨.commits _ _ rfl rfl rfl rfl, trivial, hlevel, fun _ _ _ _ => trivial⟩

/-- `Put` behind `LockNodes`: the store of `fully_linked` is its commit. -/
theorem InsertStep.advanced {i : Insertion K V} {held : List NodeId} {step : InsertStep}
    (htracks : (Local.insert i held step).Tracks s.heap) (hlevel : 0 < s.currentLevel)
    (hstep : step.step s t choice i held = some (s', l')) :
    Advanced s (.insert i held step) choice s' l' := by
  -- `current_level_` says nothing about the map
  have hraise : ∀ {step : InsertStep},
      (Local.insert i held step).phase = .done (.put i.key i.value) true →
      (Local.insert i held step).commits = none →
      Advanced s (.insert i held step) choice s (i.raise held s.currentLevel) := by
    intro step hphase hcommits
    unfold Insertion.raise
    split
    · exact .stay hcommits rfl hphase.symm (Local.tracks_insert rfl) hlevel fun _ => trivial
    · exact .stay hcommits rfl hphase.symm trivial hlevel fun _ => trivial
  cases step with
  | predecessorMarked level | successorMarked level | forward level =>
    obtain ⟨rfl, hchecked⟩ := step_check rfl hstep
    cases hchecked with
    | refused => exact .stay rfl rfl rfl trivial hlevel fun _ => trivial
    | @passed next hnext =>
      -- a `Put` that has passed a check is as little done as before
      cases next <;> first
        | exact .stay rfl rfl rfl (Local.tracks_insert rfl) hlevel fun _ => trivial
        | simp [isCheck] at hnext
  | create =>
    simp only [InsertStep.step] at hstep
    split at hstep
    · split at hstep <;> cases hstep
      refine .stay rfl rfl rfl (fun n hn => ?_) hlevel fun _ => trivial
      cases hn
      simp
    · cases hstep
  | initForward node level =>
    -- the value of the new node is that of the call
    cases hstep
    refine .stay rfl rfl ?_ (fun n hn => ?_) hlevel fun _ => trivial
    · by_cases h : level < i.nodeLevel <;> simp [Local.phase, InsertStep.committed, h]
    · have heq : n = node := by
        by_cases h : level < i.nodeLevel <;> simp [Local.own, h] at hn <;> exact hn.symm
      rw [value_storeForward, heq]
      exact htracks node rfl
  | lockOwnership node =>
    simp only [InsertStep.step] at hstep
    split at hstep <;> cases hstep
    exact .stay rfl rfl rfl htracks hlevel fun _ => trivial
  | pushOwned node | unlockOwnership node =>
    cases hstep
    exact .stay rfl rfl rfl htracks hlevel fun _ => trivial
  | link node level =>
    simp only [InsertStep.step, Option.bind_eq_bind, Option.bind_eq_some_iff] at hstep
    obtain ⟨p, -, heq⟩ := hstep
    cases heq
    refine .stay rfl rfl ?_ (fun n hn => ?_) hlevel fun _ => trivial
    · by_cases h : level < i.nodeLevel <;> simp [Local.phase, InsertStep.committed, h]
    · have heq : n = node := by
        by_cases h : level < i.nodeLevel <;> simp [Local.own, h] at hn <;> exact hn.symm
      rw [value_storeForward, heq]
      exact htracks node rfl
  | storeFullyLinked node =>
    -- the node is in the map from here on
    cases hstep
    exact ⟨.commits _ _ rfl rfl rfl rfl, Local.tracks_insert rfl, hlevel, fun _ _ _ _ => trivial⟩
  | addSize node =>
    cases hstep
    exact .stay rfl rfl rfl (Local.tracks_insert rfl) hlevel fun _ => trivial
  | loadLevel =>
    cases hstep
    exact hraise rfl rfl
  | raiseLevel observed =>
    simp only [InsertStep.step] at hstep
    split at hstep
    · cases hstep
      exact hraise rfl rfl
    · split at hstep <;> cases hstep
      · exact .stay rfl rfl rfl trivial (Nat.succ_pos _) fun _ => trivial
      · exact hraise rfl rfl

/-- The scan of `RecomputeCurrentLevel` does nothing for the map, and does not end at zero. -/
theorem recompute_advanced {d : Removal K} {held : List NodeId} {step : RemoveStep} {level : Nat}
    (hphase : (Local.remove (V := V) d held step).phase = .done (.delete d.key) true)
    (hcommits : (Local.remove (V := V) d held step).commits = none) (hlevel : 0 < s'.currentLevel)
    (hpos : 0 < level) :
    Advanced s (.remove (V := V) d held step) choice s' (d.recompute held level) := by
  unfold Removal.recompute
  split
  · rename_i hlt
    exact .stay hcommits rfl hphase.symm hlt hlevel fun _ => trivial
  · exact .stay hcommits rfl hphase.symm hpos hlevel fun _ => trivial

/-- `Delete` behind `LockNodes`: the store of `marked` is its commit. -/
theorem RemoveStep.advanced {d : Removal K} {held : List NodeId} {step : RemoveStep}
    (htracks : (Local.remove (V := V) d held step).Tracks s.heap) (hlevel : 0 < s.currentLevel)
    (hmax : 0 < s.maxLevel) (hstep : step.step s d held = some (s', l')) :
    Advanced s (.remove d held step) choice s' l' := by
  -- the checks before the victim is marked
  by_cases hcheck : step.isCheck = true
  · obtain ⟨rfl, hchecked⟩ := step_check hcheck hstep
    have hcalled : (Local.remove (V := V) d held step).phase = .called (.delete d.key) ∧
        (Local.remove (V := V) d held step).commits = none := by
      cases step <;> first | exact ⟨rfl, rfl⟩ | cases hcheck
    cases hchecked with
    | refused => exact .stay hcalled.2 rfl hcalled.1.symm trivial hlevel fun _ => trivial
    | @passed next hnext =>
      have hnext' : (Local.remove (V := V) d held next).phase = .called (.delete d.key) ∧
          (Local.remove (V := V) d held next).Tracks s'.heap := by
        cases next <;> first | exact ⟨rfl, trivial⟩ | simp [isCheck] at hnext
      exact .stay hcalled.2 rfl (hnext'.1.trans hcalled.1.symm) hnext'.2 hlevel fun _ => trivial
  cases step with
  | storeMarked =>
    -- the node is out of the map from here on
    cases hstep
    exact ⟨.commits _ _ rfl rfl rfl rfl, trivial, hlevel, fun _ _ _ _ => trivial⟩
  | loadNext level =>
    cases hstep
    exact .stay rfl rfl rfl trivial hlevel fun _ => trivial
  | unlink level next =>
    simp only [RemoveStep.step, Option.bind_eq_bind, Option.bind_eq_some_iff] at hstep
    obtain ⟨p, -, heq⟩ := hstep
    cases heq
    cases level <;> exact .stay rfl rfl rfl trivial hlevel fun _ => trivial
  | subSize =>
    cases hstep
    exact recompute_advanced rfl rfl hlevel hmax
  | headForward level =>
    -- the scan stops at level one, so the level stored is positive
    have hlt : 1 < level := htracks
    simp only [RemoveStep.step] at hstep
    split at hstep <;> cases hstep
    · exact recompute_advanced rfl rfl hlevel (Nat.sub_pos_of_lt hlt)
    · exact .stay rfl rfl rfl (Nat.zero_lt_of_lt hlt) hlevel fun _ => trivial
  | storeLevel level =>
    have hpos : 0 < level := htracks
    cases hstep
    exact .stay rfl rfl rfl trivial hpos fun _ => trivial
  | _ => exact absurd rfl hcheck

/-- A point of a call of `Get` or `Scan`, which does nothing for the map. -/
structure Quiet (T : Type) (l : Local K V) : Prop where
  phase : l.phase = .idle
  tracks : ∀ h, l.Tracks h
  seeks : ∀ states : List (State K V T), l.Seeks states

/-- A node that is looked at has no part in an update. -/
theorem Reader.visit_quiet (reader : Reader K V) (current : Option NodeId) :
    Quiet T (reader.visit h current) := by
  unfold Reader.visit
  cases reader <;> cases current <;> dsimp only <;> (try split) <;>
    exact ⟨rfl, fun _ => trivial, fun _ => trivial⟩

theorem Reader.walkFrom_quiet (reader : Reader K V) (p : NodeId) (level : Nat) :
    Quiet T (reader.walkFrom p level) := by
  cases level <;> exact ⟨rfl, fun _ => trivial, fun _ => trivial⟩

theorem Reader.skip_quiet (reader : Reader K V) (node : NodeId) :
    Quiet T (reader.skip node).start ∧ (reader.skip node).phase = .idle := by
  cases reader <;> exact ⟨⟨rfl, fun _ => trivial, fun _ => trivial⟩, rfl⟩

/-- `Get` and `Scan` do nothing for the map. -/
theorem ReadStep.advanced {reader : Reader K V} {step : ReadStep} (hlevel : 0 < s.currentLevel)
    (hstep : step.step s t reader = some (s', l')) :
    Advanced s (.read reader step) choice s' l' := by
  -- a reader that is no further than before, with and without locks
  have hquiet : ∀ {s'' : Shared K V T} {l''}, 0 < s''.currentLevel → Quiet T l'' →
      Advanced s (.read reader step) choice s'' l'' :=
    fun hlevel hl'' => .stay rfl rfl hl''.phase (hl''.tracks _) hlevel hl''.seeks
  have hread : ∀ {step'}, Quiet T (Local.read reader step') :=
    ⟨rfl, fun _ => trivial, fun _ => trivial⟩
  have hunlock : ∀ {node} {next : Next K V}, next.phase = .idle →
      Quiet T (Local.unlock [node] next) :=
    fun hnext => ⟨hnext, fun _ => trivial, fun _ => trivial⟩
  cases step with
  | loadLevel =>
    cases hstep
    exact hquiet hlevel (reader.walkFrom_quiet ..)
  | walk level predecessor =>
    simp only [ReadStep.step] at hstep
    split at hstep <;> cases hstep
    · exact hquiet hlevel hread
    · exact hquiet hlevel (reader.walkFrom_quiet ..)
  | candidate predecessor | next node =>
    cases hstep
    exact hquiet hlevel (reader.visit_quiet _)
  | marked node =>
    simp only [ReadStep.step] at hstep
    split at hstep <;> cases hstep
    · exact hquiet hlevel (reader.skip_quiet node).1
    · exact hquiet hlevel hread
  | fullyLinked node =>
    simp only [ReadStep.step] at hstep
    split at hstep <;> cases hstep
    · exact hquiet hlevel hread
    · exact hquiet hlevel (reader.skip_quiet node).1
  | lock node =>
    simp only [ReadStep.step, Option.bind_eq_bind, Option.bind_eq_some_iff] at hstep
    obtain ⟨s₁, hlock, heq⟩ := hstep
    cases heq
    obtain ⟨-, rfl⟩ := Shared.lock_eq_some.mp hlock
    exact hquiet hlevel hread
  | markedLocked node =>
    simp only [ReadStep.step] at hstep
    split at hstep <;> cases hstep
    · exact hquiet hlevel (hunlock (reader.skip_quiet (T := T) node).2)
    · exact hquiet hlevel hread
  | fullyLinkedLocked node =>
    simp only [ReadStep.step] at hstep
    split at hstep <;> cases hstep
    · exact hquiet hlevel hread
    · exact hquiet hlevel (hunlock (reader.skip_quiet (T := T) node).2)
  | value node =>
    cases hstep
    exact hquiet hlevel (hunlock (by cases reader <;> rfl))

omit [LinearOrder K] in
theorem Next.start_phase (next : Next K V) : next.start.phase = next.phase := by
  cases next <;> rfl

/-- A call begins: an update is announced, a `Get` or `Scan` is not. -/
theorem idle_advanced (call : Call K V) (hlevel : 0 < s.currentLevel) :
    Advanced s .idle (.call call) s call.start := by
  cases call with
  | put key value | delete key =>
    exact ⟨.calls _ rfl rfl rfl rfl fun _ => trivial, trivial, hlevel, fun _ _ _ _ => trivial⟩
  | get key => exact .stay rfl rfl rfl trivial hlevel fun _ => trivial
  | scan start stop =>
    unfold Call.start
    dsimp only
    split <;> exact .stay rfl rfl rfl trivial hlevel fun _ => trivial

/-- Every step does for the map what its call is at: nothing, its announcement, its commit, its
    miss or its return. -/
theorem Local.Asserts.advanced (hl : l.Asserts t s) (hsound : s.heap.Sound)
    (htracks : l.Tracks s.heap) (hlevel : 0 < s.currentLevel) (hmax : 0 < s.maxLevel)
    (hstep : l.step s t choice = some (s', l')) : Advanced s l choice s' l' := by
  cases l with
  | idle =>
    simp only [Local.step] at hstep
    split at hstep <;> cases hstep
    exact idle_advanced _ hlevel
  | loadLevel update =>
    simp only [Local.step, Option.bind_eq_bind, Option.bind_eq_some_iff] at hstep
    obtain ⟨l'', hfind, heq⟩ := hstep
    cases heq
    -- there is an active level, so the search begins with a load from the head
    obtain ⟨level, hsucc⟩ := Nat.exists_eq_succ_of_ne_zero hlevel.ne'
    rw [hsucc] at hfind
    cases hfind
    refine ⟨.stays rfl rfl rfl, trivial, hlevel, fun states _ hhead _ => ?_⟩
    cases update with
    | put key value => trivial
    | delete key => exact hhead
  | find update level predecessor found =>
    simp only [Local.step, Option.bind_eq_bind, Option.bind_eq_some_iff] at hstep
    obtain ⟨l'', hfind, heq⟩ := hstep
    cases heq
    exact find_advanced hl hsound hlevel hfind
  | assign key value existing step => exact AssignStep.advanced htracks hlevel hstep
  | randomLevel key value found =>
    simp only [Local.step] at hstep
    split at hstep
    · split at hstep <;> cases hstep
      exact .stay rfl rfl rfl trivial hlevel fun _ => trivial
    · cases hstep
  | lockNodes plan held rest =>
    simp only [Local.step] at hstep
    split at hstep
    · simp only [Option.bind_eq_bind, Option.bind_eq_some_iff] at hstep
      obtain ⟨s₁, hlock, heq⟩ := hstep
      cases heq
      obtain ⟨-, rfl⟩ := Shared.lock_eq_some.mp hlock
      exact .stay rfl rfl rfl trivial hlevel fun _ => trivial
    · split at hstep <;> cases hstep
      · exact .stay rfl rfl rfl (Local.tracks_insert rfl) hlevel fun _ => trivial
      · exact .stay rfl rfl rfl trivial hlevel fun _ => trivial
  | insert i held step => exact InsertStep.advanced htracks hlevel hstep
  | remove d held step => exact RemoveStep.advanced htracks hlevel hmax hstep
  | read reader step => exact ReadStep.advanced hlevel hstep
  | unlock held next =>
    simp only [Local.step] at hstep
    split at hstep <;> cases hstep
    · exact .stay rfl rfl rfl trivial hlevel fun _ => trivial
    · refine .stay rfl rfl next.start_phase ?_ hlevel fun _ => ?_ <;> cases next <;> trivial
  | returning call answer =>
    cases hstep
    -- the answer of `Get` and `Scan` is no event
    cases hanswered : call.answered answer with
    | none =>
      exact .stay rfl (by simp [Local.emits, hanswered]) (by simp [Local.phase, Call.phase, hanswered])
        trivial hlevel fun _ => trivial
    | some answered =>
      exact ⟨.returns answered.1 answered.2 rfl (by simp [Local.phase, Call.phase, hanswered])
        (by simp [Local.emits, hanswered]) rfl, trivial, hlevel, fun _ _ _ _ => trivial⟩

end

/-! ## Runs -/

omit [LinearOrder K] in
/-- A node that has been in the list in one of the states is so in more of them. -/
theorem Local.Seeks.append {states : List (State K V T)} {l : Local K V} (hl : l.Seeks states)
    (s : State K V T) : l.Seeks (states ++ [s]) := by
  cases l with
  | find update level p found =>
    cases update with
    | put key value => trivial
    | delete key => exact Seen.append hl s
  | _ => trivial

namespace State

variable [DecidableEq T] {s s' : State K V T} {label : T × Choice K V} {maxLevel : Nat}
  {address : NodeId ↪ Nat}
  {a a' : AtomicMap.State K V T}

omit [LinearOrder K] [DecidableEq T] in
/-- What can be seen of a step. -/
def emits (s : State K V T) (label : T × Choice K V) : List (T × Event K V) :=
  ((s.thread label.1).emits label.2).map fun event => (label.1, event)

/-- `Delete` of a key, called when the log of the atomic map had a certain length: the states
    since then, in which the map was as after some part of the log. -/
def Searching (s : State K V T) (a : AtomicMap.State K V T) (t : T) : Prop :=
  ∃ states : List (State K V T),
    Searchable states s.shared.heap ∧ Seen states head ∧ (s.thread t).Seeks states ∧
    ∀ u ∈ states, ∃ position, a.since t ≤ position ∧ position ≤ a.log.length ∧
      u.shared.heap.Holds (a.mapAt position)

/-- The skip list stands where the atomic map stands. -/
structure Implements (s : State K V T) (a : AtomicMap.State K V T) : Prop where
  outline : outline.Holds s.shared s.thread
  covered : s.Covered
  tracks : ∀ t, (s.thread t).Tracks s.shared.heap
  level : 0 < s.shared.currentLevel
  maxLevel : 0 < s.shared.maxLevel
  holds : s.shared.heap.Holds a.map
  phase : ∀ t, a.phase t = (s.thread t).phase
  searching : ∀ t key, a.phase t = .called (.delete key) → s.Searching a t

/-- What a step of any thread leaves true of the invariants. -/
structure Follows (s' : State K V T) : Prop where
  outline : ConcurrentSkipList.outline.Holds s'.shared s'.thread
  covered : s'.Covered
  tracks : ∀ t, (s'.thread t).Tracks s'.shared.heap
  level : 0 < s'.shared.currentLevel
  maxLevel : 0 < s'.shared.maxLevel

/-- What a step of the threads together does for the map. -/
theorem Implements.advanced (hs : s.Implements a) (hstep : Step s label s') :
    Advanced s.shared (s.thread label.1) label.2 s'.shared (s'.thread label.1) ∧ s'.Follows := by
  have hsound : s.shared.heap.Sound := hs.outline.inv
  have houtline' := outline_step hs.outline hstep
  have hcovered' := hs.covered.step hs.outline hstep
  obtain ⟨shared, pc, hlocal, rfl⟩ := step_iff.mp hstep
  have hl := hs.outline.asserts label.1
  obtain ⟨⟨-, hmoves, -⟩, -⟩ := hl.outcome hsound hlocal
  have hadvanced := hl.advanced hsound (hs.tracks _) hs.level hs.maxLevel hlocal
  refine ⟨?_, houtline', hcovered', fun t => ?_, hadvanced.level, ?_⟩
  · dsimp only
    rwa [Function.update_self]
  · dsimp only
    by_cases ht : t = label.1
    · subst ht
      rw [Function.update_self]
      exact hadvanced.tracks
    · rw [Function.update_of_ne ht]
      -- the other threads have locked other nodes
      refine (hs.tracks t).move hmoves (fun n hn hmine => ?_) ((hs.tracks _).value hlocal)
        (hs.outline.asserts t).facts
      exact ht (Option.some.inj (((hs.outline.asserts t).holds n hn).symm.trans hmine))
  · exact (Local.orderly hlocal).maxLevel ▸ hs.maxLevel

/-- A `Delete` that is searching has all states since its call to refer to, the new one among
    them. -/
theorem Implements.searching_step (hs : s.Implements a) (hstep : Step s label s')
    (hholds' : s'.shared.heap.Holds a'.map) (hlength : a.log.length ≤ a'.log.length)
    (hmapAt : ∀ position, position ≤ a.log.length → a'.mapAt position = a.mapAt position)
    {t : T} {key : K} (hcalled : a.phase t = .called (.delete key))
    (hsince : a'.since t = a.since t) : s'.Searching a' t := by
  obtain ⟨hadvanced, hfollows⟩ := hs.advanced hstep
  obtain ⟨states, hsearch, hhead, hseeks, hstates⟩ := hs.searching t key hcalled
  have hsound : s.shared.heap.Sound := hs.outline.inv
  obtain ⟨shared, pc, hlocal, heq⟩ := step_iff.mp hstep
  obtain ⟨⟨-, hmoves, -⟩, -⟩ := (hs.outline.asserts label.1).outcome hsound hlocal
  obtain rfl : s'.shared = shared := by rw [heq]
  refine ⟨states ++ [s'], hsearch.step hmoves hsound hfollows.outline hfollows.covered,
    hhead.append s', ?_, fun u hu => ?_⟩
  · by_cases ht : t = label.1
    · subst ht
      exact (hadvanced.seeks states hsearch hhead hseeks).append s'
    · -- another thread searches on from where it is
      have hsame : s'.thread t = s.thread t := by
        rw [heq]
        exact Function.update_of_ne ht _ _
      rw [hsame]
      exact hseeks.append s'
  · rw [hsince]
    rcases List.mem_append.mp hu with hu | hu
    · -- an older state is described by the log as before
      obtain ⟨position, hlo, hhi, hholds⟩ := hstates u hu
      exact ⟨position, hlo, hhi.trans hlength, by rwa [hmapAt position hhi]⟩
    · -- the new state is described by the whole log
      obtain ⟨v, hv, -⟩ := hhead
      obtain ⟨position, hlo, hhi, -⟩ := hstates v hv
      rw [List.mem_singleton.mp hu]
      exact ⟨a'.log.length, (hlo.trans hhi).trans hlength, le_rfl, by
        rwa [AtomicMap.mapAt_length]⟩

/-- A step of the atomic map that answers a step of the skip list. -/
theorem Implements.answer (hs : s.Implements a) (hstep : Step s label s')
    {action : AtomicMap.Action K V} {phase : Phase K V}
    (hstep' : AtomicMap.Step a (label.1, action) a')
    (hemits : s.emits label = AtomicMap.emits a (label.1, action))
    (hholds : s'.shared.heap.Holds a'.map) {more : List (Update K V)}
    (hlog : a'.log = a.log ++ more) (hphase : a'.phase = Function.update a.phase label.1 phase)
    (hphase' : (s'.thread label.1).phase = phase)
    (hsince : ∀ t, t ≠ label.1 → a'.since t = a.since t)
    (hsearching : ∀ key, phase = .called (.delete key) → s'.Searching a' label.1) :
    ∃ a', Emits AtomicMap.Step AtomicMap.emits a (s.emits label) a' ∧ s'.Implements a' := by
  obtain ⟨-, hfollows⟩ := hs.advanced hstep
  refine ⟨a', hemits ▸ .single hstep', { hfollows with
    holds := hholds
    phase := fun t => ?_
    searching := fun t key hcalled => ?_ }⟩
  · rw [hphase]
    -- the answer ends the call of this thread, and no other phase changes
    by_cases ht : t = label.1
    · subst ht
      rw [Function.update_self, hphase']
    · obtain ⟨shared, pc, -, rfl⟩ := step_iff.mp hstep
      rw [Function.update_of_ne ht, hs.phase t]
      exact congrArg Local.phase (Function.update_of_ne ht _ _).symm
  · rw [hphase] at hcalled
    by_cases ht : t = label.1
    · subst ht
      rw [Function.update_self] at hcalled
      exact hsearching key hcalled
    · rw [Function.update_of_ne ht] at hcalled
      refine hs.searching_step hstep hholds ?_ (fun position hposition => ?_) hcalled (hsince t ht)
      · simp [hlog]
      · rw [AtomicMap.State.mapAt, hlog, List.take_append_of_le_length hposition]
        rfl

/-- A step of the skip list is answered by at most one step of the atomic map, of the same
    thread and with the same events. -/
theorem Implements.step (hs : s.Implements a) (hstep : Step s label s') :
    ∃ a', Emits AtomicMap.Step AtomicMap.emits a (s.emits label) a' ∧ s'.Implements a' := by
  obtain ⟨hadvanced, hfollows⟩ := hs.advanced hstep
  have hsound : s.shared.heap.Sound := hs.outline.inv
  obtain ⟨shared, pc, hlocal, heq⟩ := step_iff.mp hstep
  obtain rfl : s'.shared = shared := by rw [heq]
  have hl := hs.outline.asserts label.1
  have hsilent : (s.thread label.1).commits = none → s'.shared.heap.Holds a.map := fun hcommits =>
    hl.silent hsound hcommits hlocal hs.holds
  have hlog : a.log = a.log ++ [] := (List.append_nil _).symm
  rcases hadvanced.advances with ⟨hcommits, hemits, hphase⟩ |
    ⟨update, hcommits, hphase, hemits, hphase', hseeks⟩ |
    ⟨update, answer, hcommits, hemits, hphase, hphase'⟩ |
    ⟨key, hcommits, hemits, hphase, hphase', hmiss⟩ |
    ⟨update, answer, hcommits, hphase, hemits, hphase'⟩
  · -- nothing happens
    refine ⟨a, ?_, { hfollows with
      holds := hsilent hcommits
      phase := fun t => ?_
      searching := fun t key hcalled =>
        hs.searching_step hstep (hsilent hcommits) le_rfl (fun _ _ => rfl) hcalled rfl }⟩
    · rw [emits, hemits]
      exact .refl
    · rw [hs.phase]
      by_cases ht : t = label.1
      · exact ht ▸ hphase.symm
      · rw [heq]
        exact congrArg Local.phase (Function.update_of_ne ht _ _).symm
  · -- a call begins, and with it the search of a `Delete`
    have hidle : a.phase label.1 = .idle := (hs.phase _).trans hphase
    refine hs.answer hstep (.call update hidle) ?_ (hsilent hcommits) hlog rfl hphase'
      (fun t ht => Function.update_of_ne ht _ _) fun key _ => ?_
    · rw [emits, hemits]
      rfl
    · refine ⟨[s'], searchable_start hfollows.outline hfollows.covered,
        ⟨s', List.mem_singleton_self s', hfollows.outline.inv.listed_head 0⟩, hseeks _,
        fun u hu => ⟨a.log.length, (Function.update_self ..).le, le_rfl, ?_⟩⟩
      rw [List.mem_singleton.mp hu, AtomicMap.State.mapAt, List.take_length]
      exact hsilent hcommits
  · -- the update takes effect
    have hcalled : a.phase label.1 = .called update := (hs.phase _).trans hphase
    obtain ⟨rfl, hholds⟩ := hl.commit hsound (hs.tracks _) hcommits hlocal hs.holds
    refine hs.answer hstep (.commit hcalled) ?_ ?_ rfl rfl hphase' (fun _ _ => rfl)
      fun _ heq => by cases heq
    · rw [emits, hemits]
      rfl
    · rw [AtomicMap.State.map, Update.applyAll_append]
      exact hholds
  · -- the key was not in the list at some moment of the call
    have hcalled : a.phase label.1 = .called (.delete key) := (hs.phase _).trans hphase
    obtain ⟨states, hsearch, -, hseeks, hstates⟩ := hs.searching _ key hcalled
    obtain ⟨u, hu, hu'⟩ : ∃ u ∈ states, ∀ value, ¬ u.shared.heap.Present key value := by
      have hunstable := hmiss states hsearch hseeks
      unfold Stable at hunstable
      push Not at hunstable
      exact hunstable
    obtain ⟨position, hlo, hhi, hholds⟩ := hstates u hu
    have habsent : a.mapAt position key = none :=
      Option.eq_none_iff_forall_ne_some.mpr fun value hvalue =>
        hu' value ((hholds key value).mp hvalue)
    refine hs.answer hstep (.miss hcalled hlo hhi habsent) ?_ (hsilent hcommits) hlog rfl hphase'
      (fun _ _ => rfl) fun _ heq => by cases heq
    rw [emits, hemits]
    rfl
  · -- the call returns
    have hdone : a.phase label.1 = .done update answer := (hs.phase _).trans hphase
    refine hs.answer hstep (.finish hdone) ?_ (hsilent hcommits) hlog rfl hphase'
      (fun _ _ => rfl) fun _ heq => by cases heq
    rw [emits, hemits, AtomicMap.emits, hdone]
    rfl

omit [DecidableEq T] in
/-- An empty skip list stands where an empty atomic map stands. -/
theorem implements_new [Inhabited K] [Inhabited V] (maxLevel : Nat) (address : NodeId ↪ Nat) :
    (new maxLevel address : State K V T).Implements {} where
  outline := outline_new maxLevel address
  covered := covered_new maxLevel address
  tracks _ := trivial
  level := Nat.one_pos
  maxLevel := (ordered_new maxLevel address).levels
  holds key value := by
    have hempty : (new maxLevel address : State K V T).shared.heap.Lists 0 [] := rfl
    refine iff_of_false (by intro hnone; cases hnone) ?_
    rintro ⟨n, hn, -⟩
    exact hn.ne_head (List.mem_singleton.mp (hempty.listed_iff.mp hn.listed))
  phase _ := rfl
  searching _ _ hidle := by cases hidle

/-- Everything that can be seen of the calls of `Put` and `Delete` can be seen of an atomic
    map, which then holds what the list holds. -/
theorem updates_linearizable [Inhabited K] [Inhabited V] {events : List (T × Event K V)}
    (hrun : Emits Step emits (new maxLevel address) events s) :
    ∃ a : AtomicMap.State K V T, Emits AtomicMap.Step AtomicMap.emits {} events a ∧
      ∀ key value, a.map key = some value ↔ s.shared.heap.Present key value := by
  obtain ⟨a, ha, hs⟩ :=
    hrun.simulate (implements_new maxLevel address) fun hs hstep => hs.step hstep
  exact ⟨a, ha, hs.holds⟩

/-- A `Delete` of 5 that begins before a `Put` of 10 and finds nothing. -/
theorem updates_linearizable_two :
    ∃ (s : State Nat Nat Bool) (a : AtomicMap.State Nat Nat Bool),
      Emits AtomicMap.Step AtomicMap.emits {}
        [(false, .call (.delete 5)), (true, .call (.put 10 1)), (true, .answer (.put 10 1) true),
          (false, .answer (.delete 5) false)] a ∧
      ∀ key value, a.map key = some value ↔ s.shared.heap.Present key value := by
  have hcomputed : Option.any (fun x : List (Bool × Event Nat Nat) × State Nat Nat Bool =>
        x.1 = [(false, .call (.delete 5)), (true, .call (.put 10 1)),
          (true, .answer (.put 10 1) true), (false, .answer (.delete 5) false)])
      (List.foldlM (fun x label => (x.2.step label.1 label.2).map fun u =>
          (x.1 ++ emits x.2 label, u)) ([], new 4 (.refl _))
        ([(false, .call (.delete 5)), (false, .go)] ++ putSteps true 10 1 7 ++
          List.replicate 2 (false, .go))) = true := by decide +kernel
  obtain ⟨events, s, hrun, hs⟩ := @Emits.exists_of_any _ _ _ emits
    (fun (s : State Nat Nat Bool) (label : Bool × Choice Nat Nat) => s.step label.1 label.2)
    _ _ _ hcomputed
  obtain rfl := of_decide_eq_true hs
  exact ⟨s, updates_linearizable hrun⟩

end State

end ConcurrentSkipList

end KvStore
