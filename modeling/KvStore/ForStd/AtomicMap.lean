import KvStore.ForStd.Transition
import KvStore.ForStd.Interleave

/-!
# A map that is updated atomically

Threads call updates of a map, and each update takes effect in one step between its call
and its return. This is what a concurrent map is to look like from outside: an object is
linearizable if everything that can be seen of its runs, the calls and the returns in their
order, can be seen of a run of the atomic map.

The updates that take effect are kept in a log. A `delete` that finds nothing changes
nothing, and its moment may lie in the past of the step that decides on it, as long as it
lies in the call (`Step.miss`).
-/

namespace AtomicMap

variable {K V T : Type}

/-- What a thread does. -/
inductive Phase (K V : Type) where
  | idle
  | called (update : Update K V)
  | done (update : Update K V) (answer : Bool)

/-- A step of a thread. -/
inductive Action (K V : Type) where
  | call (update : Update K V)
  | commit
  | miss (position : Nat)
  | finish

/-- What can be seen of a thread. -/
inductive Event (K V : Type) where
  | call (update : Update K V)
  | answer (update : Update K V) (answer : Bool)
  deriving DecidableEq

structure State (K V T : Type) where
  /-- The updates that have taken effect, in their order. -/
  log : List (Update K V) := []
  phase : T → Phase K V := fun _ => .idle
  /-- The length of the log when the thread made its call. -/
  since : T → Nat := fun _ => 0

/-- What an update returns: whether a `put` inserts, and whether a `delete` finds its key. -/
def answer (m : K → Option V) : Update K V → Bool
  | .put key _ => (m key).isNone
  | .delete key => (m key).isSome

variable [DecidableEq K]

/-- The map after the first updates of the log. -/
def State.mapAt (a : State K V T) (position : Nat) : K → Option V :=
  Update.applyAll (fun _ => none) (a.log.take position)

/-- The map. -/
def State.map (a : State K V T) : K → Option V :=
  Update.applyAll (fun _ => none) a.log

variable [DecidableEq T]

inductive Step (a : State K V T) : T × Action K V → State K V T → Prop where
  | call {t : T} (update : Update K V) (hidle : a.phase t = .idle) :
      Step a (t, .call update)
        { a with
          phase := Function.update a.phase t (.called update)
          since := Function.update a.since t a.log.length }
  | commit {t : T} {update : Update K V} (hcalled : a.phase t = .called update) :
      Step a (t, .commit)
        { a with
          log := a.log ++ [update]
          phase := Function.update a.phase t (.done update (answer a.map update)) }
  | miss {t : T} {key : K} {position : Nat} (hcalled : a.phase t = .called (.delete key))
      (hsince : a.since t ≤ position) (hposition : position ≤ a.log.length)
      (habsent : a.mapAt position key = none) :
      Step a (t, .miss position)
        { a with phase := Function.update a.phase t (.done (.delete key) false) }
  | finish {t : T} {update : Update K V} {answer : Bool}
      (hdone : a.phase t = .done update answer) :
      Step a (t, .finish) { a with phase := Function.update a.phase t .idle }

omit [DecidableEq K] [DecidableEq T] in
/-- What can be seen of a step. -/
def emits (a : State K V T) (label : T × Action K V) : List (T × Event K V) :=
  match label.2, a.phase label.1 with
  | .call update, _ => [(label.1, .call update)]
  | .finish, .done update answer => [(label.1, .answer update answer)]
  | _, _ => []

variable {a b c : State K V T} {position : Nat}

omit [DecidableEq T] in
@[simp] theorem mapAt_length : a.mapAt a.log.length = a.map := by
  rw [State.mapAt, State.map, List.take_length]

/-! ## What becomes of the calls -/

/-- An update that finds nothing to delete, at a moment between two logs. -/
def Misses (a a' : State K V T) (update : Update K V) : Prop :=
  ∃ key position, update = .delete key ∧ a.log.length ≤ position ∧
    position ≤ a'.log.length ∧ a'.mapAt position key = none

/-- What a run from `a` to `a'` has done with the updates that have been called: `more` has
    been added to the log. -/
structure Settles (a : State K V T) (events : List (T × Event K V)) (a' : State K V T)
    (more : List (Update K V)) : Prop where
  log : a'.log = a.log ++ more
  called : ∀ t update, a'.phase t = .called update → (t, .call update) ∈ events
  since : ∀ t update, a'.phase t = .called update → a.log.length ≤ a'.since t
  mem : ∀ update ∈ more, ∃ t, (t, .call update) ∈ events
  settled : ∀ t update, (t, .call update) ∈ events →
    a'.phase t = .called update ∨ update ∈ more ∨ Misses a a' update

omit [DecidableEq T] in
/-- The map at a position does not depend on the updates behind it. -/
theorem mapAt_of_append {more : List (Update K V)} (hlog : b.log = a.log ++ more)
    (hposition : position ≤ a.log.length) : b.mapAt position = a.mapAt position := by
  rw [State.mapAt, hlog, List.take_append_of_le_length hposition]
  rfl

omit [DecidableEq T] in
/-- The log gets longer. -/
theorem Misses.append {update : Update K V} {more : List (Update K V)}
    (h : Misses a b update) (hlog : c.log = b.log ++ more) : Misses a c update := by
  obtain ⟨key, position, rfl, hlo, hhi, habsent⟩ := h
  refine ⟨key, position, rfl, hlo, ?_, ?_⟩
  · rw [hlog, List.length_append]
    omega
  · rw [mapAt_of_append hlog hhi, habsent]

/-- A thread that has not just made a call has its update committed, or given up. -/
theorem Settles.leave {events : List (T × Event K V)} {more added : List (Update K V)} {t : T}
    (phase : Phase K V) (h : Settles a events b more) (hlog : c.log = b.log ++ added)
    (hphase : c.phase = Function.update b.phase t phase) (hleft : ∀ update, phase ≠ .called update)
    (hsince : c.since = b.since) (hadded : ∀ update ∈ added, b.phase t = .called update)
    (hdone : ∀ update, b.phase t = .called update → update ∈ added ∨ Misses a c update) :
    Settles a events c (more ++ added) := by
  -- what is open afterwards was open before
  have hcalled : ∀ u update, c.phase u = .called update → b.phase u = .called update := by
    intro u update hu
    rw [hphase] at hu
    by_cases ht : u = t
    · rw [ht, Function.update_self] at hu
      exact absurd hu (hleft update)
    · rwa [Function.update_of_ne ht] at hu
  exact
    { log := by rw [hlog, h.log, List.append_assoc]
      called := fun u update hu => h.called u update (hcalled u update hu)
      since := fun u update hu => hsince ▸ h.since u update (hcalled u update hu)
      mem := fun update hmem => (List.mem_append.mp hmem).elim (h.mem update) fun hmem =>
        ⟨t, h.called t update (hadded update hmem)⟩
      settled := fun u update hu => by
        rcases h.settled u update hu with hcalled | hmem | hmiss
        · by_cases ht : u = t
          · exact .inr ((hdone update (ht ▸ hcalled)).imp_left (List.mem_append_right more))
          · exact .inl (by rw [hphase, Function.update_of_ne ht, hcalled])
        · exact .inr (.inl (List.mem_append_left added hmem))
        · exact .inr (.inr (hmiss.append hlog)) }

/-- A thread makes a call. -/
theorem Settles.call {events : List (T × Event K V)} {more : List (Update K V)} {t : T}
    {update : Update K V} (h : Settles a events b more) (hidle : b.phase t = .idle) :
    Settles a (events ++ [(t, .call update)])
      { b with
        phase := Function.update b.phase t (.called update)
        since := Function.update b.since t b.log.length } more where
  log := h.log
  called u update' hu := by
    by_cases ht : u = t
    · subst ht
      simp only [Function.update_self, Phase.called.injEq] at hu
      simp [hu]
    · simp only [Function.update_of_ne ht] at hu
      exact List.mem_append_left _ (h.called u update' hu)
  since u update' hu := by
    by_cases ht : u = t
    · subst ht
      simp [h.log]
    · simp only [Function.update_of_ne ht] at hu ⊢
      exact h.since u update' hu
  mem update' hmem := by
    obtain ⟨u, hu⟩ := h.mem update' hmem
    exact ⟨u, List.mem_append_left _ hu⟩
  settled u update' hu := by
    rcases List.mem_append.mp hu with hu | hu
    · refine (h.settled u update' hu).imp_left fun hcalled => ?_
      -- the thread that makes the call was not in another one
      have ht : u ≠ t := by
        rintro rfl
        rw [hidle] at hcalled
        cases hcalled
      simpa only [Function.update_of_ne ht] using hcalled
    · obtain ⟨rfl, heq⟩ := Prod.mk.inj (List.mem_singleton.mp hu)
      cases heq
      exact .inl (Function.update_self _ _ _)

/-- What a step of any thread does to the updates that have been called. -/
theorem Settles.step {events : List (T × Event K V)} {more : List (Update K V)}
    {label : T × Action K V} (h : Settles a events b more) (hstep : Step b label c) :
    ∃ more, Settles a (events ++ emits b label) c more := by
  cases hstep with
  | call update hidle => exact ⟨more, h.call hidle⟩
  | @commit t update hcalled =>
    have hemits : emits b (t, .commit) = [] := rfl
    rw [hemits, List.append_nil]
    refine ⟨_, h.leave (.done update (answer b.map update)) rfl rfl (by simp) rfl
      (fun w hw => ?_) fun w hw => ?_⟩
    · rw [List.mem_singleton.mp hw, hcalled]
    · rw [hcalled, Phase.called.injEq] at hw
      exact .inl (List.mem_singleton.mpr hw.symm)
  | @miss t key position hcalled hsince hposition habsent =>
    have hemits : emits b (t, .miss position) = [] := rfl
    rw [hemits, List.append_nil]
    refine ⟨_, h.leave (.done (.delete key) false) (List.append_nil b.log).symm rfl (by simp) rfl
      (by simp) fun w hw => .inr ?_⟩
    rw [hcalled, Phase.called.injEq] at hw
    exact ⟨key, position, hw.symm, (h.since t _ hcalled).trans hsince, hposition, habsent⟩
  | @finish t update answer hdone =>
    have hemits : emits b (t, .finish) = [(t, .answer update answer)] := by simp [emits, hdone]
    have hleave :
        Settles a events { b with phase := Function.update b.phase t .idle } (more ++ []) :=
      h.leave .idle (List.append_nil b.log).symm rfl (by simp) rfl (by simp) (by simp [hdone])
    rw [hemits]
    -- a return is no call
    exact ⟨_, hleave.log, fun u w hw => List.mem_append_left _ (hleave.called u w hw), hleave.since,
      fun w hw => (hleave.mem w hw).imp fun u hu => List.mem_append_left _ hu,
      fun u w hw => hleave.settled u w (by simpa using hw)⟩

/-- What a run has done with the updates that have been called. -/
theorem settles_of_emits {events : List (T × Event K V)} (hidle : ∀ t, a.phase t = .idle)
    (h : Emits Step emits a events b) : ∃ more, Settles a events b more := by
  induction h with
  | refl =>
    refine ⟨[], (List.append_nil _).symm, ?_, ?_, by simp, by simp⟩ <;>
      simp [hidle]
  | tail label _ hstep ih =>
    obtain ⟨more, h⟩ := ih
    exact h.step hstep

/-- If no two different updates that are called in a run are of the same key, the order in
    which they take effect does not matter. -/
theorem map_of_emits {events : List (T × Event K V)} {us : List (Update K V)}
    (hidle : ∀ t, a.phase t = .idle) (hidle' : ∀ t, b.phase t = .idle)
    (h : Emits Step emits a events b)
    (hus : ∀ update, update ∈ us ↔ ∃ t, (t, .call update) ∈ events)
    (hagree : ∀ u ∈ us, ∀ v ∈ us, u.key = v.key → u = v) : b.map = Update.applyAll a.map us := by
  obtain ⟨more, hsettles⟩ := settles_of_emits hidle h
  have hsub : more ⊆ us := fun update hmem => (hus update).mpr (hsettles.mem update hmem)
  rw [State.map, hsettles.log, Update.applyAll_append]
  refine Update.applyAll_congr hagree hsub fun u hu => ?_
  obtain ⟨t, ht⟩ := (hus u).mp hu
  rcases hsettles.settled t u ht with hcalled | hmem | ⟨key, position, rfl, hlo, hhi, habsent⟩
  · rw [hidle'] at hcalled
    cases hcalled
  · exact .inl hmem
  · -- the key was not there at some moment, and nothing has put it there since
    refine or_iff_not_imp_left.mpr fun hmem => ?_
    have hlog : b.log.take position ++ b.log.drop position = a.log ++ more := by
      rw [List.take_append_drop, hsettles.log]
    have hrest : ∀ w ∈ b.log.drop position, w.key ≠ key := by
      intro w hw hkey
      have hw' : w ∈ more := by
        rw [hsettles.log, List.drop_append, List.drop_eq_nil_of_le hlo, List.nil_append] at hw
        exact List.mem_of_mem_drop hw
      exact hmem (hagree w (hsub hw') _ hu hkey ▸ hw')
    show Update.applyAll (Update.applyAll (fun _ => none) a.log) more key = none
    rw [← Update.applyAll_append, ← hlog, Update.applyAll_append,
      Update.applyAll_of_forall_ne hrest]
    exact habsent

end AtomicMap
