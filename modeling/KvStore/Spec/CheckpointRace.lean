import KvStore.Spec.LogOrder
import KvStore.Spec.Reopen

/-!
# Checkpoints that run beside writes

`Checkpoint` takes the entries of the index before it resets the log. `lossless_of_separated`
says that the files keep every write if no `Put` or `Delete` appends its record between the
two, and if the entries are taken when the index holds on every key what the record says that
was appended last; `checkpoint_loses_put` is a run in which a `Put` does come between,
and `exists_not_lossless` says what a `Checkpoint` can lead to that takes the entries earlier.
-/

namespace KvStore

namespace Event

variable {ι : Type}

/-- No later call on the key of this one has begun. -/
def StartedLast (history : List (Event ι)) (caller : ι) (update : Update Bytes Bytes) : Prop :=
  ∃ later rest, history = later ++ start caller update :: rest ∧
    ∀ caller' update', start caller' update' ∈ later → update'.key ≠ update.key

/-- The call has returned, and no later call on its key has overlapped with it or followed
    it: none has begun after it. -/
def ReturnedLast (history : List (Event ι)) (caller : ι) (update : Update Bytes Bytes) : Prop :=
  ∃ later rest, history = later ++ start caller update :: rest ∧ finish caller update ∈ later ∧
    ∀ caller' update', start caller' update' ∈ later → update'.key ≠ update.key

variable {history : List (Event ι)} {caller caller' : ι} {update update' : Update Bytes Bytes}

/-- A call that nobody has followed is the latest one. -/
theorem ReturnedLast.startedLast (h : ReturnedLast history caller update) :
    StartedLast history caller update := by
  obtain ⟨later, rest, hhistory, -, hlater⟩ := h
  exact ⟨later, rest, hhistory, hlater⟩

/-- Nobody has begun a call. -/
theorem not_startedLast_nil : ¬ StartedLast ([] : List (Event ι)) caller update := by
  rintro ⟨later, rest, hhistory, -⟩
  simp at hhistory

/-- The latest call on a key has begun now, or it is that from before. -/
theorem StartedLast.of_start (h : StartedLast (start caller update :: history) caller' update') :
    (caller = caller' ∧ update = update') ∨
      update.key ≠ update'.key ∧ StartedLast history caller' update' := by
  obtain ⟨later, rest, hhistory, hlater⟩ := h
  cases later with
  | nil =>
    cases hhistory
    exact .inl ⟨rfl, rfl⟩
  | cons event later =>
    obtain ⟨rfl, rfl⟩ := List.cons.inj hhistory
    exact .inr ⟨hlater _ _ List.mem_cons_self, later, rest, rfl,
      fun c u hmem => hlater c u (List.mem_cons_of_mem _ hmem)⟩

/-- The end of a call is no beginning. -/
theorem StartedLast.of_finish
    (h : StartedLast (finish caller update :: history) caller' update') :
    StartedLast history caller' update' := by
  obtain ⟨later, rest, hhistory, hlater⟩ := h
  cases later with
  | nil => cases hhistory
  | cons event later =>
    obtain ⟨rfl, rfl⟩ := List.cons.inj hhistory
    exact ⟨later, rest, rfl, fun c u hmem => hlater c u (List.mem_cons_of_mem _ hmem)⟩

/-- The call that began last on a key stays so when any call returns. -/
theorem StartedLast.cons_finish (h : StartedLast history caller update) (caller' : ι)
    (update' : Update Bytes Bytes) :
    StartedLast (finish caller' update' :: history) caller update := by
  obtain ⟨later, rest, rfl, hlater⟩ := h
  exact ⟨finish caller' update' :: later, rest, rfl,
    fun c u hmem => hlater c u (by simpa using hmem)⟩

/-- The latest call on a key returns. -/
theorem StartedLast.returnedLast (h : StartedLast history caller update) :
    ReturnedLast (finish caller update :: history) caller update := by
  obtain ⟨later, rest, rfl, hlater⟩ := h
  exact ⟨finish caller update :: later, rest, rfl, List.mem_cons_self,
    fun c u hmem => hlater c u (by simpa using hmem)⟩

/-- A call that has returned last on its key stays so when any call returns. -/
theorem ReturnedLast.cons_finish (h : ReturnedLast history caller update) (caller' : ι)
    (update' : Update Bytes Bytes) :
    ReturnedLast (finish caller' update' :: history) caller update := by
  obtain ⟨later, rest, rfl, hmem, hlater⟩ := h
  exact ⟨finish caller' update' :: later, rest, rfl, List.mem_cons_of_mem _ hmem,
    fun c u hmem => hlater c u (by simpa using hmem)⟩

/-- A call on another key begins. -/
theorem ReturnedLast.cons_start (h : ReturnedLast history caller update) (caller' : ι)
    (hkey : update'.key ≠ update.key) :
    ReturnedLast (start caller' update' :: history) caller update := by
  obtain ⟨later, rest, rfl, hmem, hlater⟩ := h
  refine ⟨start caller' update' :: later, rest, rfl, List.mem_cons_of_mem _ hmem, ?_⟩
  intro c u hstart
  rcases List.mem_cons.mp hstart with heq | hstart
  · cases heq
    exact hkey
  · exact hlater c u hstart

end Event

namespace SharedStore

variable {ι : Type}

/-- Without a call in progress, a store that is constructed from the files reflects every
    `Put` and `Delete` that has returned and that no later call on its key has overlapped
    with or followed. -/
def Lossless (s : SharedStore ι) : Prop :=
  s.inFlight = [] → s.checkpoints = [] → ∀ caller update,
    Event.ReturnedLast s.history caller update → ∀ coins, ∃ store',
      KVStore.construct s.store.options coins s.store.disk = .ok store' ∧
        store'.get update.key = update.effect

/-- A map holds on every key what the call has written that appended its record last. -/
def Reflects (s : SharedStore ι) (m : Bytes → Option Bytes) : Prop :=
  ∀ caller update, Event.StartedLast s.history caller update → m update.key = update.effect

/-- The index has caught up with the log. -/
def CaughtUp (s : SharedStore ι) : Prop :=
  s.Reflects s.store.get

/-- A `Put` or `Delete` appends a record that fits its header, and only while no `Checkpoint`
    is between taking the entries and resetting the log; a `Checkpoint` takes the entries only
    when the index has caught up with the log. -/
def Separated (s : SharedStore ι) : Label ι → Prop
  | .append _ update => WAL.Fits (KVStore.record update) ∧ s.checkpoints = []
  | .snapshot _ => s.CaughtUp
  | _ => True

/-- What a `Checkpoint` in progress has taken or written holds what the latest calls have
    written. -/
def PhaseInv (s : SharedStore ι) (base : Bytes → Option Bytes) : CheckpointPhase → Prop
  | .taken entries => ∃ m, ListsMap m (fun _ => True) entries ∧
      entries.length ≤ KVStore.maxEntries ∧ (∀ entry ∈ entries, FitsPair entry) ∧ s.Reflects m
  | .renamed => s.Reflects base

/-- The latest call on a key is in flight, or it has returned. -/
def CallsInv (s : SharedStore ι) : Prop :=
  ∀ caller update, Event.StartedLast s.history caller update →
    (caller, update) ∈ s.inFlight ∨ Event.ReturnedLast s.history caller update

/-- The files hold what the latest calls have written, and so does what a `Checkpoint` in
    progress has taken. -/
structure RaceInv (s : SharedStore ι) : Prop where
  walEnabled : s.store.options.enableWal = true
  fits : ∀ call ∈ s.inFlight, WAL.Fits (KVStore.record call.2)
  fitsPair : ∀ k v, s.store.get k = some v → FitsPair (k, v)
  calls : s.CallsInv
  files : ∃ base log, KVStore.Stores s.store.disk base log ∧
    (∀ checkpoint ∈ s.checkpoints, s.PhaseInv base checkpoint.2) ∧
    s.Reflects (KVStore.recovered base log)

/-- A store that is opened in an empty directory. -/
theorem raceInv_start {options : EngineOptions} (henabled : options.enableWal = true)
    {coins : Nat → Nat → Bool} {store : KVStore}
    (hconstruct : KVStore.construct options coins {} = .ok store) :
    RaceInv ({ store } : SharedStore ι) := by
  obtain ⟨index, heq, hget⟩ := KVStore.construct_eq KVStore.stores_empty henabled coins
  obtain rfl := Except.ok.inj (heq.symm.trans hconstruct)
  have hempty : ∀ k, index.get k = none := fun k => congrFun hget k
  exact
    { walEnabled := henabled
      fits := by simp
      fitsPair := fun k v hv => by cases (hempty k).symm.trans hv
      calls := fun _ _ h => absurd h Event.not_startedLast_nil
      files := ⟨_, [], KVStore.stores_empty, by simp,
        fun _ _ h => absurd h Event.not_startedLast_nil⟩ }

/-- `Put` or `Delete` appends its record while no `Checkpoint` is in progress. -/
private theorem RaceInv.append {s : SharedStore ι} (h : s.RaceInv) {caller : ι}
    {update : Update Bytes Bytes} {padding : Padding} {writes : List WAL.WriteOutcome}
    {store : KVStore} (hok : s.Separated (.append caller update))
    (happend : s.store.appendRecord padding update writes none = (store, .ok ())) :
    RaceInv { s with
      store, inFlight := s.inFlight ++ [(caller, update)]
      history := .start caller update :: s.history } := by
  obtain ⟨hfits, hnone⟩ := hok
  obtain ⟨base, log, hstores, -, hreflects⟩ := h.files
  obtain rfl := KVStore.appendRecord_eq h.walEnabled happend
  refine
    { walEnabled := h.walEnabled, fits := ?_, fitsPair := h.fitsPair, calls := ?_
      files := ⟨base, _, hstores.append (KVStore.record update, padding) hfits,
        by simp [hnone], ?_⟩ }
  · intro call hcall
    rcases List.mem_append.mp hcall with hcall | hcall
    · exact h.fits call hcall
    · rw [List.mem_singleton.mp hcall]
      exact hfits
  · intro c u hu
    rcases hu.of_start with ⟨rfl, rfl⟩ | ⟨hk, hu⟩
    · exact .inl (by simp)
    · exact (h.calls c u hu).imp (List.mem_append_left _) fun hreturned =>
        hreturned.cons_start caller hk
  · -- the record changes its own key only
    intro c u hu
    rw [KVStore.recovered_append]
    rcases hu.of_start with ⟨rfl, rfl⟩ | ⟨hk, hu⟩
    · exact Function.update_self _ _ _
    · exact (Function.update_of_ne hk.symm _ _).trans (hreflects c u hu)

/-- A call that updates the index returns. -/
private theorem CallsInv.apply {s : SharedStore ι} (h : s.CallsInv) {caller : ι}
    {update : Update Bytes Bytes} {front back : List (ι × Update Bytes Bytes)}
    (hflight : s.inFlight = front ++ (caller, update) :: back) :
    CallsInv { s with
      store := (s.store.applyUpdate update).2, inFlight := front ++ back
      history := .finish caller update :: s.history } := by
  intro c u hu
  rcases h c u hu.of_finish with hmem | hreturned
  · rw [hflight] at hmem
    by_cases hsame : (c, u) = (caller, update)
    · cases hsame
      exact .inr hu.of_finish.returnedLast
    · exact .inl (by simpa [hsame] using hmem)
  · exact .inr (hreturned.cons_finish caller update)

/-- `Put` or `Delete` updates the index, which the files do not depend on. -/
private theorem RaceInv.apply {s : SharedStore ι} (h : s.RaceInv) {caller : ι}
    {update : Update Bytes Bytes} {front back : List (ι × Update Bytes Bytes)}
    (hflight : s.inFlight = front ++ (caller, update) :: back) :
    RaceInv { s with
      store := (s.store.applyUpdate update).2, inFlight := front ++ back
      history := .finish caller update :: s.history } := by
  obtain ⟨base, log, hstores, hphases, hreflects⟩ := h.files
  have hget : (s.store.applyUpdate update).2.get = update.apply s.store.get :=
    s.store.index.get_update update
  have hfits : WAL.Fits (KVStore.record update) := h.fits (caller, update) (by simp [hflight])
  have hkeep {m : Bytes → Option Bytes} (hm : s.Reflects m) :
      Reflects { s with
        store := (s.store.applyUpdate update).2, inFlight := front ++ back
        history := .finish caller update :: s.history } m :=
    fun c u hu => hm c u hu.of_finish
  refine
    { walEnabled := h.walEnabled, fits := ?_, fitsPair := ?_, calls := h.calls.apply hflight
      files := ⟨base, log, hstores, ?_, hkeep hreflects⟩ }
  · intro call hcall
    apply h.fits
    rw [hflight]
    rcases List.mem_append.mp hcall with hcall | hcall <;> simp [hcall]
  · intro k v hv
    rw [show (s.store.applyUpdate update).2.get k = update.apply s.store.get k from
      congrFun hget k] at hv
    -- the index changes at the key of the update only
    by_cases hk : update.key = k
    · subst hk
      rw [show update.apply s.store.get update.key = update.effect from
        Function.update_self _ _ _] at hv
      cases update with
      | put a w =>
        cases hv
        exact ⟨hfits.key, hfits.value⟩
      | delete a => cases hv
    · exact h.fitsPair k v ((Function.update_of_ne (Ne.symm hk) _ _).symm.trans hv)
  · -- what has been taken before does not change
    intro checkpoint hmem
    have hphase := hphases checkpoint hmem
    unfold PhaseInv at hphase ⊢
    split
    · rename_i entries heq
      rw [heq] at hphase
      obtain ⟨m, hlists, hcount, hpairs, hm⟩ := hphase
      exact ⟨m, hlists, hcount, hpairs, hkeep hm⟩
    · rename_i heq
      rw [heq] at hphase
      exact hkeep hphase

/-- `Checkpoint` takes the entries when the index has caught up with the log. -/
private theorem RaceInv.snapshot {s : SharedStore ι} (h : s.RaceInv) {caller : ι}
    {entries : List (Bytes × Bytes)} (hok : s.Separated (.snapshot caller))
    (hentries : KVStore.snapshotEntries s.store.index = .ok entries) :
    RaceInv { s with checkpoints := (caller, .taken entries) :: s.checkpoints } := by
  obtain ⟨base, log, hstores, hphases, hreflects⟩ := h.files
  refine
    { walEnabled := h.walEnabled, fits := h.fits, fitsPair := h.fitsPair, calls := h.calls
      files := ⟨base, log, hstores, ?_, hreflects⟩ }
  intro checkpoint hmem
  rcases List.mem_cons.mp hmem with rfl | hmem
  · obtain ⟨-, hlists, hcount⟩ := KVStore.snapshotEntries_cases hentries
    exact ⟨s.store.get, hlists, hcount,
      fun entry hentry => h.fitsPair _ _ ((hlists.mem_iff entry.1 entry.2).mp hentry).1, hok⟩
  · exact hphases checkpoint hmem

/-- The files behind a `rename` of the whole temporary file. -/
private theorem stores_renamed {disk : Disk} {base m : Bytes → Option Bytes} {log : WAL.Log}
    {entries : List (Bytes × Bytes)} (h : KVStore.Stores disk base log)
    (hlists : ListsMap m (fun _ => True) entries) (hpairs : ∀ entry ∈ entries, FitsPair entry)
    (hcount : entries.length ≤ KVStore.maxEntries) :
    KVStore.Stores (KVStore.renameTmp (KVStore.writeTmp disk entries
      (KVStore.snapshotBytes entries).length)) m log :=
  (h.writeTmp entries _).renameTmp hlists hpairs hcount (congrArg some List.take_length)

/-- `Checkpoint` replaces the snapshot file by the map that it has taken. -/
private theorem RaceInv.rename {s : SharedStore ι} (h : s.RaceInv) {caller : ι}
    {entries : List (Bytes × Bytes)} {front back : List (ι × CheckpointPhase)}
    (hcheckpoint : s.checkpoints = front ++ (caller, .taken entries) :: back) :
    RaceInv (s.withDisk (KVStore.renameTmp (KVStore.writeTmp s.store.disk entries
      (KVStore.snapshotBytes entries).length)) (front ++ (caller, .renamed) :: back)) := by
  obtain ⟨base, log, hstores, hphases, hreflects⟩ := h.files
  obtain ⟨m, hlists, hcount, hpairs, hm⟩ :=
    hphases (caller, .taken entries) (by simp [hcheckpoint])
  refine
    { walEnabled := h.walEnabled, fits := h.fits, fitsPair := h.fitsPair, calls := h.calls
      files := ⟨m, log, stores_renamed hstores hlists hpairs hcount, ?_, ?_⟩ }
  · intro checkpoint hmem
    have hold : checkpoint = (caller, .renamed) ∨ checkpoint ∈ s.checkpoints := by
      rw [hcheckpoint]
      rcases List.mem_append.mp hmem with hmem | hmem
      · simp [hmem]
      · rcases List.mem_cons.mp hmem with rfl | hmem <;> simp [*]
    rcases hold with rfl | hmem
    · exact hm
    · -- another `Checkpoint` that has renamed its file finds this one in its place
      have hphase := hphases checkpoint hmem
      unfold PhaseInv at hphase ⊢
      split
      · rename_i heq
        rw [heq] at hphase
        exact hphase
      · exact hm
  · intro c u hu
    -- a key that the log updates has its effect, any other key what has been taken
    have htaken := hm c u hu
    have hfiles := hreflects c u hu
    unfold KVStore.recovered at hfiles ⊢
    rw [Update.applyAll_eq_lastEffect] at hfiles ⊢
    cases hlast : Update.lastEffect (updates log) u.key with
    | none => exact htaken
    | some effect =>
      rw [hlast] at hfiles
      exact hfiles

/-- `Checkpoint` empties the log, which the snapshot file makes up for. -/
private theorem RaceInv.reset {s : SharedStore ι} (h : s.RaceInv) {caller : ι}
    {front back : List (ι × CheckpointPhase)}
    (hcheckpoint : s.checkpoints = front ++ (caller, .renamed) :: back) :
    RaceInv (s.withDisk (KVStore.resetWal s.store.disk) (front ++ back)) := by
  obtain ⟨base, log, hstores, hphases, -⟩ := h.files
  have hbase : s.Reflects base := hphases (caller, .renamed) (by simp [hcheckpoint])
  refine
    { walEnabled := h.walEnabled, fits := h.fits, fitsPair := h.fitsPair, calls := h.calls
      files := ⟨base, [], hstores.resetWal, ?_, hbase⟩ }
  intro checkpoint hmem
  apply hphases
  rw [hcheckpoint]
  rcases List.mem_append.mp hmem with hmem | hmem <;> simp [hmem]

/-- Every step that meets the condition keeps the invariant. -/
theorem RaceInv.step {s t : SharedStore ι} {label : Label ι} (h : s.RaceInv)
    (hok : s.Separated label) (hstep : Step s label t) : t.RaceInv := by
  cases hstep with
  | append padding writes hfree happend => exact h.append hok happend
  | apply _ _ hflight => exact h.apply hflight
  | snapshot hfree hentries => exact h.snapshot hok hentries
  | rename _ _ hcheckpoint => exact h.rename hcheckpoint
  | reset _ _ hcheckpoint => exact h.reset hcheckpoint

/-- In a run in which no record is appended while a `Checkpoint` is in progress, and none
    takes the entries before the index has caught up with the log, no write is lost. -/
theorem lossless_of_separated {options : EngineOptions} (henabled : options.enableWal = true)
    {coins : Nat → Nat → Bool} {store : KVStore}
    (hconstruct : KVStore.construct options coins {} = .ok store) {s : SharedStore ι}
    (hrun : Run Step Separated { store } s) : s.Lossless := by
  have h := hrun.invariant (raceInv_start henabled hconstruct) fun h hok hstep => h.step hok hstep
  intro _ _ caller update hreturned coins'
  obtain ⟨base, log, hstores, -, hreflects⟩ := h.files
  obtain ⟨index, heq, hget⟩ := KVStore.construct_eq hstores h.walEnabled coins'
  exact ⟨_, heq,
    (congrFun hget update.key).trans (hreflects caller update hreturned.startedLast)⟩

/-- Two callers put the same key, each while the other one does, and then the first takes a
    `Checkpoint`: the later `Put` is kept. -/
theorem lossless_of_separated_two :
    ∃ s : SharedStore Nat, s.store.disk.wal = [] ∧ s.inFlight = [] ∧ s.checkpoints = [] ∧
      Event.ReturnedLast s.history 1 put₁ ∧ s.Lossless := by
  have hrun : Run Step Separated { store := { index := Index.new fun _ _ => false, disk := {} } }
      finished₁ :=
    (((Run.refl.tail (.append 0 put₀) ⟨⟨by decide, by decide⟩, rfl⟩ step_started₀).tail
      (.append 1 put₁) ⟨⟨by decide, by decide⟩, rfl⟩ step_started₁).tail
        (.apply 0) trivial step_finished₀).tail (.apply 1) trivial step_finished₁
  -- the index holds the value of the `Put` whose record came last
  have hcaught : finished₁.Separated (.snapshot 0) := by
    intro caller update h
    rcases h.of_finish.of_finish.of_start with ⟨rfl, rfl⟩ | ⟨hkey, h⟩
    · rfl
    · rcases h.of_start with ⟨rfl, rfl⟩ | ⟨-, h⟩
      · exact absurd rfl hkey
      · exact absurd h Event.not_startedLast_nil
  have htaken : Step finished₁ (.snapshot 0)
      { finished₁ with checkpoints := [(0, .taken [([97], [99])])] } :=
    .snapshot (by simp [Busy, finished₁]) rfl
  have hsnapshot := hrun.tail (.snapshot 0) hcaught htaken
  have hrename := hsnapshot.tail (Label.rename 0) trivial (.rename [] [] rfl)
  have hreset := hrename.tail (Label.reset 0) trivial (.reset [] [] rfl)
  -- the `Put` of the second caller began last
  have hreturned : Event.ReturnedLast finished₁.history 1 put₁ :=
    ⟨[.finish 1 put₁, .finish 0 put₀], [.start 0 put₀], rfl, by simp, by simp⟩
  refine ⟨_, ?_, ?_, ?_, ?_, lossless_of_separated rfl (KVStore.construct_empty _) hreset⟩
  · rfl
  · rfl
  · rfl
  · exact hreturned

/-! ## Why the index has to catch up -/

/-- The calls in flight can return, and leave the files as they are. -/
private theorem CallsInv.exists_run_returned {s : SharedStore ι} (h : s.CallsInv) {caller : ι}
    {update : Update Bytes Bytes} (hlast : Event.StartedLast s.history caller update) :
    ∃ t, Run Step (fun _ _ => True) s t ∧ t.inFlight = [] ∧ t.checkpoints = s.checkpoints ∧
      t.store.options = s.store.options ∧ t.store.disk = s.store.disk ∧
      Event.ReturnedLast t.history caller update := by
  induction hflight : s.inFlight generalizing s with
  | nil =>
    have hreturned := (h caller update hlast).resolve_left (by simp [hflight])
    exact ⟨s, .refl, hflight, rfl, rfl, rfl, hreturned⟩
  | cons call rest ih =>
    obtain ⟨caller', update'⟩ := call
    have hstep : Step s (.apply caller') _ := .apply [] rest hflight
    obtain ⟨t, hrun, hidle, hcheckpoints, hoptions, hdisk, hreturned⟩ :=
      ih (@CallsInv.apply _ s h caller' update' [] rest hflight)
        (hlast.cons_finish caller' update') rfl
    exact ⟨t, (Run.tail _ .refl trivial hstep).trans hrun, hidle, hcheckpoints, hoptions, hdisk,
      hreturned⟩

/-- A `Checkpoint` that takes the entries before the index has caught up with the log can go on
    to lose a write. -/
theorem exists_not_lossless {s : SharedStore ι} (h : s.RaceInv) (hidle : s.checkpoints = [])
    {caller : ι} (hfree : ¬ s.Busy caller) {entries : List (Bytes × Bytes)}
    (hentries : KVStore.snapshotEntries s.store.index = .ok entries) (hbehind : ¬ s.CaughtUp) :
    ∃ t u, Step s (.snapshot caller) t ∧ Run Step (fun _ _ => True) t u ∧ ¬ u.Lossless := by
  obtain ⟨caller', update, hlast, hget⟩ : ∃ caller' update,
      Event.StartedLast s.history caller' update ∧ s.store.get update.key ≠ update.effect := by
    simpa [CaughtUp, Reflects] using hbehind
  have hsnapshot : Step s (.snapshot caller)
      { s with checkpoints := [(caller, .taken entries)] } := by
    have hstep := Step.snapshot hfree hentries
    rwa [hidle] at hstep
  -- the `Checkpoint` goes on, and then the calls in flight return
  let disk := KVStore.resetWal (KVStore.renameTmp (KVStore.writeTmp s.store.disk entries
    (KVStore.snapshotBytes entries).length))
  have hcheckpoint : Run Step (fun _ _ => True)
      { s with checkpoints := [(caller, .taken entries)] } (s.withDisk disk []) :=
    (Run.refl.tail (.rename caller) trivial (.rename [] [] rfl)).tail (.reset caller) trivial
      (.reset [] [] rfl)
  have hcalls : (s.withDisk disk []).CallsInv := h.calls
  obtain ⟨u, hrun, hflight, hnone, hoptions, hdisk, hreturned⟩ :=
    @CallsInv.exists_run_returned _ (s.withDisk disk []) hcalls caller' update hlast
  refine ⟨_, u, hsnapshot, hcheckpoint.trans hrun, fun hlossless => hget ?_⟩
  obtain ⟨store', hconstruct, heffect⟩ :=
    hlossless hflight hnone caller' update hreturned fun _ _ => false
  -- the snapshot file holds what the index has held, and the log is empty
  obtain ⟨base, log, hstores, -⟩ := h.files
  obtain ⟨-, hlists, hcount⟩ := KVStore.snapshotEntries_cases hentries
  have hpairs : ∀ entry ∈ entries, FitsPair entry := fun entry hentry =>
    h.fitsPair _ _ ((hlists.mem_iff entry.1 entry.2).mp hentry).1
  have hstores' : KVStore.Stores u.store.disk s.store.get [] := by
    rw [hdisk]
    exact (stores_renamed hstores hlists hpairs hcount).resetWal
  obtain ⟨index, heq, hindex⟩ := KVStore.construct_eq hstores'
    ((congrArg EngineOptions.enableWal hoptions).trans h.walEnabled) fun _ _ => false
  obtain rfl := Except.ok.inj (heq.symm.trans hconstruct)
  exact (congrFun hindex update.key).symm.trans heffect

/-! ## When it has caught up -/

/-- The map that the index will hold after the updates in flight, if they are made in the order
    of their records. -/
def Pending (s : SharedStore ι) : Prop :=
  s.Reflects (Update.applyAll s.store.get (s.inFlight.map Prod.snd))

/-- Updates of the index that are in order keep it. -/
private theorem Pending.step {s t : SharedStore ι} {label : Label ι}
    (henabled : s.store.options.enableWal = true) (h : s.Pending) (hok : s.InOrder label)
    (hstep : Step s label t) : t.store.options.enableWal = true ∧ t.Pending := by
  cases hstep with
  | @append store caller update padding writes hfree happend =>
    obtain rfl := KVStore.appendRecord_eq henabled happend
    refine ⟨henabled, fun c u hu => ?_⟩
    simp only [List.map_append, List.map_cons, List.map_nil, Update.applyAll_append]
    rcases hu.of_start with ⟨rfl, rfl⟩ | ⟨hk, hu⟩
    · exact Function.update_self _ _ _
    · exact (Function.update_of_ne hk.symm _ _).trans (h c u hu)
  | @apply caller update front back hflight =>
    refine ⟨henabled, fun c u hu => ?_⟩
    have hget : (s.store.applyUpdate update).2.get = update.apply s.store.get :=
      s.store.index.get_update update
    have hpending := h c u hu.of_finish
    rw [hflight, List.map_append, List.map_cons] at hpending
    rw [hget, List.map_append, (Update.applyAll_overtake_iff _ _ _ _).mpr (hok front update back
      hflight)]
    exact hpending
  | snapshot | rename | reset => exact ⟨henabled, h⟩

/-- The index has caught up with the log when no call is in flight, if it has been updated in
    order. -/
theorem caughtUp_of_inOrder {options : EngineOptions} (henabled : options.enableWal = true)
    {coins : Nat → Nat → Bool} {store : KVStore}
    (hconstruct : KVStore.construct options coins {} = .ok store) {s : SharedStore ι}
    (hrun : Run Step InOrder { store } s) (hidle : s.inFlight = []) : s.CaughtUp := by
  obtain ⟨index, heq, -⟩ := KVStore.construct_eq KVStore.stores_empty henabled coins
  obtain rfl := Except.ok.inj (heq.symm.trans hconstruct)
  have hpending : s.store.options.enableWal = true ∧ s.Pending :=
    hrun.invariant ⟨henabled, fun _ _ h => absurd h Event.not_startedLast_nil⟩
      fun h hok hstep => Pending.step h.1 h.2 hok hstep
  intro caller update hlast
  have heffect := hpending.2 caller update hlast
  rw [hidle] at heffect
  exact heffect

/-! ## A `Put` that is lost -/

/-- A `Put` or `Delete` between the two halves of a `Checkpoint`. In the end the log is empty
    and the snapshot file holds the entries from before the call. -/
theorem exists_run_between (store : KVStore) {entries : List (Bytes × Bytes)}
    (hentries : KVStore.snapshotEntries store.index = .ok entries) {update : Update Bytes Bytes}
    {padding : Padding} {appended : KVStore}
    (happend : store.appendRecord padding update [] none = (appended, .ok ())) :
    ∃ s : SharedStore Nat, Run Step (fun _ _ => True) { store } s ∧
      s.store.options = appended.options ∧
      s.store.disk = KVStore.resetWal (KVStore.renameTmp (KVStore.writeTmp appended.disk entries
        (KVStore.snapshotBytes entries).length)) ∧
      s.inFlight = [] ∧ s.checkpoints = [] ∧
      s.history = [.finish 1 update, .start 1 update] := by
  -- caller 2 takes the entries, caller 1 appends, updates the index and returns
  have htaken : Step ({ store } : SharedStore Nat) (.snapshot 2)
      { store, checkpoints := [(2, .taken entries)] } :=
    .snapshot (by simp [Busy]) hentries
  have happended : Step ({ store, checkpoints := [(2, .taken entries)] } : SharedStore Nat)
      (.append 1 update)
      { store := appended, inFlight := [(1, update)], checkpoints := [(2, .taken entries)]
        history := [.start 1 update] } :=
    .append padding [] (by simp [Busy]) happend
  have happlied : Step ({ store := appended, inFlight := [(1, update)]
                          checkpoints := [(2, .taken entries)]
                          history := [.start 1 update] } : SharedStore Nat)
      (.apply 1)
      { store := (appended.applyUpdate update).2, checkpoints := [(2, .taken entries)]
        history := [.finish 1 update, .start 1 update] } :=
    .apply [] [] rfl
  -- caller 2 goes on
  have hrun : Run Step (fun _ _ => True) _ _ :=
    ((Run.refl.tail _ trivial htaken).tail _ trivial happended).tail _ trivial happlied
  exact ⟨_, (hrun.tail (.rename 2) trivial (.rename [] [] rfl)).tail (.reset 2) trivial
    (.reset [] [] rfl), rfl, rfl, rfl, rfl, rfl⟩

/-- A `Put` that has returned, and whose record is neither in the snapshot nor in the log. -/
theorem checkpoint_loses_put :
    ∃ s : SharedStore Nat, Run Step (fun _ _ => True)
        { store := { index := Index.new fun _ _ => false, disk := {} } } s ∧ ¬ s.Lossless := by
  have hentries : KVStore.snapshotEntries (Index.new fun _ _ => false) = .ok [] := by
    have hempty : (Index.new fun _ _ => false : Index Bytes Bytes).snapshot = [] := by
      rw [List.eq_nil_iff_forall_not_mem]
      intro e he
      have hget := ((Index.lists_snapshot _).mem_iff e.1 e.2).mp he
      rw [Index.get_new] at hget
      cases hget.1
    unfold KVStore.snapshotEntries
    rw [← Index.length_snapshot, hempty, if_neg (by simp)]
  -- the log right behind `AppendPut`, with the index still empty
  let appended : KVStore :=
    { index := Index.new fun _ _ => false
      disk := { wal := WAL.encode {} (KVStore.record (.put [97] [98])) } }
  have happend : KVStore.appendRecord { index := Index.new fun _ _ => false, disk := {} } {}
      (.put [97] [98]) [] none = (appended, .ok ()) := rfl
  obtain ⟨s, hrun, hoptions, hdisk, hinFlight, hcheckpoints, hhistory⟩ :=
    exists_run_between _ hentries happend
  refine ⟨s, hrun, fun hlossless => ?_⟩
  obtain ⟨store', hconstruct, hget⟩ := hlossless hinFlight hcheckpoints 1 (.put [97] [98])
    ⟨[.finish 1 (.put [97] [98])], [], hhistory, by simp, by simp⟩ fun _ _ => false
  have hstores : KVStore.Stores s.store.disk (fun _ => none) [] := by
    rw [hdisk]
    exact ⟨⟨[], rfl, ⟨List.Pairwise.nil, by simp⟩, by simp, Nat.zero_le _⟩, rfl, by simp⟩
  obtain ⟨index, heq, hnone⟩ :=
    KVStore.construct_eq hstores (congrArg EngineOptions.enableWal hoptions) fun _ _ => false
  obtain rfl := Except.ok.inj (heq.symm.trans hconstruct)
  cases (congrFun hnone [97]).symm.trans hget

end SharedStore

end KvStore
