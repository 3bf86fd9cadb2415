import KvStore.Native.PeriodicWAL
import KvStore.ForStd.Transition

/-!
# The periodic flush

A record that has been appended and is not yet covered by an `fsync` is on its way to one
(`OnItsWay`): its call has not reached `MarkDirty`, or `dirty_` is set, or the sync thread has
taken the flag. Clearing the flag is harmless in `SyncLoop` because the thread then owes an
`fsync`, and in `Reset` because no record can come in behind the truncation while it holds
`append_mutex_`. `flush_forgets_nothing` says so for every run, and that the destructor leaves
every record covered. A record that an earlier process has left uncovered is on no such way
(`leftover_forgotten`), as `dirty_` is not set when the log is opened.
-/

namespace KvStore.PeriodicWAL

variable {ι : Type} {s s' : PeriodicWAL ι} {file : DurableFile LogRecord}

/-- The sync thread has taken the flag and has not yet called `fsync`. -/
def FlushPending (s : PeriodicWAL ι) : Prop := ∃ shouldStop, s.thread = .taken true shouldStop

/-- The record of a call will be covered by an `fsync`. -/
def OnItsWay (s : PeriodicWAL ι) (call : ι) : Prop :=
  s.dirty = true ∨ s.FlushPending ∨ s.appends call = .appended

/-- The invariant. -/
structure Inv (file : DurableFile LogRecord) (s : PeriodicWAL ι) : Prop where
  onItsWay : ∀ {call record}, (some call, record) ∈ s.file.unsynced → s.OnItsWay call
  /-- Only a record that was there at first has no call. -/
  appended : file.unsynced = [] → ∀ entry ∈ s.file.unsynced, entry.1.isSome = true
  /-- While `Reset` holds `append_mutex_`, nothing is left to synchronise. -/
  resetting : s.reset ≠ .none → s.file.unsynced = []
  joined : s.destructor = .joined → s.thread = .returned
  finished : s.destructor = .finished → s.thread = .returned ∧ s.reset = .none ∧ s.file.Settled

/-- What the constructor leaves. -/
theorem inv_opened : Inv file (opened file : PeriodicWAL ι) where
  onItsWay {call record} hentry := by
    have hmem : (some call, record) ∈ (file.map fun record => (none, record)).unsynced := hentry
    rw [DurableFile.unsynced_map] at hmem
    obtain ⟨_, -, heq⟩ := List.mem_map.mp hmem
    cases heq
  appended hfile entry hentry := by
    have hmem : entry ∈ (file.map fun record => ((none : Option ι), record)).unsynced := hentry
    rw [DurableFile.unsynced_map, hfile] at hmem
    cases hmem
  resetting h := absurd rfl h
  joined h := by cases h
  finished h := by cases h

/-! ## The steps -/

/-- A step that leaves nothing to synchronise. -/
private theorem Inv.of_unsynced_nil (hunsynced : s.file.unsynced = [])
    (hjoined : s.destructor = .joined → s.thread = .returned)
    (hfinished : s.destructor = .finished →
      s.thread = .returned ∧ s.reset = .none ∧ s.file.Settled) : Inv file s where
  onItsWay hentry := by
    rw [hunsynced] at hentry
    cases hentry
  appended _ entry hentry := by
    rw [hunsynced] at hentry
    cases hentry
  resetting _ := hunsynced
  joined := hjoined
  finished := hfinished

/-- `SyncLoop` takes the flag: if it was set, the thread owes an `fsync` now. -/
private theorem Inv.takeFlags (h : Inv file s) (hthread : s.thread = .waiting) :
    Inv file { s with thread := .taken s.dirty s.stopSync, dirty := false } where
  onItsWay hentry := by
    obtain hdirty | ⟨shouldStop, hflush⟩ | hpending := h.onItsWay hentry
    · refine .inr (.inl ⟨s.stopSync, ?_⟩)
      rw [hdirty]
    · cases hthread.symm.trans hflush
    · exact .inr (.inr hpending)
  appended := h.appended
  resetting := h.resetting
  joined hjoined := by cases hthread.symm.trans (h.joined hjoined)
  finished hfinished := by cases hthread.symm.trans (h.finished hfinished).1

/-- A round of `SyncLoop` in which there is nothing to synchronise. -/
private theorem Inv.skip (h : Inv file s) {shouldStop : Bool}
    (hthread : s.thread = .taken false shouldStop) :
    Inv file { s with thread := endOfRound shouldStop } where
  onItsWay hentry := by
    obtain hdirty | ⟨shouldStop', hflush⟩ | hpending := h.onItsWay hentry
    · exact .inl hdirty
    · cases hthread.symm.trans hflush
    · exact .inr (.inr hpending)
  appended := h.appended
  resetting := h.resetting
  joined hjoined := by cases hthread.symm.trans (h.joined hjoined)
  finished hfinished := by cases hthread.symm.trans (h.finished hfinished).1

variable [DecidableEq ι]

/-- `AppendPut` and `AppendDelete` before `MarkDirty`. -/
private theorem Inv.append (h : Inv file s) {call : ι} {record : LogRecord}
    (hcall : s.appends call = .notStarted) (hreset : s.reset = .none)
    (halive : s.destructor ≠ .finished) :
    Inv file { s with
      file := s.file.write [(some call, record)]
      appends := Function.update s.appends call .appended } where
  onItsWay {call' record'} hentry := by
    rw [DurableFile.unsynced_write, List.mem_append, List.mem_singleton] at hentry
    obtain hold | hnew := hentry
    · -- a record from before: its call is not the one that appends now
      obtain hdirty | hflush | hpending := h.onItsWay hold
      · exact .inl hdirty
      · exact .inr (.inl hflush)
      · have hne : call' ≠ call := by
          rintro rfl
          cases hcall.symm.trans hpending
        exact .inr (.inr ((Function.update_of_ne hne _ _).trans hpending))
    · cases hnew
      exact .inr (.inr (Function.update_self _ _ _))
  appended hfile entry hentry := by
    rw [DurableFile.unsynced_write, List.mem_append, List.mem_singleton] at hentry
    obtain hold | rfl := hentry
    · exact h.appended hfile entry hold
    · rfl
  resetting hne := absurd hreset hne
  joined := h.joined
  finished hfinished := absurd hfinished halive

/-- `MarkDirty`. -/
private theorem Inv.markDirty (h : Inv file s) (call : ι) :
    Inv file { s with dirty := true, appends := Function.update s.appends call .returned } where
  onItsWay _ := .inl rfl
  appended := h.appended
  resetting := h.resetting
  joined := h.joined
  finished := h.finished

/-- Every step keeps the invariant. -/
theorem Inv.step (h : Inv file s) {label : Label ι} (hstep : Step s label s') : Inv file s' := by
  cases hstep with
  | append hcall hreset halive => exact h.append hcall hreset halive
  | markDirty hcall => exact h.markDirty _
  | takeFlags hthread => exact h.takeFlags hthread
  | skip hthread => exact h.skip hthread
  | sync hreset halive =>
    exact .of_unsynced_nil s.file.unsynced_sync h.joined fun hfinished => absurd hfinished halive
  | flush hthread hreset =>
    -- the thread has not returned, so the destructor waits for it
    refine .of_unsynced_nil s.file.unsynced_sync (fun hjoined => ?_) fun hfinished => ?_
    · cases hthread.symm.trans (h.joined hjoined)
    · cases hthread.symm.trans (h.finished hfinished).1
  | resetSync hreset halive =>
    exact .of_unsynced_nil s.file.unsynced_sync h.joined fun hfinished => absurd hfinished halive
  | resetTruncate hreset =>
    refine .of_unsynced_nil s.file.unsynced_truncate h.joined fun hfinished => ?_
    -- the destructor ends when no `Reset` is under way
    cases hreset.symm.trans (h.finished hfinished).2.1
  | resetClear hreset =>
    have hnil : s.file.unsynced = [] := h.resetting (by rw [hreset]; exact ResetPhase.noConfusion)
    refine .of_unsynced_nil hnil h.joined fun hfinished => ?_
    cases hreset.symm.trans (h.finished hfinished).2.1
  | stop hdestructor =>
    exact ⟨h.onItsWay, h.appended, h.resetting, DestructorPhase.noConfusion,
      DestructorPhase.noConfusion⟩
  | join hdestructor hthread =>
    exact ⟨h.onItsWay, h.appended, h.resetting, fun _ => hthread, DestructorPhase.noConfusion⟩
  | finalSync hdestructor hreset =>
    exact .of_unsynced_nil s.file.unsynced_sync DestructorPhase.noConfusion fun _ =>
      ⟨h.joined hdestructor, hreset, DurableFile.settled_synced _⟩

/-! ## The runs -/

/-- Every state of every run meets the invariant. -/
theorem inv_of_run (hrun : Run Step (fun _ _ => True) (opened file) s) : Inv file s :=
  hrun.invariant inv_opened fun h _ hstep => h.step hstep

/-- In every state of every run, a record that a call has appended and no `fsync` covers is on
    its way to one; there are no other such records, unless the file held some at first. When
    the destructor has finished, every record is covered: a power cut leaves the whole file. -/
theorem flush_forgets_nothing (hrun : Run Step (fun _ _ => True) (opened file) s) :
    (∀ call record, (some call, record) ∈ s.file.unsynced →
      s.dirty = true ∨ (∃ shouldStop, s.thread = .taken true shouldStop) ∨
        s.appends call = .appended) ∧
      (file.unsynced = [] → ∀ entry ∈ s.file.unsynced, ∃ call record,
        entry = (some call, record)) ∧
      (s.destructor = .finished → s.file.unsynced = [] ∧
        ∀ entries, s.file.Survives entries ↔ entries = s.file.written) := by
  have hinv := inv_of_run hrun
  refine ⟨fun _ _ hentry => hinv.onItsWay hentry, fun hfile entry hentry => ?_,
    fun hfinished => ?_⟩
  · obtain ⟨call, hcall⟩ := Option.isSome_iff_exists.mp (hinv.appended hfile entry hentry)
    exact ⟨call, entry.2, Prod.ext hcall rfl⟩
  · obtain ⟨-, -, hsettled⟩ := hinv.finished hfinished
    exact ⟨hsettled.unsynced, fun _ => hsettled.survives_iff⟩

/-- The record of a `Put`. -/
def putRecord : LogRecord := KVStore.record (.put [107] [118])

/-- A record is appended and `MarkDirty` sets the flag; the destructor sets `stop_sync_`, and the
    sync thread takes both flags. -/
private theorem exists_run_taken :
    ∃ s : PeriodicWAL Unit, Run Step (fun _ _ => True) (opened (.synced [])) s ∧
      s.file.written = [(some (), putRecord)] ∧ s.file.unsynced = [(some (), putRecord)] ∧
      s.dirty = false ∧ s.thread = .taken true true ∧ s.reset = .none ∧
      s.destructor = .stopping := by
  have happended : Run Step (fun _ _ => True) (opened (.synced []) : PeriodicWAL Unit) _ :=
    Run.refl.tail (.append () (.put [107] [118])) trivial
      (.append rfl rfl DestructorPhase.noConfusion)
  have hmarked := happended.tail (.markDirty ()) trivial (.markDirty rfl)
  have hstopped := hmarked.tail .stop trivial (.stop rfl)
  exact ⟨_, hstopped.tail .takeFlags trivial (.takeFlags rfl), rfl, rfl, rfl, rfl, rfl, rfl⟩

/-- The record is on its way to an `fsync`, and covered in the end. -/
theorem flush_forgets_nothing_put :
    (∃ s : PeriodicWAL Unit, (some (), putRecord) ∈ s.file.unsynced ∧
      (s.dirty = true ∨ (∃ shouldStop, s.thread = .taken true shouldStop) ∨
        s.appends () = .appended)) ∧
      ∃ s : PeriodicWAL Unit, s.file.written = [(some (), putRecord)] ∧
        s.destructor = .finished ∧ s.file.unsynced = [] := by
  obtain ⟨s, hrun, hwritten, hunsynced, -, hthread, hreset, hdestructor⟩ := exists_run_taken
  have hmem : (some (), putRecord) ∈ s.file.unsynced := by
    rw [hunsynced]
    exact List.mem_singleton_self _
  have hflushed := hrun.tail .flush trivial (.flush hthread hreset)
  have hjoined := hflushed.tail .join trivial (.join (by exact hdestructor) rfl)
  have hfinished := hjoined.tail .finalSync trivial (.finalSync rfl (by exact hreset))
  refine ⟨⟨s, hmem, (flush_forgets_nothing hrun).1 () putRecord hmem⟩, _, ?_, rfl,
    ((flush_forgets_nothing hfinished).2.2 rfl).1⟩
  exact hwritten

/-- A process is killed before the `fsync` of a record. In the next one the record is still not
    covered, after a whole round of the sync thread, and nothing is under way that covers it. -/
theorem leftover_forgotten :
    ∃ killed : PeriodicWAL Unit, Run Step (fun _ _ => True) (opened (.synced [])) killed ∧
      ∃ s : PeriodicWAL Unit,
        Run Step (fun _ _ => True) (opened (killed.file.map Prod.snd)) s ∧
          s.file.unsynced = [(none, putRecord)] ∧ s.dirty = false ∧ s.thread = .waiting ∧
            ∀ call, s.appends call = .notStarted := by
  have happended : Run Step (fun _ _ => True) (opened (.synced []) : PeriodicWAL Unit) _ :=
    Run.refl.tail (.append () (.put [107] [118])) trivial
      (.append rfl rfl DestructorPhase.noConfusion)
  -- the thread of the next process finds no flag
  have hround (file : DurableFile LogRecord) :
      Run Step (fun _ _ => True) (opened file : PeriodicWAL Unit) (opened file) := by
    have htaken : Step (opened file : PeriodicWAL Unit) .takeFlags
        { opened file with thread := .taken false false } := .takeFlags rfl
    exact (Run.refl.tail .takeFlags trivial htaken).tail .skip trivial
      (@Step.skip _ _ { opened file with thread := .taken false false } false rfl)
  exact ⟨_, happended, _, hround _, rfl, rfl, rfl, fun _ => rfl⟩

end KvStore.PeriodicWAL
