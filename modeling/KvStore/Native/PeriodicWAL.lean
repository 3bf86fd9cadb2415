import KvStore.Native.KVStore
import KvStore.ForStd.DurableFile

/-!
# A log with a sync thread

The atomic steps of a `WAL` with `sync_interval_ms > 0` that several callers share. The file is
touched under `append_mutex_` only, the flags under `sync_mutex_` only. A caller of `AppendPut`
or `AppendDelete` appends its record and reaches `MarkDirty` later; `Reset` holds
`append_mutex_` from its `fsync` until it has cleared `dirty_`. The waiting of `SyncLoop` may
end at any moment. No call on a file fails.
-/

namespace KvStore

/-- Where a call of `AppendPut` or `AppendDelete` is. -/
inductive AppendPhase where
  | notStarted
  /-- It has appended its record and has not yet reached `MarkDirty`. -/
  | appended
  | returned

/-- Where the thread of `SyncLoop` is. -/
inductive SyncThread where
  | waiting
  /-- It has read the flags and cleared `dirty_`. -/
  | taken (shouldSync shouldStop : Bool)
  | returned

/-- Where the call of `Reset` is that holds `append_mutex_`, if there is one. -/
inductive ResetPhase where
  | none
  /-- Between `fsync` and the truncation. -/
  | synced
  /-- It has truncated the file and has not yet cleared `dirty_`. -/
  | truncated

/-- Where the destructor is. -/
inductive DestructorPhase where
  | notStarted
  /-- `StopSyncThread` has set `stop_sync_`. -/
  | stopping
  /-- `StopSyncThread` has joined the thread. -/
  | joined
  | finished

/-- A `WAL`, the calls on it and its thread. The calls are named by `ι`; a record of the file
    has the call that has appended it, or none if it comes from an earlier run. -/
structure PeriodicWAL (ι : Type) where
  file : DurableFile (Option ι × LogRecord)
  appends : ι → AppendPhase := fun _ => .notStarted
  dirty : Bool := false
  stopSync : Bool := false
  thread : SyncThread := .waiting
  reset : ResetPhase := .none
  destructor : DestructorPhase := .notStarted

namespace PeriodicWAL

variable {ι : Type} [DecidableEq ι]

/-- What the constructor makes of the file that it finds. -/
def opened (file : DurableFile LogRecord) : PeriodicWAL ι where
  file := file.map fun record => (none, record)

/-- Where the thread goes at the end of a round. -/
def endOfRound (shouldStop : Bool) : SyncThread := if shouldStop then .returned else .waiting

/-- The steps. -/
inductive Label (ι : Type) where
  | append (call : ι) (update : Update Bytes Bytes)
  | markDirty (call : ι)
  | sync
  | takeFlags
  | flush
  | skip
  | resetSync
  | resetTruncate
  | resetClear
  | stop
  | join
  | finalSync

/-- One step. After the destructor there is no `WAL` to call. -/
inductive Step : PeriodicWAL ι → Label ι → PeriodicWAL ι → Prop where
  /-- `AppendPut` or `AppendDelete` appends its record under `append_mutex_`. -/
  | append {s : PeriodicWAL ι} {call : ι} {update : Update Bytes Bytes}
      (hcall : s.appends call = .notStarted) (hreset : s.reset = .none)
      (halive : s.destructor ≠ .finished) :
      Step s (.append call update)
        { s with
          file := s.file.write [(some call, KVStore.record update)]
          appends := Function.update s.appends call .appended }
  /-- `MarkDirty`, and the call returns. -/
  | markDirty {s : PeriodicWAL ι} {call : ι} (hcall : s.appends call = .appended) :
      Step s (.markDirty call)
        { s with dirty := true, appends := Function.update s.appends call .returned }
  /-- `Sync`. -/
  | sync {s : PeriodicWAL ι} (hreset : s.reset = .none) (halive : s.destructor ≠ .finished) :
      Step s .sync { s with file := s.file.sync }
  /-- `SyncLoop` reads the flags and clears `dirty_`. -/
  | takeFlags {s : PeriodicWAL ι} (hthread : s.thread = .waiting) :
      Step s .takeFlags { s with thread := .taken s.dirty s.stopSync, dirty := false }
  /-- `SyncLoop` calls `fsync` under `append_mutex_`. -/
  | flush {s : PeriodicWAL ι} {shouldStop : Bool} (hthread : s.thread = .taken true shouldStop)
      (hreset : s.reset = .none) :
      Step s .flush { s with file := s.file.sync, thread := endOfRound shouldStop }
  /-- `SyncLoop` has nothing to synchronise. -/
  | skip {s : PeriodicWAL ι} {shouldStop : Bool}
      (hthread : s.thread = .taken false shouldStop) :
      Step s .skip { s with thread := endOfRound shouldStop }
  /-- `Reset` locks `append_mutex_` and calls `fsync`. -/
  | resetSync {s : PeriodicWAL ι} (hreset : s.reset = .none)
      (halive : s.destructor ≠ .finished) :
      Step s .resetSync { s with file := s.file.sync, reset := .synced }
  /-- `Reset` opens the file with `O_TRUNC`. -/
  | resetTruncate {s : PeriodicWAL ι} (hreset : s.reset = .synced) :
      Step s .resetTruncate { s with file := s.file.truncate, reset := .truncated }
  /-- `Reset` clears `dirty_` and returns. -/
  | resetClear {s : PeriodicWAL ι} (hreset : s.reset = .truncated) :
      Step s .resetClear { s with dirty := false, reset := .none }
  /-- The destructor: `StopSyncThread` sets `stop_sync_`. -/
  | stop {s : PeriodicWAL ι} (hdestructor : s.destructor = .notStarted) :
      Step s .stop { s with stopSync := true, destructor := .stopping }
  /-- The destructor: `StopSyncThread` joins the thread, which has returned. -/
  | join {s : PeriodicWAL ι} (hdestructor : s.destructor = .stopping)
      (hthread : s.thread = .returned) :
      Step s .join { s with destructor := .joined }
  /-- The destructor calls `fsync` under `append_mutex_`. -/
  | finalSync {s : PeriodicWAL ι} (hdestructor : s.destructor = .joined)
      (hreset : s.reset = .none) :
      Step s .finalSync { s with file := s.file.sync, destructor := .finished }

end PeriodicWAL

end KvStore
