import KvStore.Native.DurableStore
import KvStore.Native.PeriodicWAL

/-!
# A store whose log is synchronised from time to time

The store on a disk that loses power with `wal_sync_interval_ms > 0`, as the server runs it by
default: `MarkDirty` only sets `dirty_`, and the thread of `SyncLoop` calls `fsync`. There is one
call at a time, as the reactor makes them. The thread stops only with the process. `Reset`
clears `dirty_` with its truncation: until then no call can set it, and a thread that takes the
flag in between might as well have taken it before.
-/

namespace KvStore

namespace DurableStore

/-- The updates whose records have been written entirely, in their order. -/
def recorded (s : DurableStore) : List (Update Bytes Bytes) :=
  match s.phase with
  | .appending update [] | .logged update => s.returned ++ [update]
  | _ => s.returned

/-- Nobody holds `append_mutex_`: neither `Append` nor `Reset` is in progress. -/
def LogFree (s : DurableStore) : Prop :=
  match s.phase with
  | .appending _ left => left = []
  | .resetting => False
  | _ => True

/-- The step neither synchronises the log nor truncates it. -/
def Label.LeavesLog : Label → Prop
  | .syncLog | .syncReset | .truncate => False
  | _ => True

end DurableStore

/-- A store, the flag and the thread of its log. The last `fsync` has covered the records of
    the first `synced` updates. -/
structure PeriodicStore where
  store : DurableStore
  dirty : Bool := false
  thread : SyncThread := .waiting
  synced : Nat := 0

namespace PeriodicStore

inductive Label where
  | call (label : DurableStore.Label)
  | markDirty
  | takeFlags
  | flush
  | skip

/-- One step. -/
inductive Step : PeriodicStore → Label → PeriodicStore → Prop where
  /-- Another step of a call, or something becomes durable. -/
  | call {s : PeriodicStore} {label : DurableStore.Label} {store : DurableStore}
      (hlabel : label.LeavesLog)
      (hstep : DurableStore.Step s.store label store) : Step s (.call label) { s with store }
  /-- The record has been written, and `MarkDirty` sets `dirty_`. -/
  | markDirty {s : PeriodicStore} {update : Update Bytes Bytes}
      (hphase : s.store.phase = .appending update []) :
      Step s .markDirty
        { s with store := { s.store with phase := .logged update }, dirty := true }
  /-- `Reset` synchronises the log. -/
  | syncReset {s : PeriodicStore} {store : DurableStore}
      (hstep : DurableStore.Step s.store .syncReset store) :
      Step s (.call .syncReset) { s with store, synced := s.store.recorded.length }
  /-- `Reset` truncates the log and clears `dirty_`. -/
  | truncate {s : PeriodicStore} {store : DurableStore}
      (hstep : DurableStore.Step s.store .truncate store) :
      Step s (.call .truncate) { s with store, dirty := false }
  /-- `SyncLoop` reads the flag and clears it. -/
  | takeFlags {s : PeriodicStore} (hthread : s.thread = .waiting) :
      Step s .takeFlags { s with thread := .taken s.dirty false, dirty := false }
  /-- `SyncLoop` calls `fsync` under `append_mutex_`. -/
  | flush {s : PeriodicStore} (hthread : s.thread = .taken true false)
      (hfree : s.store.LogFree) :
      Step s .flush
        { s with
          store := s.store.withVolume { s.store.volume with wal := s.store.volume.wal.sync }
            s.store.phase
          thread := .waiting
          synced := s.store.recorded.length }
  /-- `SyncLoop` has nothing to synchronise. -/
  | skip {s : PeriodicStore} (hthread : s.thread = .taken false false) :
      Step s .skip { s with thread := .waiting }

end PeriodicStore

end KvStore
