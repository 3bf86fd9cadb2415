import KvStore.Native.KVStore

/-!
# A store that is shared by several callers

The atomic steps of the calls that several callers make on one `KVStore`. `Put` and
`Delete` append their record under `append_mutex_` and update the index afterwards;
`Checkpoint` takes the entries of the index, writes and renames the snapshot file, and
resets the log. A step of one caller can come between any two steps of another.
-/

namespace KvStore

/-- The beginning and the end of a `Put` or `Delete`. -/
inductive Event (ι : Type) where
  | start (caller : ι) (update : Update Bytes Bytes)
  | finish (caller : ι) (update : Update Bytes Bytes)

/-- How far a `Checkpoint` has come. -/
inductive CheckpointPhase where
  /-- It has taken the entries of the index. -/
  | taken (entries : List (Bytes × Bytes))
  /-- It has renamed the snapshot file. -/
  | renamed

/-- A store, the calls in progress on it, and what has happened so far. -/
structure SharedStore (ι : Type) where
  store : KVStore
  /-- The calls of `Put` and `Delete` that have appended their record and not yet updated
      the index, in the order of their records. -/
  inFlight : List (ι × Update Bytes Bytes) := []
  /-- The calls of `Checkpoint` in progress. -/
  checkpoints : List (ι × CheckpointPhase) := []
  /-- The calls of `Put` and `Delete`, the latest event first. -/
  history : List (Event ι) := []

namespace SharedStore

variable {ι : Type}

/-- The caller has a call in progress. -/
def Busy (s : SharedStore ι) (caller : ι) : Prop :=
  caller ∈ s.inFlight.map Prod.fst ∨ caller ∈ s.checkpoints.map Prod.fst

/-- Which caller makes which step. -/
inductive Label (ι : Type) where
  | append (caller : ι) (update : Update Bytes Bytes)
  | apply (caller : ι)
  | snapshot (caller : ι)
  | rename (caller : ι)
  | reset (caller : ι)

/-- The store with other files. -/
def withDisk (s : SharedStore ι) (disk : Disk) (checkpoints : List (ι × CheckpointPhase)) :
    SharedStore ι :=
  { s with store := { s.store with disk }, checkpoints }

/-- The atomic steps. No call on a file fails. -/
inductive Step : SharedStore ι → Label ι → SharedStore ι → Prop where
  /-- `Put` or `Delete`: `AppendPut` or `AppendDelete`. -/
  | append {s : SharedStore ι} {store : KVStore} {caller : ι} {update : Update Bytes Bytes}
      (padding : Padding) (writes : List WAL.WriteOutcome) (hfree : ¬ s.Busy caller)
      (happend : s.store.appendRecord padding update writes none = (store, .ok ())) :
      Step s (.append caller update)
        { s with
          store
          inFlight := s.inFlight ++ [(caller, update)]
          history := .start caller update :: s.history }
  /-- `Put` or `Delete`: `index.Put` or `index.Delete`. -/
  | apply {s : SharedStore ι} {caller : ι} {update : Update Bytes Bytes}
      (front back : List (ι × Update Bytes Bytes))
      (hflight : s.inFlight = front ++ (caller, update) :: back) :
      Step s (.apply caller)
        { s with
          store := (s.store.applyUpdate update).2
          inFlight := front ++ back
          history := .finish caller update :: s.history }
  /-- `Checkpoint`: `index.Snapshot`. -/
  | snapshot {s : SharedStore ι} {caller : ι} {entries : List (Bytes × Bytes)}
      (hfree : ¬ s.Busy caller)
      (hentries : KVStore.snapshotEntries s.store.index = .ok entries) :
      Step s (.snapshot caller)
        { s with checkpoints := (caller, .taken entries) :: s.checkpoints }
  /-- `Checkpoint`: `WriteSnapshotFile`. -/
  | rename {s : SharedStore ι} {caller : ι} {entries : List (Bytes × Bytes)}
      (front back : List (ι × CheckpointPhase))
      (hcheckpoint : s.checkpoints = front ++ (caller, .taken entries) :: back) :
      Step s (.rename caller)
        (s.withDisk (KVStore.renameTmp (KVStore.writeTmp s.store.disk entries
          (KVStore.snapshotBytes entries).length)) (front ++ (caller, .renamed) :: back))
  /-- `Checkpoint`: `wal.Reset`. -/
  | reset {s : SharedStore ι} {caller : ι} (front back : List (ι × CheckpointPhase))
      (hcheckpoint : s.checkpoints = front ++ (caller, .renamed) :: back) :
      Step s (.reset caller) (s.withDisk (KVStore.resetWal s.store.disk) (front ++ back))

end SharedStore

end KvStore
