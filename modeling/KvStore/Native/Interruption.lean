import KvStore.Native.CommandProcessor

/-!
# A process that ends

The process of the server may end between two changes of its files, and a store is then
constructed from the files that it leaves behind. `callsUntil` are the calls of `KVStore` up
to such a point. A record is appended by one change: that the process ends between two writes
of `WriteAll` is not modelled here, and a part of a record at the end of the log is the subject
of `WAL.Recovers`.
-/

namespace KvStore

/-- The last change that a call of the store makes to the files before the process ends. -/
inductive CutPoint where
  /-- None. -/
  | before
  /-- `Put` or `Delete` has appended its record. -/
  | appended
  /-- `WriteSnapshotFile` has written out so many bytes of the temporary file. -/
  | writing (written : Nat)
  /-- `WriteSnapshotFile` has renamed the temporary file. -/
  | renamed
  /-- `Reset` has truncated the log. -/
  | truncated
  deriving DecidableEq, Repr

namespace KVStore

/-- What `Checkpoint` has done to the files by then. -/
def checkpointDisk (disk : Disk) (entries : List (Bytes × Bytes)) : CutPoint → Disk
  | .before | .appended => disk
  | .writing written => writeTmp disk entries written
  | .renamed => renameTmp (writeTmp disk entries (snapshotBytes entries).length)
  | .truncated => resetWal (renameTmp (writeTmp disk entries (snapshotBytes entries).length))

/-- `Put` and `Delete` up to this point. The index is lost in any case. -/
def writeUntil (padding : Padding) (cut : CutPoint) (store : KVStore)
    (update : Update Bytes Bytes) : KVStore × Except String Bool :=
  if cut = .before then (store, .error "the process has ended")
  else ((store.appendRecord padding update [] none).1, .error "the process has ended")

/-- `Checkpoint` up to this point. -/
def checkpointUntil (cut : CutPoint) (store : KVStore) : KVStore × Except String Bool :=
  if store.options.enableWal then
    match snapshotEntries store.index with
    | .error error => (store, .error error)
    | .ok entries =>
      ({ store with disk := checkpointDisk store.disk entries cut },
        .error "the process has ended")
  else (store, .ok false)

/-- The calls of a `KVStore` up to this point. -/
def callsUntil (padding : Padding) (cut : CutPoint) : StoreCalls KVStore where
  put store key value := store.writeUntil padding cut (.put key value)
  get := KVStore.get
  delete store key := store.writeUntil padding cut (.delete key)
  scan := KVStore.scan
  checkpoint := checkpointUntil cut

/-- The files that are left when the process ends while a request is executed. -/
def diskUntil (store : KVStore) (padding : Padding) (cut : CutPoint) (tokens : List Bytes) :
    Disk :=
  (CommandProcessor.execute (callsUntil padding cut) store tokens).1.disk

/-! ## A store over the life of several processes -/

/-- What happens to a store that is served. -/
inductive Incident where
  /-- A request is executed, and its response is sent. -/
  | answered (tokens : List Bytes) (padding : Padding)
  /-- The process ends between two requests, and is started again. -/
  | restarted (coins : Nat → Nat → Bool)
  /-- The process ends while a request is executed, and is started again. -/
  | interrupted (tokens : List Bytes) (padding : Padding) (cut : CutPoint)
      (coins : Nat → Nat → Bool)

/-- The request of an incident. -/
def Incident.tokens : Incident → List Bytes
  | .answered tokens _ | .interrupted tokens _ _ _ => tokens
  | .restarted _ => []

/-- The responses that are sent, and the store in the end; or what a command or a constructor
    throws. -/
def serve (store : KVStore) : List Incident → Except String (List Bytes × KVStore)
  | [] => .ok ([], store)
  | .answered tokens padding :: incidents =>
    match CommandProcessor.execute (calls padding) store tokens with
    | (_, .error error) => .error error
    | (store, .ok response) => do
      let (responses, store) ← serve store incidents
      .ok (response :: responses, store)
  | .restarted coins :: incidents =>
    match construct store.options coins store.disk with
    | .error error => .error error
    | .ok store => serve store incidents
  | .interrupted tokens padding cut coins :: incidents =>
    match construct store.options coins (store.diskUntil padding cut tokens) with
    | .error error => .error error
    | .ok store => serve store incidents

end KVStore

end KvStore
