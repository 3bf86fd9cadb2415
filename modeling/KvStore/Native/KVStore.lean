import KvStore.Native.Index
import KvStore.Native.WAL
import KvStore.ForStd.UpdateLog

/-!
# The store

Model of `src/kvstore.cpp`: an in-memory index, a write-ahead log and a snapshot file.
The files are byte strings in a `Disk`. What the calls do is split into the steps that a
crash or another caller can come between; `put`, `delete` and `checkpoint` are these
steps one after another.
-/

namespace KvStore

/-- The files of a store: the log, the snapshot, and the temporary file next to it. A
    log that does not exist reads as an empty one. -/
structure Disk where
  wal : Bytes := []
  snapshot : Option Bytes := none
  tmp : Option Bytes := none
  deriving DecidableEq

/-- `EngineOptions`. The synchronisation interval is left out: it is zero here, so every
    write synchronises the log. -/
structure EngineOptions where
  walPath : String := "data/wal.log"
  enableWal : Bool := true
  deriving DecidableEq

/-- `KVStore`, with the files it works on. -/
structure KVStore where
  options : EngineOptions := {}
  index : Index Bytes Bytes
  disk : Disk

namespace KVStore

/-! ## Snapshot files -/

/-- `kSnapshotMagic`. -/
def snapshotMagic : UInt32 := 0x4b565353

/-- `kSnapshotVersion`. -/
def snapshotVersion : UInt32 := 1

/-- `SnapshotPathFromWalPath`. -/
def snapshotPathFromWalPath (walPath : String) : String :=
  walPath ++ ".snapshot"

/-- The bytes that `WriteSnapshotFile` writes for one entry. -/
def entryBytes (entry : Bytes × Bytes) : Bytes :=
  leBytes 4 entry.1.length ++ (leBytes 4 entry.2.length ++ (entry.1 ++ entry.2))

/-- The `SnapshotHeader` that `WriteSnapshotFile` writes. -/
def snapshotHeaderBytes (entryCount : Nat) : Bytes :=
  leBytes 4 snapshotMagic.toNat ++ (leBytes 4 snapshotVersion.toNat ++ leBytes 8 entryCount)

/-- The bytes that `WriteSnapshotFile` writes. -/
def snapshotBytes (entries : List (Bytes × Bytes)) : Bytes :=
  snapshotHeaderBytes entries.length ++ entries.flatMap entryBytes

/-- `in.read`: the bytes read and the bytes after them, if there are enough of them;
    otherwise the stream is in the failed state. -/
def read (length : Nat) (file : Bytes) : Option (Bytes × Bytes) :=
  if length ≤ file.length then some (file.take length, file.drop length) else none

/-- One round of the loop of `LoadSnapshotFile`: an entry and the bytes after it. -/
def readEntry (snapshotPath : String) (file : Bytes) :
    Except String ((Bytes × Bytes) × Bytes) :=
  match (do
    let (keySize, file) ← read 4 file
    let (valueSize, file) ← read 4 file
    some (leNat keySize, leNat valueSize, file) : Option (Nat × Nat × Bytes)) with
  | none => .error ("read snapshot record header failed: " ++ snapshotPath)
  | some (keySize, valueSize, file) =>
    match (do
      let (key, file) ← read keySize file
      let (value, file) ← read valueSize file
      some ((key, value), file) : Option ((Bytes × Bytes) × Bytes)) with
    | none => .error ("read snapshot payload failed: " ++ snapshotPath)
    | some (entry, file) => .ok (entry, file)

/-- The loop of `LoadSnapshotFile`, with the number of entries that are left to read. -/
def loadEntries (snapshotPath : String) :
    Nat → Bytes → Index Bytes Bytes → Except String (Index Bytes Bytes)
  | 0, _, index => .ok index
  | count + 1, file, index =>
    match readEntry snapshotPath file with
    | .error error => .error error
    | .ok ((key, value), file) => loadEntries snapshotPath count file (index.put key value).2

/-- `LoadSnapshotFile`. A file that does not exist leaves the index as it is. -/
def loadSnapshotFile (snapshotPath : String) (file : Option Bytes)
    (index : Index Bytes Bytes) : Except String (Index Bytes Bytes) :=
  match file with
  | none => .ok index
  | some file =>
    match read 16 file with
    | none => .error ("read snapshot header failed: " ++ snapshotPath)
    | some (header, file) =>
      if leNat (header.take 4) ≠ snapshotMagic.toNat ∨
          leNat ((header.drop 4).take 4) ≠ snapshotVersion.toNat then
        .error ("invalid snapshot header: " ++ snapshotPath)
      else loadEntries snapshotPath (leNat ((header.drop 8).take 8)) file index

/-! ## Opening -/

/-- The callback that the constructor passes to `Replay`. -/
def applyRecord (index : Index Bytes Bytes) (record : LogRecord) : Index Bytes Bytes :=
  match record.type with
  | .put => (index.put record.key record.value).2
  | .delete => (index.delete record.key).2

/-- The constructor of `KVStore::Impl`. The log is opened for appending, which leaves its
    bytes as they are; the coin flips are those of the random number generator. -/
def construct (options : EngineOptions) (coins : Nat → Nat → Bool) (disk : Disk) :
    Except String KVStore :=
  if options.enableWal then
    match loadSnapshotFile (snapshotPathFromWalPath options.walPath) disk.snapshot
        (Index.new coins) with
    | .error error => .error error
    | .ok index =>
      match WAL.replay applyRecord index disk.wal with
      | (_, .error error) => .error error
      | (index, .ok _) => .ok { options, index, disk }
  -- without a log the files are not looked at
  else .ok { options, index := Index.new coins, disk }

/-! ## Writing -/

/-- The record that `AppendPut` and `AppendDelete` write. -/
def record : Update Bytes Bytes → LogRecord
  | .put key value => { type := .put, key, value }
  | .delete key => { type := .delete, key, value := [] }

/-- The first half of `Put` and `Delete`: the record is written to the log. -/
def appendRecord (store : KVStore) (padding : Padding) (update : Update Bytes Bytes)
    (writes : List WAL.WriteOutcome) (fsync : Option String) :
    KVStore × Except String Unit :=
  if store.options.enableWal then
    let (wal, result) := WAL.append store.disk.wal padding (record update) writes fsync
    ({ store with disk := { store.disk with wal } }, result)
  else (store, .ok ())

/-- The second half of `Put` and `Delete`: the index is updated. -/
def applyUpdate (store : KVStore) (update : Update Bytes Bytes) : Bool × KVStore :=
  let (changed, index) := store.index.update update
  (changed, { store with index })

/-- `Put` for an `Update.put`, and `Delete` for an `Update.delete`. -/
def write (store : KVStore) (padding : Padding) (update : Update Bytes Bytes)
    (writes : List WAL.WriteOutcome) (fsync : Option String) :
    KVStore × Except String Bool :=
  match store.appendRecord padding update writes fsync with
  -- the exception leaves the function before the index is updated
  | (store, .error error) => (store, .error error)
  | (store, .ok ()) =>
    let (changed, store) := store.applyUpdate update
    (store, .ok changed)

/-- `Put`. -/
def put (store : KVStore) (padding : Padding) (key value : Bytes)
    (writes : List WAL.WriteOutcome) (fsync : Option String) : KVStore × Except String Bool :=
  store.write padding (.put key value) writes fsync

/-- `Delete`. -/
def delete (store : KVStore) (padding : Padding) (key : Bytes)
    (writes : List WAL.WriteOutcome) (fsync : Option String) : KVStore × Except String Bool :=
  store.write padding (.delete key) writes fsync

/-- `Get`. -/
def get (store : KVStore) (key : Bytes) : Option Bytes :=
  store.index.get key

/-- `Scan`. -/
def scan (store : KVStore) (start stop : Bytes) : List (Bytes × Bytes) :=
  store.index.scan start stop

/-! ## Checkpoints -/

/-- The `max_size` of a vector of pairs of strings, which take 64 bytes each. -/
def maxEntries : Nat := (2 ^ 63 - 1) / 64

/-- `Snapshot`, which reserves room for the entries first. -/
def snapshotEntries (index : Index Bytes Bytes) : Except String (List (Bytes × Bytes)) :=
  if maxEntries < index.size then .error "vector::reserve" else .ok index.snapshot

/-- `WriteSnapshotFile` up to the call of `close`, when so many bytes of the temporary
    file have been written out. -/
def writeTmp (disk : Disk) (entries : List (Bytes × Bytes)) (written : Nat) : Disk :=
  { disk with tmp := some ((snapshotBytes entries).take written) }

/-- The `rename` at the end of `WriteSnapshotFile`. -/
def renameTmp (disk : Disk) : Disk :=
  { disk with snapshot := disk.tmp, tmp := none }

/-- `WAL::Reset`. -/
def resetWal (disk : Disk) : Disk :=
  { disk with wal := [] }

/-- `Checkpoint`, when no call on a file fails. -/
def checkpoint (store : KVStore) : KVStore × Except String Bool :=
  if store.options.enableWal then
    match snapshotEntries store.index with
    | .error error => (store, .error error)
    | .ok entries =>
      let disk := writeTmp store.disk entries (snapshotBytes entries).length
      ({ store with disk := resetWal (renameTmp disk) }, .ok true)
  else (store, .ok false)

end KVStore

end KvStore
