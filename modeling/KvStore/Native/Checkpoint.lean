import KvStore.Native.KVStore

/-!
# Checkpoints whose calls on files may fail

`Checkpoint` as in `KVStore.checkpoint`, for any outcomes of the calls that it makes on
files. `WriteSnapshotFile` writes through an `std::ofstream`, which keeps bytes in a buffer:
a flush may come with any `write` and comes with `close`, may fail after any part of the
buffer, and a failure is seen in the state of the stream only.
-/

namespace KvStore

/-- What is written out by a flush, and whether it fails. A flush that does not fail may
    still leave bytes in the buffer, unless it is the one in `close`. -/
structure Flush where
  written : Nat := 0
  fails : Bool := false
  deriving DecidableEq, Repr

/-- `std::ofstream`: the bytes in the file, the bytes in the buffer, and `good()`. -/
structure OFStream where
  file : Bytes := []
  buffer : Bytes := []
  good : Bool := true
  deriving DecidableEq, Repr

namespace OFStream

/-- `write`, which does nothing when the stream is not good. -/
def write (out : OFStream) (data : Bytes) (flush : Flush) : OFStream :=
  if out.good then
    { file := out.file ++ (out.buffer ++ data).take flush.written
      buffer := (out.buffer ++ data).drop flush.written
      good := !flush.fails }
  else out

/-- Calls of `write` one after another. Those behind the end of the list of flushes keep
    their bytes in the buffer. -/
def writeAll (out : OFStream) : List Bytes → List Flush → OFStream
  | [], _ => out
  | data :: chunks, flushes =>
    (out.write data (flushes.headD {})).writeAll chunks flushes.tail

/-- `close`, which writes out the whole buffer or fails. -/
def close (out : OFStream) (flush : Flush) : OFStream :=
  if flush.fails then
    { file := out.file ++ out.buffer.take flush.written
      buffer := out.buffer.drop flush.written
      good := false }
  else { file := out.file ++ out.buffer, buffer := [], good := out.good }

end OFStream

/-- What the calls that `Checkpoint` makes on files do. An error is the text of `errno`. -/
structure FileCalls where
  opened : Bool := true
  flushes : List Flush := []
  closing : Flush := {}
  rename : Option String := none
  fsync : Option String := none
  truncate : Option String := none
  deriving DecidableEq, Repr

namespace KVStore

/-- The pieces that `WriteSnapshotFile` passes to `write`, one after another. -/
def snapshotChunks (entries : List (Bytes × Bytes)) : List Bytes :=
  snapshotHeaderBytes entries.length ::
    entries.flatMap fun entry =>
      [leBytes 4 entry.1.length, leBytes 4 entry.2.length, entry.1, entry.2]

/-- The stream of `WriteSnapshotFile` before `close`. -/
def snapshotStream (entries : List (Bytes × Bytes)) (calls : FileCalls) : OFStream :=
  OFStream.writeAll {} (snapshotChunks entries) calls.flushes

/-- `WriteSnapshotFile`. Whether the stream is good is looked at before `close`. -/
def writeSnapshotFile (disk : Disk) (snapshotPath : String) (entries : List (Bytes × Bytes))
    (calls : FileCalls) : Disk × Except String Unit :=
  let tempPath := snapshotPath ++ ".tmp"
  if calls.opened then
    let out := snapshotStream entries calls
    if out.good then
      match calls.rename with
      | none => (renameTmp { disk with tmp := some (out.close calls.closing).file }, .ok ())
      | some error => ({ disk with tmp := none }, .error ("rename snapshot failed: " ++ error))
    else ({ disk with tmp := none }, .error ("write snapshot failed: " ++ tempPath))
  else (disk, .error ("open snapshot for write failed: " ++ tempPath))

/-- `WAL::Reset`: the log is synchronised, then opened again with `O_TRUNC`. -/
def reset (disk : Disk) (calls : FileCalls) : Disk × Except String Unit :=
  match WAL.sync calls.fsync with
  | .error error => (disk, .error error)
  | .ok () =>
    match calls.truncate with
    | some error => (disk, .error ("truncate WAL failed: " ++ error))
    | none => (resetWal disk, .ok ())

/-- `Checkpoint`. -/
def checkpointWith (store : KVStore) (calls : FileCalls) : KVStore × Except String Bool :=
  if store.options.enableWal then
    match snapshotEntries store.index with
    | .error error => (store, .error error)
    | .ok entries =>
      match writeSnapshotFile store.disk (snapshotPathFromWalPath store.options.walPath) entries
          calls with
      | (disk, .error error) => ({ store with disk }, .error error)
      | (disk, .ok ()) =>
        match reset disk calls with
        | (disk, .error error) => ({ store with disk }, .error error)
        | (disk, .ok ()) => ({ store with disk }, .ok true)
  else (store, .ok false)

end KVStore

end KvStore
