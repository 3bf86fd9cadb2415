import KvStore.Native.KVStore

/-!
# Loading a snapshot from a stream

`LoadSnapshotFile` with the `std::ifstream` that it reads from. A `read` that finds fewer
bytes than asked for sets the fail state of the stream, and every `read` after it does
nothing; the state is looked at only once behind several reads. The index is filled while
the file is read, so entries may be in it when an exception leaves the function.
-/

namespace KvStore

/-- `std::ifstream`: the bytes that are left to read, and `fail()`. -/
structure IFStream where
  left : Bytes
  failed : Bool := false
  deriving DecidableEq, Repr

namespace IFStream

/-- `read` into memory that holds `bytes`. What is left of the file overwrites the front of
    the memory if it is shorter than that. -/
def read (input : IFStream) (bytes : Bytes) : Bytes × IFStream :=
  if input.failed then (bytes, input)
  else
    -- a read that comes up short sets `eofbit` and `failbit`
    (input.left.take bytes.length ++ bytes.drop input.left.length,
      { left := input.left.drop bytes.length
        failed := decide (input.left.length < bytes.length) })

end IFStream

/-- How the constructor of the stream ends: the file does not exist (`ENOENT`), cannot be
    opened for another reason, or holds these bytes. -/
inductive SnapshotOpen where
  | missing
  | refused
  | opened (file : Bytes)
  deriving DecidableEq, Repr

namespace SnapshotStream

/-- Memory that is filled with zeros. -/
def zeros (count : Nat) : Bytes := List.replicate count 0

/-- One round of the loop of `LoadSnapshotFile`, up to the call of `Put`. -/
def readEntry (snapshotPath : String) (input : IFStream) :
    Except String ((Bytes × Bytes) × IFStream) :=
  let (keyBytes, input) := input.read (zeros 4)
  let (valueBytes, input) := input.read (zeros 4)
  let keySize := leNat keyBytes
  let valueSize := leNat valueBytes
  -- the stream is looked at once for both sizes
  if input.failed then .error ("read snapshot record header failed: " ++ snapshotPath)
  else
    let (key, input) :=
      if 0 < keySize then input.read (zeros keySize) else (zeros keySize, input)
    let (value, input) :=
      if 0 < valueSize then input.read (zeros valueSize) else (zeros valueSize, input)
    if input.failed then .error ("read snapshot payload failed: " ++ snapshotPath)
    else .ok ((key, value), input)

/-- The loop of `LoadSnapshotFile`, with the number of entries that are left to read. -/
def loadEntries (snapshotPath : String) :
    Nat → IFStream → Index Bytes Bytes → Index Bytes Bytes × Except String Unit
  | 0, _, index => (index, .ok ())
  | count + 1, input, index =>
    match readEntry snapshotPath input with
    | .error error => (index, .error error)
    | .ok ((key, value), input) => loadEntries snapshotPath count input (index.put key value).2

/-- `LoadSnapshotFile`. -/
def loadSnapshotFile (snapshotPath : String) (file : SnapshotOpen) (index : Index Bytes Bytes) :
    Index Bytes Bytes × Except String Unit :=
  match file with
  | .missing => (index, .ok ())
  | .refused => (index, .error ("open snapshot for read failed: " ++ snapshotPath))
  | .opened file =>
    let (header, input) := IFStream.read { left := file } (zeros 16)
    if input.failed then (index, .error ("read snapshot header failed: " ++ snapshotPath))
    else if leNat (header.take 4) ≠ KVStore.snapshotMagic.toNat ∨
        leNat ((header.drop 4).take 4) ≠ KVStore.snapshotVersion.toNat then
      (index, .error ("invalid snapshot header: " ++ snapshotPath))
    else loadEntries snapshotPath (leNat ((header.drop 8).take 8)) input index

end SnapshotStream

end KvStore
