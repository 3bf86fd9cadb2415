import KvStore.ForStd.Bytes

/-!
# Write-ahead log

Model of `src/WAL.cpp`. A file is the string of its bytes. `RecordHeader` has the layout
that the compilers of the supported platforms give it: twenty bytes, little-endian, with
three padding bytes after `type` whose contents are not specified.

The reads of `Replay` succeed, so `ReadAll` returns as many bytes as are left. The writes
of `Append` and the call of `fsync` may fail; their outcomes are arguments.
-/

namespace KvStore

/-- `RecordType`. -/
inductive RecordType where
  | put
  | delete
  deriving DecidableEq, Repr

/-- The value of a `RecordType`. -/
def RecordType.toByte : RecordType → UInt8
  | .put => 1
  | .delete => 2

/-- The `RecordType` with a value. -/
def RecordType.ofByte? (byte : UInt8) : Option RecordType :=
  if byte = 1 then some .put else if byte = 2 then some .delete else none

/-- `LogRecord`. -/
structure LogRecord where
  type : RecordType := .put
  key : Bytes
  value : Bytes
  deriving DecidableEq, Repr

/-- `ReplayStats`. -/
structure ReplayStats where
  appliedRecords : Nat := 0
  skippedTailBytes : Nat := 0
  deriving DecidableEq, Repr

/-- `RecordHeader`, without its padding. -/
structure RecordHeader where
  magic : UInt32
  type : UInt8
  keySize : UInt32
  valueSize : UInt32
  checksum : UInt32
  deriving DecidableEq, Repr

/-- The contents of the three padding bytes of a `RecordHeader`. -/
structure Padding where
  first : UInt8 := 0
  second : UInt8 := 0
  third : UInt8 := 0
  deriving DecidableEq, Repr

namespace WAL

/-- `kRecordMagic`. -/
def recordMagic : UInt32 := 0x4b56574c

/-- `sizeof(RecordHeader)`. -/
def headerSize : Nat := 20

/-! ## Encoding -/

/-- The lambda `update` of `ComputeChecksum`. -/
def updateChecksum (hash : UInt32) (data : Bytes) : UInt32 :=
  data.foldl (fun hash byte => (hash ^^^ byte.toUInt32) * 16777619) hash

/-- `ComputeChecksum`. -/
def computeChecksum (record : LogRecord) : UInt32 :=
  let hash := updateChecksum 2166136261 [record.type.toByte]
  let hash := updateChecksum hash (leBytes 4 record.key.length)
  let hash := updateChecksum hash (leBytes 4 record.value.length)
  let hash := updateChecksum hash record.key
  updateChecksum hash record.value

/-- The header that `Append` builds. The sizes are cast to 32 bits. -/
def header (record : LogRecord) : RecordHeader where
  magic := recordMagic
  type := record.type.toByte
  keySize := UInt32.ofNat record.key.length
  valueSize := UInt32.ofNat record.value.length
  checksum := computeChecksum record

/-- The bytes of a header in memory. -/
def headerBytes (padding : Padding) (header : RecordHeader) : Bytes :=
  leBytes 4 header.magic.toNat ++
    (header.type :: padding.first :: padding.second :: padding.third ::
      (leBytes 4 header.keySize.toNat ++ leBytes 4 header.valueSize.toNat ++
        leBytes 4 header.checksum.toNat))

/-- The header with these bytes in memory. -/
def headerOfBytes (bytes : Bytes) : RecordHeader where
  magic := UInt32.ofNat (leNat (bytes.take 4))
  type := (bytes.drop 4).headD 0
  keySize := UInt32.ofNat (leNat ((bytes.drop 8).take 4))
  valueSize := UInt32.ofNat (leNat ((bytes.drop 12).take 4))
  checksum := UInt32.ofNat (leNat ((bytes.drop 16).take 4))

/-- The buffer that `Append` fills: header, key, value. -/
def encode (padding : Padding) (record : LogRecord) : Bytes :=
  headerBytes padding (header record) ++ record.key ++ record.value

/-! ## Appending -/

/-- The outcome of a system call that writes: it takes some of the bytes, is interrupted
    (`EINTR`), or fails with an error text. -/
inductive WriteOutcome where
  | wrote (count : Nat)
  | interrupted
  | failed (error : String)
  deriving DecidableEq, Repr

/-- `WriteAll`, given the outcomes of its first calls of `::write`; the calls after them
    write all that is left. Returns the bytes that reached the file. -/
def writeAll : List WriteOutcome → Bytes → Bytes × Except String Unit
  | _, [] => ([], .ok ())
  | [], data => (data, .ok ())
  | .wrote count :: outcomes, data =>
    let (written, result) := writeAll outcomes (data.drop count)
    (data.take count ++ written, result)
  | .interrupted :: outcomes, data => writeAll outcomes data
  | .failed error :: _, _ => ([], .error ("write failed: " ++ error))

/-- `Sync`, given the outcome of `fsync`. -/
def sync : Option String → Except String Unit
  | none => .ok ()
  | some error => .error ("fsync failed: " ++ error)

/-- `AppendPut` and `AppendDelete` with `sync_interval_ms = 0`: write the record at the
    end of the file, then `MarkDirty` synchronises it. -/
def append (file : Bytes) (padding : Padding) (record : LogRecord)
    (writes : List WriteOutcome) (fsync : Option String) : Bytes × Except String Unit :=
  let (written, result) := writeAll writes (encode padding record)
  match result with
  -- what has been written stays in the file
  | .error error => (file ++ written, .error error)
  | .ok () => (file ++ written, sync fsync)

/-! ## Replaying -/

/-- `ReadAll`: the bytes read and the bytes left to read. -/
def readAll (length : Nat) (file : Bytes) : Bytes × Bytes :=
  (file.take length, file.drop length)

/-- What one round of the loop of `Replay` finds: an incomplete record, for which it
    leaves the loop, a record that it rejects, or a record and the bytes after it. -/
inductive ReadResult where
  | tail (skippedBytes : Nat)
  | invalid (error : String)
  | record (record : LogRecord) (rest : Bytes)
  deriving DecidableEq, Repr

/-- One round of the loop of `Replay`, up to the call of `apply`. -/
def readRecord (file : Bytes) : ReadResult :=
  let (bytes, file) := readAll headerSize file
  -- the log ends in the header, in the key or in the value
  if bytes.length < headerSize then .tail bytes.length
  else
    let header := headerOfBytes bytes
    if header.magic ≠ recordMagic then
      .invalid "WAL replay failed: invalid record magic"
    else
      match RecordType.ofByte? header.type with
      | none => .invalid "WAL replay failed: unknown record type"
      | some type =>
        let (key, file) := readAll header.keySize.toNat file
        if key.length < header.keySize.toNat then .tail (headerSize + key.length)
        else
          let (value, file) := readAll header.valueSize.toNat file
          if value.length < header.valueSize.toNat then
            .tail (headerSize + key.length + value.length)
          else
            let record := { type, key, value }
            if computeChecksum record ≠ header.checksum then
              .invalid "WAL replay failed: checksum mismatch"
            else .record record file

/-- Every round that finds a record makes progress. -/
theorem readRecord_rest_lt {file rest : Bytes} {record : LogRecord}
    (h : readRecord file = .record record rest) : rest.length < file.length := by
  unfold readRecord readAll headerSize at h
  simp only at h
  split at h
  · cases h
  · rename_i hheader
    split at h
    · cases h
    · split at h
      · cases h
      · split at h
        · cases h
        · split at h
          · cases h
          · split at h
            · cases h
            · cases h
              simp only [List.length_take, List.length_drop] at hheader ⊢
              omega

/-- `Replay`: the loop, with what `apply` has done to its state so far. -/
def replayLoop {σ : Type} (apply : σ → LogRecord → σ) (state : σ) (stats : ReplayStats)
    (file : Bytes) : σ × Except String ReplayStats :=
  match h : readRecord file with
  | .tail skipped =>
    (state, .ok { stats with skippedTailBytes := stats.skippedTailBytes + skipped })
  | .invalid error => (state, .error error)
  | .record record rest =>
    have := readRecord_rest_lt h
    replayLoop apply (apply state record)
      { stats with appliedRecords := stats.appliedRecords + 1 } rest
termination_by file.length

/-- `Replay`. -/
def replay {σ : Type} (apply : σ → LogRecord → σ) (state : σ) (file : Bytes) :
    σ × Except String ReplayStats :=
  replayLoop apply state {} file

/-- `Replay`, with a callback that collects the records it is called on. -/
def replayRecords (file : Bytes) : List LogRecord × Except String ReplayStats :=
  replay (fun records record => records ++ [record]) [] file

end WAL

end KvStore
