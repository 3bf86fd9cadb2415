import KvStore.Native.KVStore
import KvStore.ForStd.DurableFile

/-!
# A store on a disk that loses power

The steps of `Put`, `Delete` and `Checkpoint` on files whose bytes become durable when
`fsync` is called on the file, or at any moment after they have been written; a renaming or a
truncation becomes durable at any moment after it. `wal_sync_interval_ms` is zero, so that
`MarkDirty` calls `fsync`. No call on a file fails.
-/

namespace KvStore

/-- The files of a store. Until the renaming is durable, a power cut may leave one of the
    files `renamed`, which the name of the snapshot has stood for before, the oldest first. -/
structure Volume where
  wal : DurableFile UInt8
  snapshot : Option (DurableFile UInt8) := none
  renamed : List (Option (DurableFile UInt8)) := []
  tmp : Option (DurableFile UInt8) := none

namespace Volume

/-- A disk on which everything is durable. -/
def ofDisk (disk : Disk) : Volume where
  wal := .synced disk.wal
  snapshot := disk.snapshot.map .synced
  tmp := disk.tmp.map .synced

/-- What the program sees of the files. -/
def disk (v : Volume) : Disk where
  wal := v.wal.written
  snapshot := v.snapshot.map DurableFile.written
  tmp := v.tmp.map DurableFile.written

/-- The files that the name of the snapshot may stand for after a power cut. -/
def versions (v : Volume) : List (Option (DurableFile UInt8)) := v.renamed ++ [v.snapshot]

/-- What a power cut may leave under the name of a file. -/
def Survives : Option (DurableFile UInt8) → Option Bytes → Prop
  | none, file => file = none
  | some f, file => ∃ bytes, file = some bytes ∧ f.Survives bytes

/-- What a power cut may leave. -/
structure Leaves (v : Volume) (disk : Disk) : Prop where
  wal : v.wal.Survives disk.wal
  snapshot : ∃ version ∈ v.versions, Survives version disk.snapshot

end Volume

/-- Where the call in progress is. -/
inductive DurablePhase where
  | idle
  /-- `WAL::Append`, with the bytes of the record that are left to write. -/
  | appending (update : Update Bytes Bytes) (left : Bytes)
  /-- `Put` or `Delete`, between `fsync` and the index. -/
  | logged (update : Update Bytes Bytes)
  /-- `WriteSnapshotFile`, with the bytes of the file that are left to write. -/
  | writing (entries : List (Bytes × Bytes)) (left : Bytes)
  /-- `Checkpoint`, between the renaming and `Reset`. -/
  | renamed
  /-- `Reset`, between `fsync` and the truncation. -/
  | resetting

/-- A store, the call in progress, and the updates of the calls that have returned. -/
structure DurableStore where
  options : EngineOptions
  index : Index Bytes Bytes
  volume : Volume
  phase : DurablePhase := .idle
  returned : List (Update Bytes Bytes) := []

namespace DurableStore

/-- The store as its callers see it. -/
def store (s : DurableStore) : KVStore where
  options := s.options
  index := s.index
  disk := s.volume.disk

/-- The steps: those of the calls, and those in which something becomes durable by itself. -/
inductive Label where
  | append (update : Update Bytes Bytes)
  | writeLog
  | syncLog
  | apply
  | create
  | writeTmp
  | rename
  | syncReset
  | truncate
  | persistLog
  | persistSnapshot
  | persistRenamed
  | persistTmp
  | persistRename

/-- The store with other files. -/
def withVolume (s : DurableStore) (volume : Volume) (phase : DurablePhase) : DurableStore :=
  { s with volume, phase }

/-- The file that `WriteSnapshotFile` opens with `std::ios::trunc`. -/
def openTmp : Option (DurableFile UInt8) → DurableFile UInt8
  | none => .synced []
  | some f => f.truncate

/-- One step. -/
inductive Step : DurableStore → Label → DurableStore → Prop where
  /-- `Put` or `Delete` is called. -/
  | append {s : DurableStore} {update : Update Bytes Bytes} (padding : Padding)
      (hphase : s.phase = .idle) :
      Step s (.append update)
        { s with phase := .appending update (WAL.encode padding (KVStore.record update)) }
  /-- `WriteAll` writes some bytes of the record. -/
  | writeLog {s : DurableStore} {update : Update Bytes Bytes} {left : Bytes} (count : Nat)
      (hphase : s.phase = .appending update left) :
      Step s .writeLog (s.withVolume { s.volume with wal := s.volume.wal.write (left.take count) }
        (.appending update (left.drop count)))
  /-- The record has been written, and `MarkDirty` synchronises the log. -/
  | syncLog {s : DurableStore} {update : Update Bytes Bytes}
      (hphase : s.phase = .appending update []) :
      Step s .syncLog
        (s.withVolume { s.volume with wal := s.volume.wal.sync } (.logged update))
  /-- `Put` or `Delete` updates the index and returns. -/
  | apply {s : DurableStore} {update : Update Bytes Bytes} (hphase : s.phase = .logged update) :
      Step s .apply
        { s with
          index := (s.index.update update).2
          phase := .idle
          returned := s.returned ++ [update] }
  /-- `Checkpoint` takes the entries and opens the temporary file. -/
  | create {s : DurableStore} {entries : List (Bytes × Bytes)} (hphase : s.phase = .idle)
      (hentries : KVStore.snapshotEntries s.index = .ok entries) :
      Step s .create (s.withVolume { s.volume with tmp := some (openTmp s.volume.tmp) }
        (.writing entries (KVStore.snapshotBytes entries)))
  /-- Some bytes of the temporary file are written. -/
  | writeTmp {s : DurableStore} {entries : List (Bytes × Bytes)} {left : Bytes}
      {f : DurableFile UInt8} (count : Nat) (hphase : s.phase = .writing entries left)
      (htmp : s.volume.tmp = some f) :
      Step s .writeTmp (s.withVolume { s.volume with tmp := some (f.write (left.take count)) }
        (.writing entries (left.drop count)))
  /-- The temporary file has been written and is renamed. -/
  | rename {s : DurableStore} {entries : List (Bytes × Bytes)}
      (hphase : s.phase = .writing entries []) :
      Step s .rename (s.withVolume
        { s.volume with
          snapshot := s.volume.tmp
          renamed := s.volume.renamed ++ [s.volume.snapshot]
          tmp := none } .renamed)
  /-- `Reset` synchronises the log. -/
  | syncReset {s : DurableStore} (hphase : s.phase = .renamed) :
      Step s .syncReset (s.withVolume { s.volume with wal := s.volume.wal.sync } .resetting)
  /-- `Reset` opens the log with `O_TRUNC`, and `Checkpoint` returns. -/
  | truncate {s : DurableStore} (hphase : s.phase = .resetting) :
      Step s .truncate (s.withVolume { s.volume with wal := s.volume.wal.truncate } .idle)
  /-- Bytes or a truncation of the log become durable. -/
  | persistLog {s : DurableStore} {f : DurableFile UInt8}
      (hpersists : DurableFile.Persists s.volume.wal f) :
      Step s .persistLog (s.withVolume { s.volume with wal := f } s.phase)
  /-- Bytes of the snapshot file become durable. -/
  | persistSnapshot {s : DurableStore} {f g : DurableFile UInt8}
      (hsnapshot : s.volume.snapshot = some f) (hpersists : DurableFile.Persists f g) :
      Step s .persistSnapshot (s.withVolume { s.volume with snapshot := some g } s.phase)
  /-- Bytes of a snapshot file that has been replaced become durable. -/
  | persistRenamed {s : DurableStore} {f g : DurableFile UInt8}
      (front back : List (Option (DurableFile UInt8)))
      (hrenamed : s.volume.renamed = front ++ some f :: back)
      (hpersists : DurableFile.Persists f g) :
      Step s .persistRenamed
        (s.withVolume { s.volume with renamed := front ++ some g :: back } s.phase)
  /-- Bytes of the temporary file become durable. -/
  | persistTmp {s : DurableStore} {f g : DurableFile UInt8} (htmp : s.volume.tmp = some f)
      (hpersists : DurableFile.Persists f g) :
      Step s .persistTmp (s.withVolume { s.volume with tmp := some g } s.phase)
  /-- The oldest renaming that is not durable becomes so. -/
  | persistRename {s : DurableStore} :
      Step s .persistRename
        (s.withVolume { s.volume with renamed := s.volume.renamed.tail } s.phase)

end DurableStore

end KvStore
