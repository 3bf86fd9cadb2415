import KvStore.Native.KVStore
import KvStore.Spec.WALCorrect

/-!
# Opening a store

`Disk.Stores disk base log` says what the files of a store hold: a snapshot of the map
`base` and a log with the entries `log`. The constructor accepts such files and recovers
the map that the updates of the log make of `base` (`construct_eq`).
-/

namespace KvStore

/-- A pair whose sizes fit 32 bits. -/
structure FitsPair (entry : Bytes × Bytes) : Prop where
  key : entry.1.length < 2 ^ 32
  value : entry.2.length < 2 ^ 32

/-- The update that `applyRecord` makes. -/
def LogRecord.update (record : LogRecord) : Update Bytes Bytes :=
  match record.type with
  | .put => .put record.key record.value
  | .delete => .delete record.key

/-- The updates of the entries of a log. -/
def updates (log : WAL.Log) : List (Update Bytes Bytes) :=
  log.map fun entry => entry.1.update

@[simp] theorem updates_append (log log' : WAL.Log) :
    updates (log ++ log') = updates log ++ updates log' :=
  List.map_append

namespace KVStore

@[simp] theorem update_record (u : Update Bytes Bytes) : (record u).update = u := by
  cases u <;> rfl

/-! ## Snapshot files -/

/-- Reading a string that is there. -/
private theorem read_append {bytes : Bytes} {length : Nat} (h : bytes.length = length)
    (rest : Bytes) : read length (bytes ++ rest) = some (bytes, rest) := by
  subst h
  simp [read]

/-- An entry is read back from its bytes. -/
theorem readEntry_eq (snapshotPath : String) {entry : Bytes × Bytes} (hfits : FitsPair entry)
    (rest : Bytes) :
    readEntry snapshotPath (entryBytes entry ++ rest) = .ok (entry, rest) := by
  have hkey : leNat (leBytes 4 entry.1.length) = entry.1.length := by
    rw [leNat_leBytes]
    exact Nat.mod_eq_of_lt hfits.key
  have hvalue : leNat (leBytes 4 entry.2.length) = entry.2.length := by
    rw [leNat_leBytes]
    exact Nat.mod_eq_of_lt hfits.value
  unfold readEntry entryBytes
  simp only [List.append_assoc, read_append (length_leBytes _ _), read_append rfl, hkey, hvalue,
    Option.bind_eq_bind, Option.bind_some]

/-- The loop of `LoadSnapshotFile` puts the entries one after another. -/
theorem loadEntries_eq (snapshotPath : String) {entries : List (Bytes × Bytes)}
    (hfits : ∀ entry ∈ entries, FitsPair entry) (rest : Bytes) (index : Index Bytes Bytes) :
    ∃ index', loadEntries snapshotPath entries.length (entries.flatMap entryBytes ++ rest)
        index = .ok index' ∧
      index'.get = Update.applyAll index.get (entries.map fun e => .put e.1 e.2) := by
  induction entries generalizing index with
  | nil => exact ⟨index, rfl, rfl⟩
  | cons entry entries ih =>
    obtain ⟨index', hload, hget⟩ := ih (fun e he => hfits e (List.mem_cons_of_mem entry he))
      (index.put entry.1 entry.2).2
    refine ⟨index', ?_, ?_⟩
    · rw [List.flatMap_cons, List.append_assoc, List.length_cons, loadEntries,
        readEntry_eq snapshotPath (hfits entry List.mem_cons_self)]
      exact hload
    · rw [hget, Index.get_put]
      rfl

/-- The header can tell how many entries a vector holds. -/
theorem lt_of_le_maxEntries {count : Nat} (h : count ≤ maxEntries) : count < 2 ^ 64 := by
  unfold maxEntries at h
  omega

/-- A snapshot file is accepted, and its entries are put into the index. -/
theorem loadSnapshotFile_eq (snapshotPath : String) {entries : List (Bytes × Bytes)}
    (hfits : ∀ entry ∈ entries, FitsPair entry) (hcount : entries.length < 2 ^ 64)
    (index : Index Bytes Bytes) :
    ∃ index', loadSnapshotFile snapshotPath (some (snapshotBytes entries)) index =
        .ok index' ∧
      index'.get = Update.applyAll index.get (entries.map fun e => .put e.1 e.2) := by
  obtain ⟨index', hload, hget⟩ := loadEntries_eq snapshotPath hfits [] index
  rw [List.append_nil] at hload
  refine ⟨index', ?_, hget⟩
  have hlength : (snapshotHeaderBytes entries.length).length = 16 := by
    simp [snapshotHeaderBytes]
  -- the fields of the header, cut out where the source reads them
  have hmagic : leNat ((snapshotHeaderBytes entries.length).take 4) = snapshotMagic.toNat := by
    simp [snapshotHeaderBytes, snapshotMagic]
  have hversion : leNat (((snapshotHeaderBytes entries.length).drop 4).take 4) =
      snapshotVersion.toNat := by
    simp [snapshotHeaderBytes, snapshotVersion]
  have hentries : leNat (((snapshotHeaderBytes entries.length).drop 8).take 8) =
      entries.length := by
    simp [snapshotHeaderBytes, List.drop_append, List.drop_eq_nil_of_le, List.take_of_length_le]
    omega
  unfold loadSnapshotFile snapshotBytes
  simp only [read_append hlength, hmagic, hversion, hentries, ne_eq, not_true_eq_false, or_self,
    if_false, hload]

/-! ## Whole disks -/

/-- The snapshot file holds the map `base`; without a file, it is empty. -/
def SnapshotHolds (snapshot : Option Bytes) (base : Bytes → Option Bytes) : Prop :=
  match snapshot with
  | none => base = fun _ => none
  | some file => ∃ entries, file = snapshotBytes entries ∧ ListsMap base (fun _ => True) entries ∧
      (∀ entry ∈ entries, FitsPair entry) ∧ entries.length ≤ maxEntries

/-- What the files of a store hold: a snapshot of `base`, and the entries `log` behind it. -/
structure Stores (disk : Disk) (base : Bytes → Option Bytes) (log : WAL.Log) : Prop where
  snapshot : SnapshotHolds disk.snapshot base
  wal : disk.wal = WAL.logBytes log
  fits : ∀ entry ∈ log, WAL.Fits entry.1

/-- The map that the files hold. -/
def recovered (base : Bytes → Option Bytes) (log : WAL.Log) : Bytes → Option Bytes :=
  Update.applyAll base (updates log)

/-- The callback of the constructor makes the update of the record. -/
theorem get_applyRecord (index : Index Bytes Bytes) (record : LogRecord) :
    (applyRecord index record).get = record.update.apply index.get := by
  unfold applyRecord LogRecord.update
  cases record.type with
  | put => exact index.get_put record.key record.value
  | delete => exact index.get_delete record.key

/-- The callback makes the updates of a log one after another. -/
theorem get_foldl_applyRecord (log : WAL.Log) (index : Index Bytes Bytes) :
    ((log.map Prod.fst).foldl applyRecord index).get = recovered index.get log := by
  induction log generalizing index with
  | nil => rfl
  | cons entry log ih =>
    rw [List.map_cons, List.foldl_cons, ih, get_applyRecord]
    rfl

/-- `LoadSnapshotFile` loads the map of a snapshot file into a new index. -/
theorem SnapshotHolds.load {snapshot : Option Bytes} {base : Bytes → Option Bytes}
    (h : SnapshotHolds snapshot base) (snapshotPath : String) (coins : Nat → Nat → Bool) :
    ∃ index, loadSnapshotFile snapshotPath snapshot (Index.new coins) = .ok index ∧
      index.get = base := by
  cases snapshot with
  | none => exact ⟨Index.new coins, rfl, (Index.get_new coins).trans h.symm⟩
  | some file =>
    obtain ⟨entries, rfl, hlists, hfits, hcount⟩ := h
    obtain ⟨index, hload, hget⟩ :=
      loadSnapshotFile_eq snapshotPath hfits (lt_of_le_maxEntries hcount) (Index.new coins)
    rw [Index.get_new, hlists.applyAll_puts] at hget
    exact ⟨index, hload, hget⟩

/-- The constructor accepts the files of a store, even if a torn record follows the log,
    and recovers the map that they hold. -/
theorem construct_torn {disk : Disk} {base : Bytes → Option Bytes} {log rest : WAL.Log}
    {torn : Bytes} (hsnapshot : SnapshotHolds disk.snapshot base)
    (hwal : disk.wal = WAL.logBytes log ++ torn)
    (hfits : ∀ entry ∈ log ++ rest, WAL.Fits entry.1) (htorn : Torn WAL.encodeEntry rest torn)
    {options : EngineOptions} (henabled : options.enableWal = true)
    (coins : Nat → Nat → Bool) :
    ∃ index, construct options coins disk = .ok { options, index, disk } ∧
      index.get = recovered base log := by
  obtain ⟨index, hload, hget⟩ :=
    hsnapshot.load (snapshotPathFromWalPath options.walPath) coins
  have hreplay := WAL.replay_torn applyRecord index hfits htorn
  rw [← hwal] at hreplay
  refine ⟨_, ?_, (get_foldl_applyRecord log index).trans (congrArg (recovered · log) hget)⟩
  simp only [construct, henabled, if_true, hload, hreplay]

/-- The constructor accepts the files of a store, and recovers the map that they hold. -/
theorem construct_eq {disk : Disk} {base : Bytes → Option Bytes} {log : WAL.Log}
    (h : Stores disk base log) {options : EngineOptions}
    (henabled : options.enableWal = true) (coins : Nat → Nat → Bool) :
    ∃ index, construct options coins disk = .ok { options, index, disk } ∧
      index.get = recovered base log :=
  construct_torn h.snapshot (h.wal.trans (List.append_nil _).symm) (by simpa using h.fits)
    (show Torn WAL.encodeEntry [] [] from rfl) henabled coins

/-- The empty directory. -/
theorem stores_empty : Stores {} (fun _ => none) [] := ⟨rfl, rfl, by simp⟩

/-- A store that is constructed in the empty directory. -/
theorem construct_empty (coins : Nat → Nat → Bool) :
    construct {} coins {} = .ok { index := Index.new coins, disk := {} } := by
  have hempty : WAL.readRecord [] = .tail 0 := by decide
  simp [construct, loadSnapshotFile, WAL.replay, WAL.replayLoop_of_tail _ _ _ hempty]

/-! ## What the steps do to the files -/

section Steps

variable {disk : Disk} {base : Bytes → Option Bytes} {log : WAL.Log}

/-- Appending a record. -/
theorem Stores.append (h : Stores disk base log) (entry : LogRecord × Padding)
    (hfits : WAL.Fits entry.1) :
    Stores { disk with wal := disk.wal ++ WAL.encodeEntry entry } base (log ++ [entry]) where
  snapshot := h.snapshot
  wal := by
    rw [h.wal, WAL.logBytes_append]
    simp [WAL.logBytes]
  fits e he := by
    rcases List.mem_append.mp he with he | he
    · exact h.fits e he
    · rw [List.mem_singleton.mp he]
      exact hfits

/-- A record that is appended without an error is whole. -/
theorem appendRecord_eq {store store' : KVStore} {padding : Padding}
    {update : Update Bytes Bytes} {writes : List WAL.WriteOutcome} {fsync : Option String}
    (henabled : store.options.enableWal = true)
    (h : store.appendRecord padding update writes fsync = (store', .ok ())) :
    store' = { store with disk :=
      { store.disk with wal := store.disk.wal ++ WAL.encode padding (record update) } } := by
  obtain ⟨hfile, hok⟩ := WAL.append_eq store.disk.wal padding (record update) writes fsync
  unfold appendRecord at h
  rw [if_pos henabled] at h
  simp only [Prod.mk.injEq] at h
  obtain ⟨rfl, hresult⟩ := h
  rw [hfile, (hok.mp hresult).1, List.take_length]

/-- What an appended record adds to the recovered map. -/
theorem recovered_append (base : Bytes → Option Bytes) (log : WAL.Log)
    (update : Update Bytes Bytes) (padding : Padding) :
    recovered base (log ++ [(record update, padding)]) =
      update.apply (recovered base log) := by
  unfold recovered
  rw [updates_append, Update.applyAll_append]
  simp [updates]

/-- The temporary file plays no part. -/
theorem Stores.writeTmp (h : Stores disk base log) (entries : List (Bytes × Bytes))
    (written : Nat) : Stores (writeTmp disk entries written) base log :=
  ⟨h.snapshot, h.wal, h.fits⟩

/-- A whole temporary file replaces the snapshot. -/
theorem Stores.renameTmp (h : Stores disk base log) {entries : List (Bytes × Bytes)}
    {m : Bytes → Option Bytes} (hlists : ListsMap m (fun _ => True) entries)
    (hfits : ∀ entry ∈ entries, FitsPair entry) (hcount : entries.length ≤ maxEntries)
    (htmp : disk.tmp = some (snapshotBytes entries)) : Stores (renameTmp disk) m log where
  snapshot := by
    show SnapshotHolds disk.tmp m
    rw [htmp]
    exact ⟨entries, rfl, hlists, hfits, hcount⟩
  wal := h.wal
  fits := h.fits

/-- Truncating the log. -/
theorem Stores.resetWal (h : Stores disk base log) : Stores (resetWal disk) base [] where
  snapshot := h.snapshot
  wal := rfl
  fits := by simp

end Steps

end KVStore

end KvStore
