import KvStore.Spec.CheckpointFailure
import KvStore.Spec.CommandExecution
import KvStore.Spec.KVStoreFailure

/-!
# Records of any size

`Append`, `ComputeChecksum` and `WriteSnapshotFile` cast the sizes of keys and values to 32
bits, but write the bytes themselves in full. `sizes_kept_iff` says when what is written is
read back: exactly if the sizes fit, and no bytes of a snapshot are lost in `close`.
`long_key_not_kept` is a `Put` that returns and whose record cannot be read back.
-/

namespace KvStore.KVStore

/-- All calls return normally. -/
def Returns (store : KVStore) : List WriteCall → Prop
  | [] => True
  | call :: calls => ∃ store' changed,
      store.write call.padding call.update call.writes call.fsync = (store', .ok changed) ∧
        store'.Returns calls

/-- The entry of the log that a call writes. -/
def WriteCall.entry (call : WriteCall) : LogRecord × Padding := (record call.update, call.padding)

/-- What is written by calls, and by a `Checkpoint` after them, is read back. -/
structure SizesKept (store : KVStore) (log : WAL.Log) (calls : List WriteCall)
    (files : FileCalls) : Prop where
  /-- The size fields hold the sizes. -/
  sizes : ∀ call ∈ calls,
    (WAL.header (record call.update)).keySize.toNat = (record call.update).key.length ∧
      (WAL.header (record call.update)).valueSize.toNat = (record call.update).value.length
  /-- `Replay` applies the records that were in the log, and those of the calls. -/
  replayed : WAL.Recovers (store.runWrites calls).1.disk.wal
    (log.map Prod.fst ++ calls.map fun call => record call.update)
  /-- If a `Checkpoint` returns `true`, `LoadSnapshotFile` loads the entries of the index, and
      nothing is left in the log. -/
  loaded : ∀ store', (store.runWrites calls).1.checkpointWith files = (store', .ok true) →
    WAL.Recovers store'.disk.wal [] ∧
      ∀ coins, ∃ index, loadSnapshotFile (snapshotPathFromWalPath store.options.walPath)
          store'.disk.snapshot (Index.new coins) = .ok index ∧
        index.snapshot = (store.runWrites calls).1.index.snapshot

/-- No call on a file makes a `Checkpoint` of these entries throw. -/
structure Completes (entries : List (Bytes × Bytes)) (files : FileCalls) : Prop where
  opened : files.opened = true
  flushes : ∀ flush ∈ files.flushes.take (snapshotChunks entries).length, flush.fails = false
  rename : files.rename = none
  fsync : files.fsync = none
  truncate : files.truncate = none

/-- A `Checkpoint` that does not throw loses no bytes in `close`. -/
def NothingLost (store : KVStore) (files : FileCalls) : Prop :=
  ∀ entries, snapshotEntries store.index = .ok entries → Completes entries files →
    ClosesWhole entries files

/-! ## Calls -/

/-- What calls that return leave. -/
theorem runWrites_of_returns {store : KVStore} (henabled : store.options.enableWal = true)
    {calls : List WriteCall} (h : store.Returns calls) :
    (store.runWrites calls).1.options = store.options ∧
      (store.runWrites calls).1.disk = { store.disk with
        wal := store.disk.wal ++ WAL.logBytes (calls.map WriteCall.entry) } ∧
      (store.runWrites calls).1.get = Update.applyAll store.get (calls.map WriteCall.update) := by
  induction calls generalizing store with
  | nil => exact ⟨rfl, by simp [runWrites, WAL.logBytes], rfl⟩
  | cons call calls ih =>
    obtain ⟨store', changed, hwrite, hcalls⟩ := h
    rcases write_cases henabled call with ⟨-, -, changed', heq⟩ | ⟨-, error, heq⟩
    · obtain ⟨hstore', -⟩ := Prod.mk.inj (hwrite.symm.trans heq)
      have henabled' : store'.options.enableWal = true := by
        rw [hstore']
        exact henabled
      obtain ⟨hoptions, hdisk, hget⟩ := ih henabled' hcalls
      rw [runWrites]
      simp only [hwrite]
      rw [hoptions, hdisk, hget, hstore']
      refine ⟨rfl, ?_, ?_⟩
      · simp [WAL.logBytes, WAL.encodeEntry, WriteCall.bytes, WriteCall.entry]
      · have hupdate := store.index.get_update call.update
        exact congrArg (Update.applyAll · _) hupdate
    · -- the other case is a call that fails
      cases hwrite.symm.trans heq

/-- A `Checkpoint` returns `true` if no call throws. The snapshot file holds what the stream
    has written out by then, and the log is empty. -/
theorem checkpointWith_eq_ok_iff {store store' : KVStore} {files : FileCalls}
    (henabled : store.options.enableWal = true) :
    store.checkpointWith files = (store', .ok true) ↔
      ∃ entries, snapshotEntries store.index = .ok entries ∧ Completes entries files ∧
        store' = { store with disk :=
          { snapshot := some ((snapshotStream entries files).close files.closing).file } } := by
  constructor
  · intro h
    unfold checkpointWith at h
    rw [if_pos henabled] at h
    split at h
    · cases h
    rename_i entries hentries
    split at h
    · cases h
    rename_i disk hwrite
    split at h
    · cases h
    rename_i disk' hreset
    obtain ⟨rfl, -⟩ := Prod.mk.inj h
    -- the calls of `Reset`
    unfold reset WAL.sync at hreset
    cases hfsync : files.fsync with
    | some error => simp [hfsync] at hreset
    | none =>
      cases htruncate : files.truncate with
      | some error => simp [hfsync, htruncate] at hreset
      | none =>
        simp only [hfsync, htruncate, Prod.mk.injEq, and_true] at hreset
        subst hreset
        -- the calls of `WriteSnapshotFile`
        unfold writeSnapshotFile at hwrite
        simp only at hwrite
        split at hwrite
        · rename_i hopened
          split at hwrite
          · rename_i hgood
            split at hwrite
            · rename_i hrename
              obtain ⟨rfl, -⟩ := Prod.mk.inj hwrite
              exact ⟨entries, hentries,
                ⟨hopened, (OFStream.writeAll_cases hgood).2.1, hrename, hfsync, htruncate⟩, rfl⟩
            · cases hwrite
          · cases hwrite
        · cases hwrite
  · -- all calls have succeeded, so each step of the code goes on
    intro ⟨entries, hentries, hcompletes, hstore'⟩
    have hgood : (snapshotStream entries files).good = true :=
      OFStream.good_writeAll rfl hcompletes.flushes
    simp only [checkpointWith, henabled, if_true, hentries, writeSnapshotFile, hcompletes.opened,
      hgood, hcompletes.rename, reset, WAL.sync, hcompletes.fsync, hcompletes.truncate, hstore']
    rfl

/-! ## Reading back -/

/-- The records that `Replay` applies fit their headers. -/
theorem fits_of_recovers {wal : Bytes} {front : List LogRecord} {calls : List WriteCall}
    (h : WAL.Recovers wal (front ++ calls.map fun call => record call.update)) :
    ∀ call ∈ calls, WAL.Fits (record call.update) := by
  intro call hcall
  obtain ⟨log, rest, -, hmap, hfits⟩ := h.exists_log
  have hmem : record call.update ∈ log.map Prod.fst := by
    rw [hmap]
    exact List.mem_append_right _ (List.mem_map_of_mem hcall)
  obtain ⟨entry, hentry, heq⟩ := List.mem_map.mp hmem
  rw [← heq]
  exact hfits entry hentry

section

variable {store : KVStore} {base : Bytes → Option Bytes} {log : WAL.Log} {calls : List WriteCall}

/-- What the files hold after calls whose records fit. -/
theorem Stores.runWrites (henabled : store.options.enableWal = true)
    (hstores : Stores store.disk base log) (hget : store.get = recovered base log)
    (hreturns : store.Returns calls) (hfits : ∀ call ∈ calls, WAL.Fits (record call.update)) :
    Stores (store.runWrites calls).1.disk base (log ++ calls.map WriteCall.entry) ∧
      (store.runWrites calls).1.get = recovered base (log ++ calls.map WriteCall.entry) := by
  obtain ⟨-, hdisk, hafter⟩ := runWrites_of_returns henabled hreturns
  refine ⟨⟨?_, ?_, ?_⟩, ?_⟩
  · rw [hdisk]
    exact hstores.snapshot
  · rw [hdisk, WAL.logBytes_append, ← hstores.wal]
  · intro entry hentry
    rcases List.mem_append.mp hentry with hentry | hentry
    · exact hstores.fits entry hentry
    · obtain ⟨call, hcall, rfl⟩ := List.mem_map.mp hentry
      exact hfits call hcall
  · rw [hafter, hget, recovered, recovered, updates_append, Update.applyAll_append]
    congr 1
    simp [updates, WriteCall.entry, Function.comp_def]

/-- The entries of the index after calls whose records fit can be loaded. -/
theorem fitsPair_of_runWrites (henabled : store.options.enableWal = true)
    (hstores : Stores store.disk base log) (hget : store.get = recovered base log)
    (hreturns : store.Returns calls) (hfits : ∀ call ∈ calls, WAL.Fits (record call.update))
    {entries : List (Bytes × Bytes)}
    (hlists : ListsMap (store.runWrites calls).1.get (fun _ => True) entries) :
    ∀ entry ∈ entries, FitsPair entry := by
  intro entry hentry
  obtain ⟨hstores', hget'⟩ := hstores.runWrites henabled hget hreturns hfits
  -- what the index holds could be constructed from the files
  obtain ⟨index, hconstruct, hindex⟩ := construct_eq hstores' henabled fun _ _ => false
  refine fitsPair_of_construct henabled hconstruct ?_
  show index.get entry.1 = some entry.2
  rw [hindex, ← hget']
  exact ((hlists.mem_iff entry.1 entry.2).mp hentry).1

/-- What is written is read back exactly if the sizes fit 32 bits and no bytes are lost in
    `close`. -/
theorem sizes_kept_iff {files : FileCalls} (henabled : store.options.enableWal = true)
    (hstores : Stores store.disk base log) (hget : store.get = recovered base log)
    (hreturns : store.Returns calls) :
    SizesKept store log calls files ↔
      (∀ call ∈ calls, WAL.Fits (record call.update)) ∧
        NothingLost (store.runWrites calls).1 files := by
  obtain ⟨hoptions, -, -⟩ := runWrites_of_returns henabled hreturns
  have henabled' : (store.runWrites calls).1.options.enableWal = true := hoptions ▸ henabled
  constructor
  · intro h
    have hfits := fits_of_recovers h.replayed
    refine ⟨hfits, fun entries hentries hcompletes => ?_⟩
    obtain ⟨-, hlists, hcount⟩ := snapshotEntries_cases hentries
    have hpairs := fitsPair_of_runWrites henabled hstores hget hreturns hfits hlists
    obtain ⟨-, hload⟩ := h.loaded _
      ((checkpointWith_eq_ok_iff henabled').mpr ⟨entries, hentries, hcompletes, rfl⟩)
    obtain ⟨index, hindex, -⟩ := hload fun _ _ => false
    have hgood : (snapshotStream entries files).good = true :=
      OFStream.good_writeAll rfl hcompletes.flushes
    obtain ⟨hpre, hwhole⟩ := (snapshotStream entries files).close_file files.closing
    rw [snapshotStream_bytes hgood] at hpre hwhole
    -- a file that lacks bytes would not be loaded
    refine hwhole.mp (hpre.eq_of_length ?_)
    by_contra hne
    have hlt := Nat.lt_of_le_of_ne hpre.length_le hne
    obtain ⟨error, htorn⟩ := loadSnapshotFile_torn
      (snapshotPathFromWalPath store.options.walPath) hpairs (lt_of_le_maxEntries hcount) hpre hlt
      (Index.new fun _ _ => false)
    cases htorn.symm.trans hindex
  · intro ⟨hfits, hlost⟩
    obtain ⟨hstores', -⟩ := hstores.runWrites henabled hget hreturns hfits
    refine ⟨fun call hcall => ?_, ?_, fun store' hcheckpoint => ?_⟩
    · -- the sizes in the headers
      obtain ⟨hkey, hvalue⟩ := hfits call hcall
      exact ⟨UInt32.toNat_ofNat_of_lt' hkey, UInt32.toNat_ofNat_of_lt' hvalue⟩
    · -- the records in the log
      have hrecovers := WAL.recovers_logBytes hstores'.fits
      rw [← hstores'.wal, List.map_append, List.map_map] at hrecovers
      exact hrecovers
    · -- the entries in the snapshot, and a log that is empty
      obtain ⟨entries, hentries, hcompletes, rfl⟩ :=
        (checkpointWith_eq_ok_iff henabled').mp hcheckpoint
      obtain ⟨-, hlists, hcount⟩ := snapshotEntries_cases hentries
      have hpairs := fitsPair_of_runWrites henabled hstores hget hreturns hfits hlists
      have hgood : (snapshotStream entries files).good = true :=
        OFStream.good_writeAll rfl hcompletes.flushes
      have hwhole := ((snapshotStream entries files).close_file files.closing).2
      rw [snapshotStream_bytes hgood] at hwhole
      have hholds : SnapshotHolds
          (some ((snapshotStream entries files).close files.closing).file)
          (store.runWrites calls).1.get :=
        ⟨entries, hwhole.mpr (hlost entries hentries hcompletes), hlists, hpairs, hcount⟩
      have hempty : WAL.Recovers [] [] := @WAL.recovers_logBytes [] (by simp)
      refine ⟨hempty, fun coins => ?_⟩
      obtain ⟨index, hload, hindex⟩ :=
        hholds.load (snapshotPathFromWalPath store.options.walPath) coins
      have hlists' := index.lists_snapshot
      rw [hindex] at hlists'
      exact ⟨index, hload, hlists'.unique (store.runWrites calls).1.index.lists_snapshot⟩

end

/-- A `Put` and a `Delete` in an empty directory. -/
theorem sizes_kept_two :
    SizesKept fresh [] [{ update := .put [97] [98] }, { update := .delete [97] }] {} := by
  have hreturns : fresh.Returns [{ update := .put [97] [98] }, { update := .delete [97] }] :=
    ⟨_, _, rfl, _, _, rfl, trivial⟩
  have hget : fresh.get = recovered (fun _ => none) [] := Index.get_new _
  have hlost : ∀ store : KVStore, store.NothingLost {} :=
    fun store entries _ _ hfails => absurd hfails (by simp)
  refine (sizes_kept_iff rfl stores_empty hget hreturns).mpr ⟨fun call hcall => ?_, hlost _⟩
  rcases List.mem_pair.mp hcall with rfl | rfl
  · exact ⟨by decide, by decide⟩
  · exact ⟨by decide, by decide⟩

/-- A key of 2^32 bytes. -/
def longKey : Bytes := List.replicate (2 ^ 32) 97

/-- A `Put` with this key. -/
def putLongKey : WriteCall := { update := .put longKey [98] }

/-- The `Put` returns, but the size in its header is zero, and `Replay` does not apply its
    record. -/
theorem long_key_not_kept :
    fresh.Returns [putLongKey] ∧
      (WAL.header (record putLongKey.update)).keySize = 0 ∧
      ¬ WAL.Recovers (fresh.runWrites [putLongKey]).1.disk.wal [record putLongKey.update] ∧
      ¬ SizesKept fresh [] [putLongKey] {} := by
  have hlength : longKey.length = 2 ^ 32 := List.length_replicate
  have hlost : ¬ WAL.Recovers (fresh.runWrites [putLongKey]).1.disk.wal
      ([] ++ [putLongKey].map fun call => record call.update) := by
    intro h
    have hfits : longKey.length < 2 ^ 32 := (fits_of_recovers h _ List.mem_cons_self).key
    omega
  refine ⟨?_, ?_, hlost, fun h => hlost h.replayed⟩
  · obtain ⟨disk, hwrite⟩ := fresh.write_ok {} (.put longKey [98])
    exact ⟨_, _, hwrite, trivial⟩
  · show UInt32.ofNat longKey.length = 0
    rw [hlength]
    rfl

end KvStore.KVStore
