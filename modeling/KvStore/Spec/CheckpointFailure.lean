import KvStore.Native.Checkpoint
import KvStore.Spec.Reopen

/-!
# Checkpoints whose calls on files fail

`CheckpointSafe store calls` says that a call of `Checkpoint` is all or nothing. It is so
exactly if the flush in `close` is not the one that fails, and the sizes fit
(`checkpointSafe_iff`): a failure in `close` is not noticed, the file that lacks its end
replaces the snapshot, and `Reset` discards the log. `flush_in_close_loses_put` is such a
call.
-/

namespace KvStore

/-! ## Streams -/

namespace OFStream

/-- A stream that is good after a `write` was good before, and has kept all bytes. -/
private theorem write_cases {out : OFStream} {data : Bytes} {flush : Flush}
    (h : (out.write data flush).good = true) :
    out.good = true ∧ flush.fails = false ∧
      (out.write data flush).file ++ (out.write data flush).buffer =
        out.file ++ (out.buffer ++ data) := by
  unfold write at h ⊢
  by_cases hgood : out.good = true
  · rw [if_pos hgood] at h ⊢
    refine ⟨hgood, by simpa using h, ?_⟩
    rw [List.append_assoc, List.take_append_drop]
  · rw [if_neg hgood] at h
    exact absurd h hgood

/-- A stream that is good after some calls of `write` has kept all bytes, and no flush has
    failed. -/
theorem writeAll_cases {out : OFStream} {chunks : List Bytes} {flushes : List Flush}
    (h : (out.writeAll chunks flushes).good = true) :
    out.good = true ∧ (∀ flush ∈ flushes.take chunks.length, flush.fails = false) ∧
      (out.writeAll chunks flushes).file ++ (out.writeAll chunks flushes).buffer =
        out.file ++ (out.buffer ++ chunks.flatten) := by
  induction chunks generalizing out flushes with
  | nil => exact ⟨h, by simp, by simp [writeAll]⟩
  | cons data chunks ih =>
    obtain ⟨hwrite, hflushes, hbytes⟩ := ih h
    -- the calls behind the first leave the stream good, so it was good before them
    obtain ⟨hgood, hflush, hdata⟩ := write_cases hwrite
    refine ⟨hgood, fun flush hmem => ?_, ?_⟩
    · cases flushes with
      | nil => simp at hmem
      | cons first flushes =>
        rcases List.mem_cons.mp hmem with rfl | hmem
        · exact hflush
        · exact hflushes flush hmem
    · show (OFStream.writeAll _ chunks flushes.tail).file ++
        (OFStream.writeAll _ chunks flushes.tail).buffer = _
      rw [hbytes, ← List.append_assoc, hdata]
      simp only [List.flatten_cons, List.append_assoc]

/-- If no flush fails, the stream stays good. -/
theorem good_writeAll {out : OFStream} (hgood : out.good = true) {chunks : List Bytes}
    {flushes : List Flush} (h : ∀ flush ∈ flushes.take chunks.length, flush.fails = false) :
    (out.writeAll chunks flushes).good = true := by
  induction chunks generalizing out flushes with
  | nil => exact hgood
  | cons data chunks ih =>
    have hflush : (flushes.headD {}).fails = false := by
      cases flushes with
      | nil => rfl
      | cons first flushes => exact h first List.mem_cons_self
    refine ih ?_ fun flush hmem => ?_
    · rw [write, if_pos hgood, hflush]
      rfl
    · cases flushes with
      | nil => simp at hmem
      | cons first flushes => exact h flush (List.mem_cons_of_mem first hmem)

/-- `close` writes out a beginning of what is left in the buffer. -/
theorem close_file (out : OFStream) (flush : Flush) :
    (out.close flush).file <+: out.file ++ out.buffer ∧
      ((out.close flush).file = out.file ++ out.buffer ↔
        (flush.fails = true → out.buffer.length ≤ flush.written)) := by
  unfold close
  split
  · rename_i hfails
    refine ⟨(List.prefix_append_right_inj _).mpr (List.take_prefix _ _), ?_⟩
    simp [hfails]
  · rename_i hfails
    simp [hfails]

end OFStream

namespace KVStore

/-- The pieces that are written are those of the snapshot file. -/
theorem flatten_snapshotChunks (entries : List (Bytes × Bytes)) :
    (snapshotChunks entries).flatten = snapshotBytes entries := by
  have hentries : (entries.flatMap fun entry =>
      [leBytes 4 entry.1.length, leBytes 4 entry.2.length, entry.1, entry.2]).flatten =
        entries.flatMap entryBytes := by
    induction entries with
    | nil => rfl
    | cons entry entries ih =>
      rw [List.flatMap_cons, List.flatten_append, ih, List.flatMap_cons]
      simp [entryBytes]
  rw [snapshotChunks, List.flatten_cons, hentries]
  rfl

/-- A stream that is good before `close` holds the bytes of the snapshot file. -/
theorem snapshotStream_bytes {entries : List (Bytes × Bytes)} {calls : FileCalls}
    (h : (snapshotStream entries calls).good = true) :
    (snapshotStream entries calls).file ++ (snapshotStream entries calls).buffer =
      snapshotBytes entries := by
  obtain ⟨-, -, hbytes⟩ := OFStream.writeAll_cases h
  rw [← flatten_snapshotChunks]
  exact hbytes

/-- When no call on a file fails, `Checkpoint` is `checkpoint`. -/
theorem checkpointWith_eq_checkpoint (store : KVStore) {flushes : List Flush}
    (h : ∀ flush ∈ flushes, flush.fails = false) :
    store.checkpointWith { flushes } = store.checkpoint := by
  unfold checkpointWith checkpoint
  split
  · cases snapshotEntries store.index with
    | error error => rfl
    | ok entries =>
      have hgood : (snapshotStream entries { flushes }).good = true :=
        OFStream.good_writeAll rfl fun flush hmem => h flush (List.mem_of_mem_take hmem)
      have hfile := ((snapshotStream entries { flushes }).close_file {}).2.mpr nofun
      rw [snapshotStream_bytes hgood] at hfile
      simp only [writeSnapshotFile, if_true, hgood, reset, WAL.sync, writeTmp, List.take_length,
        hfile]
  · rfl

/-! ## What a checkpoint must do -/

/-- Every store that is constructed from the files holds the map of the running one. -/
def Reopens (store : KVStore) : Prop :=
  ∀ coins, ∃ store', construct store.options coins store.disk = .ok store' ∧
    store'.get = store.get

/-- A call of `Checkpoint` is all or nothing. If it returns `true`, the snapshot file is
    complete and the files hold the map of the index. If it throws, the files hold the map of
    the index as before, and all that later calls work on is as it was. -/
def CheckpointSafe (store : KVStore) (calls : FileCalls) : Prop :=
  match store.checkpointWith calls with
  | (store', .ok true) =>
    store'.disk.snapshot = some (snapshotBytes store.index.snapshot) ∧
      store'.get = store.get ∧ Reopens store'
  | (_, .ok false) => True
  | (store', .error _) =>
    store'.options = store.options ∧ store'.index = store.index ∧
      store'.disk.wal = store.disk.wal ∧ (Reopens store → Reopens store')

/-- The flush in `close` writes out all that the others have left in the buffer. -/
def ClosesWhole (entries : List (Bytes × Bytes)) (calls : FileCalls) : Prop :=
  calls.closing.fails = true → (snapshotStream entries calls).buffer.length ≤ calls.closing.written

/-- If the temporary file is opened, no flush fails before `close`, and the file is renamed:
    the flush in `close` writes out the whole buffer; and if the log is then discarded, the
    entries fit the size fields. -/
def SafeCalls (store : KVStore) (calls : FileCalls) : Prop :=
  ∀ entries, snapshotEntries store.index = .ok entries → calls.opened = true →
    (∀ flush ∈ calls.flushes.take (snapshotChunks entries).length, flush.fails = false) →
      calls.rename = none →
        if calls.fsync = none ∧ calls.truncate = none then
          ClosesWhole entries calls ∧ ∀ entry ∈ entries, FitsPair entry
        else Reopens store → ClosesWhole entries calls

section

variable {store : KVStore} {entries : List (Bytes × Bytes)} {calls : FileCalls}

/-- The entries of a store that can be opened again fit the size fields. -/
private theorem Reopens.fitsPair (h : Reopens store) (henabled : store.options.enableWal = true)
    (hlists : ListsMap store.get (fun _ => True) entries) :
    ∀ entry ∈ entries, FitsPair entry := by
  intro entry hentry
  obtain ⟨store', hconstruct, hget⟩ := h fun _ _ => false
  refine fitsPair_of_construct henabled hconstruct ?_
  rw [hget]
  exact ((hlists.mem_iff entry.1 entry.2).mp hentry).1

/-- The files hold the map of the index when the snapshot is complete and the log has been
    discarded. -/
private theorem reopens_of_snapshot (henabled : store.options.enableWal = true)
    {disk : Disk} (hholds : SnapshotHolds disk.snapshot store.get) (hwal : disk.wal = []) :
    Reopens { store with disk } := by
  intro coins
  obtain ⟨index, hload, hget⟩ :=
    hholds.load (snapshotPathFromWalPath store.options.walPath) coins
  have hempty : WAL.readRecord [] = .tail 0 := by decide
  have hlog : disk.wal = WAL.logBytes [] ++ [] := hwal
  obtain ⟨store', hstore, hrecovered⟩ :=
    construct_of_load henabled hload hlog (by simp) hempty
  exact ⟨store', hstore, hrecovered.trans hget⟩

/-- They still hold it when the snapshot is complete and the log is still there. -/
private theorem Reopens.snapshot (h : Reopens store) (henabled : store.options.enableWal = true)
    {disk : Disk} (hholds : SnapshotHolds disk.snapshot store.get)
    (hwal : disk.wal = store.disk.wal) : Reopens { store with disk } := by
  intro coins
  obtain ⟨index, hload, hget⟩ :=
    hholds.load (snapshotPathFromWalPath store.options.walPath) coins
  obtain ⟨store', hconstruct, hget'⟩ := h coins
  obtain ⟨base, log, tail, skipped, -, hlog, hfits, htail, hbase⟩ :=
    exists_log_of_construct henabled hconstruct
  obtain ⟨store'', hstore, hrecovered⟩ :=
    construct_of_load henabled hload (hwal.trans hlog) hfits htail
  -- the log is replayed over a snapshot that already contains it
  have hreplay : recovered store.get log = store.get := by
    rw [← hget', hbase]
    exact Update.applyAll_replay base.get (updates log)
  rw [hget, hreplay] at hrecovered
  exact ⟨store'', hstore, hrecovered⟩

/-- The temporary file and the text of an error play no part for later calls. -/
private theorem Reopens.tmp (h : Reopens store) (tmp : Option Bytes) :
    Reopens { store with disk := { store.disk with tmp } } := by
  intro coins
  obtain ⟨store', hconstruct, hget⟩ := h coins
  by_cases henabled : store.options.enableWal = true
  · obtain ⟨index, log, tail, skipped, hload, hwal, hfits, htail, hbase⟩ :=
      exists_log_of_construct henabled hconstruct
    let disk : Disk := { store.disk with tmp }
    have hload' : loadSnapshotFile (snapshotPathFromWalPath store.options.walPath) disk.snapshot
        (Index.new coins) = .ok index := hload
    have hlog : disk.wal = WAL.logBytes log ++ tail := hwal
    obtain ⟨store'', hstore, hrecovered⟩ :=
      construct_of_load henabled hload' hlog hfits htail
    exact ⟨store'', hstore, hrecovered.trans (hbase.symm.trans hget)⟩
  · simp only [construct, henabled] at hconstruct ⊢
    obtain rfl := Except.ok.inj hconstruct
    exact ⟨_, rfl, hget⟩

/-- `Reset` empties the log if it can be synchronised and truncated, and otherwise leaves it
    as it is. -/
private theorem reset_cases (disk : Disk) (calls : FileCalls) :
    (¬ (calls.fsync = none ∧ calls.truncate = none) ∧
      ∃ error, reset disk calls = (disk, .error error)) ∨
    ((calls.fsync = none ∧ calls.truncate = none) ∧
      reset disk calls = (resetWal disk, .ok ())) := by
  unfold reset WAL.sync
  cases calls.fsync with
  | some error => exact .inl ⟨nofun, _, rfl⟩
  | none =>
    cases calls.truncate with
    | some error => exact .inl ⟨nofun, _, rfl⟩
    | none => exact .inr ⟨⟨rfl, rfl⟩, rfl⟩

/-- A call that throws before the renaming is safe. -/
private theorem CheckpointSafe.of_error {disk : Disk} {error : String}
    (heq : store.checkpointWith calls = ({ store with disk }, .error error))
    (hwal : disk.wal = store.disk.wal) (h : Reopens store → Reopens { store with disk }) :
    CheckpointSafe store calls := by
  unfold CheckpointSafe
  rw [heq]
  exact ⟨rfl, rfl, hwal, h⟩

/-- A store whose snapshot lacks bytes at its end cannot be opened again. -/
private theorem not_reopens_of_torn (henabled : store.options.enableWal = true)
    (hfits : ∀ entry ∈ entries, FitsPair entry) (hcount : entries.length ≤ maxEntries)
    {disk : Disk} {file : Bytes} (hsnapshot : disk.snapshot = some file)
    (hpre : file <+: snapshotBytes entries) (hne : file ≠ snapshotBytes entries) :
    ¬ Reopens { store with disk } := by
  intro h
  have hlt : file.length < (snapshotBytes entries).length := by
    rcases Nat.lt_or_eq_of_le hpre.length_le with hlt | heq
    · exact hlt
    · exact absurd (hpre.eq_of_length heq) hne
  obtain ⟨store', hconstruct, -⟩ := h fun _ _ => false
  obtain ⟨error, htorn⟩ := loadSnapshotFile_torn
    (snapshotPathFromWalPath store.options.walPath) hfits (lt_of_le_maxEntries hcount) hpre hlt
    (Index.new fun _ _ => false)
  rw [← hsnapshot] at htorn
  simp [construct, henabled, htorn] at hconstruct

/-- A call whose temporary file is renamed. -/
private theorem checkpointSafe_iff_of_renamed (henabled : store.options.enableWal = true)
    (hentries : snapshotEntries store.index = .ok entries)
    (hopened : calls.opened = true) (hgood : (snapshotStream entries calls).good = true)
    (hrename : calls.rename = none) :
    CheckpointSafe store calls ↔
      if calls.fsync = none ∧ calls.truncate = none then
        ClosesWhole entries calls ∧ ∀ entry ∈ entries, FitsPair entry
      else Reopens store → ClosesWhole entries calls := by
  obtain ⟨hsnapshot, hlists, hcount⟩ := snapshotEntries_cases hentries
  -- the files after the renaming
  let file := ((snapshotStream entries calls).close calls.closing).file
  let disk := renameTmp { store.disk with tmp := some file }
  have hwrite : writeSnapshotFile store.disk (snapshotPathFromWalPath store.options.walPath)
      entries calls = (disk, .ok ()) := by
    simp only [writeSnapshotFile, hopened, if_true, hgood, hrename, disk, file]
  obtain ⟨hpre, hwhole⟩ := (snapshotStream entries calls).close_file calls.closing
  rw [snapshotStream_bytes hgood] at hpre hwhole
  change file <+: _ at hpre
  change file = _ ↔ ClosesWhole entries calls at hwhole
  have hholds (hfile : file = snapshotBytes entries) (hfits : ∀ entry ∈ entries, FitsPair entry) :
      SnapshotHolds (some file) store.get := ⟨entries, hfile, hlists, hfits, hcount⟩
  unfold CheckpointSafe checkpointWith
  simp only [henabled, if_true, hentries, hwrite, ← hwhole]
  rcases reset_cases disk calls with ⟨hfail, error, hreset⟩ | ⟨hok, hreset⟩
  · -- `Checkpoint` throws, with the snapshot replaced and the log still there
    simp only [hreset, if_neg hfail, true_and]
    refine ⟨fun ⟨_, hsafe⟩ h => ?_, fun h => ⟨rfl, fun hstore => ?_⟩⟩
    · by_contra hne
      exact not_reopens_of_torn henabled (h.fitsPair henabled hlists) hcount rfl hpre hne (hsafe h)
    · exact hstore.snapshot henabled (hholds (h hstore) (hstore.fitsPair henabled hlists)) rfl
  · -- `Checkpoint` returns, with the snapshot replaced and the log discarded
    simp only [hreset, if_pos hok]
    refine ⟨fun ⟨hcomplete, hget, hstore⟩ => ?_, fun ⟨hfile, hfits⟩ => ⟨?_, rfl, ?_⟩⟩
    · rw [← hsnapshot] at hcomplete
      exact ⟨Option.some.inj hcomplete, hstore.fitsPair henabled hlists⟩
    · rw [← hsnapshot]
      exact congrArg some hfile
    · exact reopens_of_snapshot henabled (hholds hfile hfits) rfl

/-- A call of `Checkpoint` is all or nothing exactly if a flush that fails is not the one in
    `close` and the entries fit the size fields. -/
theorem checkpointSafe_iff (henabled : store.options.enableWal = true) :
    CheckpointSafe store calls ↔ SafeCalls store calls := by
  unfold SafeCalls
  cases hentries : snapshotEntries store.index with
  | error error =>
    -- the entries do not fit a vector, and nothing has been done
    have heq : store.checkpointWith calls = ({ store with disk := store.disk }, .error error) := by
      simp only [checkpointWith, henabled, if_true, hentries]
    exact ⟨fun _ => nofun, fun _ => .of_error heq rfl id⟩
  | ok entries =>
    have hgood_iff : (snapshotStream entries calls).good = true ↔
        ∀ flush ∈ calls.flushes.take (snapshotChunks entries).length, flush.fails = false :=
      ⟨fun hgood => (OFStream.writeAll_cases hgood).2.1, OFStream.good_writeAll rfl⟩
    simp only [Except.ok.injEq, forall_eq']
    rw [← hgood_iff]
    by_cases hopened : calls.opened = true
    · by_cases hgood : (snapshotStream entries calls).good = true
      · cases hrename : calls.rename with
        | none =>
          rw [checkpointSafe_iff_of_renamed henabled hentries hopened hgood hrename]
          simp [hopened, hgood]
        | some error =>
          -- the renaming fails, and the temporary file is removed
          have heq : store.checkpointWith calls = ({ store with disk :=
              { store.disk with tmp := none } }, .error ("rename snapshot failed: " ++ error)) := by
            simp only [checkpointWith, henabled, if_true, hentries, writeSnapshotFile, hopened,
              hgood, hrename]
          exact ⟨fun _ _ _ => nofun, fun _ => .of_error heq rfl fun h => h.tmp none⟩
      · -- a flush before `close` fails, and the temporary file is removed
        have heq : store.checkpointWith calls = ({ store with disk :=
            { store.disk with tmp := none } }, .error ("write snapshot failed: " ++
              (snapshotPathFromWalPath store.options.walPath ++ ".tmp"))) := by
          simp only [checkpointWith, henabled, if_true, hentries, writeSnapshotFile, hopened,
            hgood, Bool.false_eq_true, if_false]
        exact ⟨fun _ _ hgood' => absurd hgood' hgood,
          fun _ => .of_error heq rfl fun h => h.tmp none⟩
    · -- the temporary file is not opened
      have heq : store.checkpointWith calls = ({ store with disk := store.disk },
          .error ("open snapshot for write failed: " ++
            (snapshotPathFromWalPath store.options.walPath ++ ".tmp"))) := by
        simp only [checkpointWith, henabled, if_true, hentries, writeSnapshotFile, hopened,
          Bool.false_eq_true, if_false]
      exact ⟨fun _ hopened' => absurd hopened' hopened, fun _ => .of_error heq rfl id⟩

end

/-- A store whose files hold the map of its index can be opened again. -/
theorem Stores.reopens {store : KVStore} {base : Bytes → Option Bytes} {log : WAL.Log}
    (h : Stores store.disk base log) (henabled : store.options.enableWal = true)
    (hrecovered : recovered base log = store.get) : Reopens store := by
  intro coins
  obtain ⟨index, hconstruct, hget⟩ := construct_eq h henabled coins
  exact ⟨_, hconstruct, hget.trans hrecovered⟩

/-- The store in an empty directory after one `PUT`. -/
def onePut : KVStore where
  index := ((Index.new fun _ _ => false).put [97] [98]).2
  disk := { wal := WAL.encodeEntry (record (.put [97] [98]), {}) }

private theorem get_onePut : onePut.get = Function.update (fun _ => none) [97] (some [98]) := by
  show ((Index.new fun _ _ => false).put [97] [98]).2.get = _
  rw [Index.get_put, Index.get_new]

/-- The store with one `Put` can be opened again. -/
private theorem reopens_onePut : Reopens onePut := by
  have hfits : WAL.Fits (record (.put [97] [98])) := ⟨by decide, by decide⟩
  have hrecovered : recovered (fun _ => none) [(record (.put [97] [98]), {})] = onePut.get :=
    get_onePut.symm
  exact (stores_empty.append (record (.put [97] [98]), {}) hfits).reopens rfl hrecovered

/-- A call whose log cannot be synchronised throws, and nothing is lost. -/
theorem checkpointSafe_onePut :
    CheckpointSafe onePut { fsync := some "Input/output error" } :=
  (checkpointSafe_iff rfl).mpr fun _ _ _ _ _ => by simp [ClosesWhole]

/-- Without flushes, `write` keeps all bytes in the buffer. -/
private theorem writeAll_of_no_flush (buffer : Bytes) (chunks : List Bytes) :
    OFStream.writeAll { buffer } chunks [] = { buffer := buffer ++ chunks.flatten } := by
  induction chunks generalizing buffer with
  | nil => simp [OFStream.writeAll]
  | cons data chunks ih =>
    show OFStream.writeAll { buffer := buffer ++ data } chunks [] = _
    rw [ih, List.flatten_cons, List.append_assoc]

/-- A `PUT` has returned and its record is in the log; the only flush of the snapshot is the one
    in `close`, and it fails with nothing written. `Checkpoint` returns `true`, and the store
    cannot be opened again. -/
theorem flush_in_close_loses_put :
    Reopens onePut ∧
    (∃ disk, onePut.checkpointWith { closing := { fails := true } } =
        ({ onePut with disk }, .ok true) ∧
      ∀ coins, construct {} coins disk =
        .error "read snapshot header failed: data/wal.log.snapshot") ∧
    ¬ CheckpointSafe onePut { closing := { fails := true } } := by
  have hentries : snapshotEntries onePut.index = .ok [([97], [98])] := by
    have hlists := ListsMap.singleton ([97] : Bytes) ([98] : Bytes)
    rw [← get_onePut] at hlists
    exact snapshotEntries_eq hlists (by decide)
  -- no flush comes before the one of `close`
  have hstream : snapshotStream [([97], [98])] { closing := { fails := true } } =
      { buffer := snapshotBytes [([97], [98])] } := by
    rw [← flatten_snapshotChunks]
    exact writeAll_of_no_flush [] _
  have hcheckpoint : onePut.checkpointWith { closing := { fails := true } } =
      ({ onePut with disk := { snapshot := some [] } }, .ok true) := by
    simp only [checkpointWith, hentries, writeSnapshotFile, hstream]
    rfl
  have hconstruct : ∀ coins, construct {} coins { snapshot := some [] } =
      .error "read snapshot header failed: data/wal.log.snapshot" := fun _ => rfl
  refine ⟨reopens_onePut, ⟨_, hcheckpoint, hconstruct⟩, fun hsafe => ?_⟩
  unfold CheckpointSafe at hsafe
  rw [hcheckpoint] at hsafe
  obtain ⟨store', hstore', -⟩ := hsafe.2.2 fun _ _ => false
  cases (hconstruct fun _ _ => false).symm.trans hstore'

end KVStore

end KvStore
