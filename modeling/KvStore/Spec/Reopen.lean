import KvStore.Spec.KVStoreRecovery

/-!
# Which files a store can be opened from

What it means for the files that the constructor accepts them: the snapshot is loaded, and
the log is a log with at most a torn tail (`exists_log_of_construct`). A snapshot file that
lacks bytes at its end is never accepted (`loadSnapshotFile_torn`).
-/

namespace KvStore.KVStore

/-! ## Snapshot files that lack bytes at their end -/

/-- A read fails if there are not enough bytes. -/
private theorem read_short {length : Nat} {file : Bytes} (h : file.length < length) :
    read length file = none :=
  if_neg (Nat.not_le.mpr h)

/-- A read that succeeds splits the file. -/
private theorem read_cases {length : Nat} {file bytes rest : Bytes}
    (h : read length file = some (bytes, rest)) :
    bytes.length = length ∧ file = bytes ++ rest := by
  unfold read at h
  split at h
  · cases h
    exact ⟨List.length_take_of_le ‹_›, (List.take_append_drop _ _).symm⟩
  · cases h

/-- What `readEntry` reads, and which sizes it can have. -/
theorem readEntry_cases {snapshotPath : String} {file rest : Bytes} {entry : Bytes × Bytes}
    (h : readEntry snapshotPath file = .ok (entry, rest)) :
    FitsPair entry ∧ file = entryBytes entry ++ rest := by
  unfold readEntry at h
  cases hkeySize : read 4 file with
  | none => simp [hkeySize] at h
  | some keySize =>
    cases hvalueSize : read 4 keySize.2 with
    | none => simp [hkeySize, hvalueSize] at h
    | some valueSize =>
      cases hkey : read (leNat keySize.1) valueSize.2 with
      | none => simp [hkeySize, hvalueSize, hkey] at h
      | some key =>
        cases hvalue : read (leNat valueSize.1) key.2 with
        | none => simp [hkeySize, hvalueSize, hkey, hvalue] at h
        | some value =>
          simp only [hkeySize, hvalueSize, hkey, hvalue, Option.bind_eq_bind, Option.bind_some,
            Except.ok.injEq, Prod.mk.injEq] at h
          obtain ⟨rfl, rfl⟩ := h
          obtain ⟨hkeyWidth, hfile⟩ := read_cases hkeySize
          obtain ⟨hvalueWidth, hfile₁⟩ := read_cases hvalueSize
          obtain ⟨hkeyLength, hfile₂⟩ := read_cases hkey
          obtain ⟨hvalueLength, hfile₃⟩ := read_cases hvalue
          have hkeyLt := leNat_lt keySize.1
          have hvalueLt := leNat_lt valueSize.1
          rw [hkeyWidth] at hkeyLt
          rw [hvalueWidth] at hvalueLt
          -- the sizes that the file declares are those of what was read
          refine ⟨⟨?_, ?_⟩, ?_⟩
          · show key.1.length < 2 ^ 32
            omega
          · show value.1.length < 2 ^ 32
            omega
          · show file = leBytes 4 key.1.length ++ (leBytes 4 value.1.length ++ (key.1 ++ value.1)) ++
              value.2
            rw [hkeyLength, hvalueLength]
            nth_rewrite 1 [← hkeyWidth]
            nth_rewrite 1 [← hvalueWidth]
            rw [leBytes_leNat, leBytes_leNat, hfile, hfile₁, hfile₂, hfile₃]
            simp only [List.append_assoc]

/-- A part of an entry is not read as an entry. -/
private theorem readEntry_torn (snapshotPath : String) {entry : Bytes × Bytes}
    (hfits : FitsPair entry) {torn : Bytes} (hpre : torn <+: entryBytes entry)
    (hlt : torn.length < (entryBytes entry).length) :
    ∃ error, readEntry snapshotPath torn = .error error := by
  cases hread : readEntry snapshotPath torn with
  | error error => exact ⟨error, rfl⟩
  | ok result =>
    obtain ⟨entry', rest⟩ := result
    -- the whole entry would start with the bytes of the one that is read
    obtain ⟨hfits', htorn⟩ := readEntry_cases hread
    obtain ⟨suffix, hsuffix⟩ := hpre
    have hwhole := readEntry_eq snapshotPath hfits []
    rw [List.append_nil, ← hsuffix, htorn, List.append_assoc,
      readEntry_eq snapshotPath hfits'] at hwhole
    simp only [Except.ok.injEq, Prod.mk.injEq] at hwhole
    have hlength := congrArg List.length htorn
    rw [hwhole.1, List.length_append] at hlength
    omega

/-- The loop of `LoadSnapshotFile` fails if bytes are missing at the end. -/
private theorem loadEntries_torn (snapshotPath : String) {entries : List (Bytes × Bytes)}
    (hfits : ∀ entry ∈ entries, FitsPair entry) {part : Bytes}
    (hpre : part <+: entries.flatMap entryBytes)
    (hlt : part.length < (entries.flatMap entryBytes).length) (index : Index Bytes Bytes) :
    ∃ error, loadEntries snapshotPath entries.length part index = .error error := by
  induction entries generalizing part index with
  | nil => exact absurd hlt (Nat.not_lt_zero _)
  | cons entry entries ih =>
    have hentry := hfits entry List.mem_cons_self
    rw [List.flatMap_cons] at hpre hlt
    by_cases hshort : part.length < (entryBytes entry).length
    · -- the first entry is torn
      have hpre' : part <+: entryBytes entry :=
        List.prefix_of_prefix_length_le hpre (List.prefix_append _ _) (Nat.le_of_lt hshort)
      obtain ⟨error, herror⟩ := readEntry_torn snapshotPath hentry hpre' hshort
      exact ⟨error, by rw [List.length_cons, loadEntries, herror]⟩
    · -- the first entry is whole, and a later one is torn
      obtain ⟨part', rfl⟩ := List.prefix_of_prefix_length_le (List.prefix_append _ _) hpre
        (Nat.not_lt.mp hshort)
      rw [List.length_append, List.length_append] at hlt
      obtain ⟨error, herror⟩ := ih (fun e he => hfits e (List.mem_cons_of_mem entry he))
        ((List.prefix_append_right_inj _).mp hpre) (by omega) (index.put entry.1 entry.2).2
      refine ⟨error, ?_⟩
      rw [List.length_cons, loadEntries, readEntry_eq snapshotPath hentry]
      exact herror

/-- A snapshot file that lacks bytes at its end is not accepted. -/
theorem loadSnapshotFile_torn (snapshotPath : String) {entries : List (Bytes × Bytes)}
    (hfits : ∀ entry ∈ entries, FitsPair entry) (hcount : entries.length < 2 ^ 64)
    {part : Bytes} (hpre : part <+: snapshotBytes entries)
    (hlt : part.length < (snapshotBytes entries).length) (index : Index Bytes Bytes) :
    ∃ error, loadSnapshotFile snapshotPath (some part) index = .error error := by
  have hheader : (snapshotHeaderBytes entries.length).length = 16 := by
    simp [snapshotHeaderBytes]
  unfold snapshotBytes at hpre hlt
  by_cases hshort : part.length < 16
  · -- the header is torn
    exact ⟨_, by simp only [loadSnapshotFile, read_short hshort]; rfl⟩
  · obtain ⟨part', rfl⟩ := List.prefix_of_prefix_length_le (List.prefix_append _ _) hpre
      (hheader ▸ Nat.not_lt.mp hshort)
    rw [List.length_append, List.length_append] at hlt
    -- an entry is torn, and reading it fails
    obtain ⟨error, herror⟩ := loadEntries_torn snapshotPath hfits
      ((List.prefix_append_right_inj _).mp hpre) (by omega) index
    have hentries : leNat (((snapshotHeaderBytes entries.length).drop 8).take 8) =
        entries.length := by
      simp [snapshotHeaderBytes, List.drop_append, List.drop_eq_nil_of_le,
        List.take_of_length_le]
      omega
    have hread : read 16 (snapshotHeaderBytes entries.length ++ part') =
        some (snapshotHeaderBytes entries.length, part') := by
      rw [read, if_pos (by rw [List.length_append]; omega), ← hheader, List.take_left,
        List.drop_left]
    unfold loadSnapshotFile
    simp only [hread, hentries, herror]
    split
    · exact ⟨_, rfl⟩
    · exact ⟨error, rfl⟩

/-! ## Snapshot files that are accepted -/

/-- What the loop of `LoadSnapshotFile` adds to the index fits the size fields. -/
private theorem fitsPair_of_loadEntries {snapshotPath : String} {count : Nat} {file : Bytes}
    {index index' : Index Bytes Bytes}
    (h : loadEntries snapshotPath count file index = .ok index')
    (hfits : ∀ {key value}, index.get key = some value → FitsPair (key, value))
    {key value : Bytes} (hget : index'.get key = some value) : FitsPair (key, value) := by
  induction count generalizing file index with
  | zero =>
    obtain rfl := Except.ok.inj h
    exact hfits hget
  | succ count ih =>
    unfold loadEntries at h
    split at h
    · cases h
    · rename_i key' value' rest hread
      refine ih h fun {k v} hkv => ?_
      rw [Index.get_put, Function.update_apply] at hkv
      split at hkv
      · -- the pair comes from the file, whose size fields it fits
        rename_i hk
        obtain rfl := Option.some.inj hkv
        rw [hk]
        exact (readEntry_cases hread).1
      · exact hfits hkv

/-- The entries of a snapshot file that is accepted fit the size fields. -/
theorem fitsPair_of_loadSnapshotFile {snapshotPath : String} {file : Option Bytes}
    {coins : Nat → Nat → Bool} {index : Index Bytes Bytes}
    (h : loadSnapshotFile snapshotPath file (Index.new coins) = .ok index) {key value : Bytes}
    (hget : index.get key = some value) : FitsPair (key, value) := by
  have hnew : ∀ {key value}, (Index.new coins : Index Bytes Bytes).get key = some value →
      FitsPair (key, value) := by
    intro key value hkv
    rw [Index.get_new] at hkv
    cases hkv
  unfold loadSnapshotFile at h
  split at h
  · obtain rfl := Except.ok.inj h
    exact hnew hget
  · split at h
    · cases h
    · split at h
      · cases h
      · exact fitsPair_of_loadEntries h hnew hget

/-! ## Disks that are accepted -/

/-- The files that the constructor accepts: a snapshot that it loads, and a log with at most
    a torn record behind it. -/
theorem exists_log_of_construct {options : EngineOptions} {coins : Nat → Nat → Bool}
    {disk : Disk} {store : KVStore} (henabled : options.enableWal = true)
    (h : construct options coins disk = .ok store) :
    ∃ index log tail skipped,
      loadSnapshotFile (snapshotPathFromWalPath options.walPath) disk.snapshot
        (Index.new coins) = .ok index ∧
      disk.wal = WAL.logBytes log ++ tail ∧ (∀ entry ∈ log, WAL.Fits entry.1) ∧
      WAL.readRecord tail = .tail skipped ∧ store.get = recovered index.get log := by
  unfold construct at h
  rw [if_pos henabled] at h
  split at h
  · cases h
  · rename_i index hload
    -- the log begins with records that are whole
    obtain ⟨log, tail, hwal, hfits, hstop⟩ := WAL.exists_log disk.wal
    have hreplay := WAL.replayLoop_log applyRecord index {} hfits tail
    rw [WAL.replay, hwal, hreplay] at h
    -- what stops the replay is a torn record, or the constructor throws
    cases hread : WAL.readRecord tail with
    | tail skipped =>
      rw [WAL.replayLoop_of_tail _ _ _ hread] at h
      obtain rfl := Except.ok.inj h
      exact ⟨index, log, tail, skipped, hload, hwal, hfits, hread,
        get_foldl_applyRecord log index⟩
    | invalid error =>
      rw [WAL.replayLoop_of_invalid _ _ _ hread] at h
      cases h
    | record record rest => exact absurd hread (hstop record rest)

/-- The constructor accepts a snapshot that it can load and a log with at most a torn record
    behind it. -/
theorem construct_of_load {options : EngineOptions} {coins : Nat → Nat → Bool} {disk : Disk}
    {index : Index Bytes Bytes} {log : WAL.Log} {tail : Bytes} {skipped : Nat}
    (henabled : options.enableWal = true)
    (hload : loadSnapshotFile (snapshotPathFromWalPath options.walPath) disk.snapshot
      (Index.new coins) = .ok index)
    (hwal : disk.wal = WAL.logBytes log ++ tail) (hfits : ∀ entry ∈ log, WAL.Fits entry.1)
    (htail : WAL.readRecord tail = .tail skipped) :
    ∃ store, construct options coins disk = .ok store ∧
      store.get = recovered index.get log := by
  have hreplay := WAL.replayLoop_log applyRecord index {} hfits tail
  rw [WAL.replayLoop_of_tail _ _ _ htail] at hreplay
  have hconstruct : construct options coins disk =
      .ok { options, index := (log.map Prod.fst).foldl applyRecord index, disk } := by
    rw [← hwal] at hreplay
    simp only [construct, henabled, if_true, hload, WAL.replay, hreplay]
  exact ⟨_, hconstruct, get_foldl_applyRecord log index⟩

/-- A put of the log fits the size fields. -/
private theorem fitsPair_of_mem_updates {log : WAL.Log} (hfits : ∀ entry ∈ log, WAL.Fits entry.1)
    {key value : Bytes} (h : Update.put key value ∈ updates log) : FitsPair (key, value) := by
  obtain ⟨entry, hentry, hupdate⟩ := List.mem_map.mp h
  unfold LogRecord.update at hupdate
  split at hupdate
  · cases hupdate
    exact ⟨(hfits entry hentry).key, (hfits entry hentry).value⟩
  · cases hupdate

/-- The entries of a store that has been constructed fit the size fields. -/
theorem fitsPair_of_construct {options : EngineOptions} {coins : Nat → Nat → Bool} {disk : Disk}
    {store : KVStore} (henabled : options.enableWal = true)
    (h : construct options coins disk = .ok store) {key value : Bytes}
    (hget : store.get key = some value) : FitsPair (key, value) := by
  obtain ⟨index, log, tail, skipped, hload, -, hfits, -, hstore⟩ :=
    exists_log_of_construct henabled h
  rw [hstore] at hget
  rcases Update.put_mem_of_applyAll hget with hbase | hput
  · exact fitsPair_of_loadSnapshotFile hload hbase
  · exact fitsPair_of_mem_updates hfits hput

/-- What `Snapshot` returns for an index that is not too large. -/
theorem snapshotEntries_cases {index : Index Bytes Bytes} {entries : List (Bytes × Bytes)}
    (h : snapshotEntries index = .ok entries) :
    entries = index.snapshot ∧ ListsMap index.get (fun _ => True) entries ∧
      entries.length ≤ maxEntries := by
  unfold snapshotEntries at h
  split at h
  · cases h
  · rename_i hcount
    obtain rfl := Except.ok.inj h
    have hlength := index.length_snapshot
    exact ⟨rfl, index.lists_snapshot, by omega⟩

/-- What `Snapshot` returns is determined by the map. -/
theorem snapshotEntries_eq {index : Index Bytes Bytes} {entries : List (Bytes × Bytes)}
    (hlists : ListsMap index.get (fun _ => True) entries) (hcount : entries.length ≤ maxEntries) :
    snapshotEntries index = .ok entries := by
  have hsnapshot : index.snapshot = entries := index.lists_snapshot.unique hlists
  have hlength := index.length_snapshot
  rw [hsnapshot] at hlength
  rw [snapshotEntries, if_neg (by omega), hsnapshot]

end KvStore.KVStore
