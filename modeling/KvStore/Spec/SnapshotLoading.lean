import KvStore.Native.SnapshotStream
import KvStore.Spec.Reopen

/-!
# Snapshot files are taken whole or not at all

`LoadSnapshotFile` looks at the state of its stream once behind several reads, and skips the
reads of empty keys and values. It still throws exactly when some read finds too few bytes
(`loadSnapshotFile_outcome`), so it takes a file that `WriteSnapshotFile` has written and
refuses what is left of it when bytes at its end are missing (`accepts_whole_only`).
-/

namespace KvStore

namespace IFStream

/-- A read of no bytes does nothing. -/
theorem read_nil (input : IFStream) : input.read [] = ([], input) := by
  obtain ⟨left, failed⟩ := input
  cases failed <;> simp [read]

/-- The fail state stays. -/
theorem read_failed {input : IFStream} (h : input.failed = true) (bytes : Bytes) :
    (input.read bytes).2.failed = true := by
  rw [read, if_pos h]
  exact h

/-- A read that finds enough bytes. -/
theorem read_of_some {file taken rest bytes : Bytes}
    (h : KVStore.read bytes.length file = some (taken, rest)) :
    read { left := file } bytes = (taken, { left := rest }) := by
  unfold KVStore.read at h
  split at h
  · rename_i hle
    cases h
    have hnone : bytes.drop file.length = [] := List.drop_eq_nil_of_le hle
    simp [read, hnone, Nat.not_lt.mpr hle]
  · cases h

/-- A read that finds too few bytes. -/
theorem read_of_none {file bytes : Bytes} (h : KVStore.read bytes.length file = none) :
    (read { left := file } bytes).2.failed = true := by
  unfold KVStore.read at h
  split at h
  · cases h
  · rename_i hlt
    simp [read, Nat.not_le.mp hlt]

end IFStream

namespace SnapshotStream

@[simp] theorem length_zeros (count : Nat) : (zeros count).length = count :=
  List.length_replicate

/-- A read that is skipped would not have done anything. -/
theorem read_skipped (size : Nat) (input : IFStream) :
    (if 0 < size then input.read (zeros size) else (zeros size, input)) =
      input.read (zeros size) := by
  split
  · rfl
  · obtain rfl : size = 0 := by omega
    exact (input.read_nil).symm

/-- A read that finds enough bytes. -/
theorem read_zeros_of_some {count : Nat} {file taken rest : Bytes}
    (h : KVStore.read count file = some (taken, rest)) :
    IFStream.read { left := file } (zeros count) = (taken, { left := rest }) :=
  IFStream.read_of_some (by rwa [length_zeros])

/-- A read that finds too few bytes. -/
theorem read_zeros_of_none {count : Nat} {file : Bytes} (h : KVStore.read count file = none) :
    (IFStream.read { left := file } (zeros count)).2.failed = true :=
  IFStream.read_of_none (by rwa [length_zeros])

/-- One round of the loop, with the state of the stream looked at behind every read. -/
theorem readEntry_eq (snapshotPath : String) (file : Bytes) :
    readEntry snapshotPath { left := file } =
      (KVStore.readEntry snapshotPath file).map fun result => (result.1, { left := result.2 }) := by
  simp only [readEntry, KVStore.readEntry, read_skipped, Option.bind_eq_bind]
  cases hkeySize : KVStore.read 4 file with
  | none =>
    -- the second read is made on a stream that has failed
    have hfailed := IFStream.read_failed (read_zeros_of_none hkeySize) (zeros 4)
    simp [hfailed, Except.map]
  | some keySize =>
    simp only [read_zeros_of_some hkeySize, Option.bind_some]
    cases hvalueSize : KVStore.read 4 keySize.2 with
    | none => simp [read_zeros_of_none hvalueSize, Except.map]
    | some valueSize =>
      simp only [read_zeros_of_some hvalueSize, Option.bind_some]
      cases hkey : KVStore.read (leNat keySize.1) valueSize.2 with
      | none =>
        have hfailed := IFStream.read_failed (read_zeros_of_none hkey) (zeros (leNat valueSize.1))
        simp [hfailed, Except.map]
      | some key =>
        simp only [read_zeros_of_some hkey, Option.bind_some]
        cases hvalue : KVStore.read (leNat valueSize.1) key.2 with
        | none => simp [read_zeros_of_none hvalue, Except.map]
        | some value => simp [read_zeros_of_some hvalue, Except.map]

/-- The index that a call leaves if it throws nothing. -/
def outcome (result : Index Bytes Bytes × Except String Unit) : Except String (Index Bytes Bytes) :=
  result.2.map fun _ => result.1

/-- Loading fails if the last step does. -/
theorem outcome_eq_error {result : Index Bytes Bytes × Except String Unit} {error : String} :
    outcome result = .error error ↔ result.2 = .error error := by
  unfold outcome
  cases result.2 <;> simp [Except.map]

/-- Loading succeeds if the last step does. -/
theorem outcome_eq_ok {result : Index Bytes Bytes × Except String Unit} {index : Index Bytes Bytes} :
    outcome result = .ok index ↔ result = (index, .ok ()) := by
  obtain ⟨index', result⟩ := result
  unfold outcome
  cases result <;> simp [Except.map]

/-- The loop over the entries, as the store sees it. -/
theorem loadEntries_outcome (snapshotPath : String) (count : Nat) (file : Bytes)
    (index : Index Bytes Bytes) :
    outcome (loadEntries snapshotPath count { left := file } index) =
      KVStore.loadEntries snapshotPath count file index := by
  induction count generalizing file index with
  | zero => rfl
  | succ count ih =>
    rw [loadEntries, KVStore.loadEntries, readEntry_eq]
    cases hread : KVStore.readEntry snapshotPath file with
    | error error => rfl
    | ok result => exact ih result.2 (index.put result.1.1 result.1.2).2

/-- `LoadSnapshotFile`, with the state of the stream looked at behind every read. -/
theorem loadSnapshotFile_outcome (snapshotPath : String) (file : Bytes)
    (index : Index Bytes Bytes) :
    outcome (loadSnapshotFile snapshotPath (.opened file) index) =
      KVStore.loadSnapshotFile snapshotPath (some file) index := by
  unfold loadSnapshotFile KVStore.loadSnapshotFile
  cases hheader : KVStore.read 16 file with
  | none => simp [read_zeros_of_none hheader, hheader, outcome, Except.map]
  | some header =>
    simp only [read_zeros_of_some hheader, hheader, Bool.false_eq_true, if_false]
    split
    · rfl
    · exact loadEntries_outcome snapshotPath _ header.2 index

/-! ## Whole files and torn files -/

/-- The entries of a whole file are those of the index that was empty before. -/
theorem loadSnapshotFile_whole (snapshotPath : String) {entries : List (Bytes × Bytes)}
    (hfits : ∀ entry ∈ entries, FitsPair entry) (hcount : entries.length < 2 ^ 64)
    (hsorted : entries.Pairwise fun a b => a.1 < b.1) {index : Index Bytes Bytes}
    (hempty : index.get = fun _ => none) :
    ∃ index', loadSnapshotFile snapshotPath (.opened (KVStore.snapshotBytes entries)) index =
        (index', .ok ()) ∧ index'.snapshot = entries := by
  obtain ⟨index', hload, hget⟩ := KVStore.loadSnapshotFile_eq snapshotPath hfits hcount index
  refine ⟨index', ?_, ?_⟩
  · rw [← outcome_eq_ok, loadSnapshotFile_outcome, hload]
  · -- both lists hold the pairs of one map, in order
    have hlists : ListsMap index'.get (fun _ => True) entries := by
      refine ⟨hsorted, fun key value => ?_⟩
      rw [and_iff_left trivial, hget, hempty, Update.applyAll_puts hsorted, Option.or_none,
        List.lookup_eq_some_iff_mem hsorted]
    exact index'.lists_snapshot.unique hlists

/-- A file that lacks bytes at its end is refused. -/
theorem loadSnapshotFile_torn (snapshotPath : String) {entries : List (Bytes × Bytes)}
    (hfits : ∀ entry ∈ entries, FitsPair entry) (hcount : entries.length < 2 ^ 64) {part : Bytes}
    (hpre : part <+: KVStore.snapshotBytes entries) (hne : part ≠ KVStore.snapshotBytes entries)
    (index : Index Bytes Bytes) :
    ∃ error, KVStore.loadSnapshotFile snapshotPath (some part) index = .error error ∧
      (loadSnapshotFile snapshotPath (.opened part) index).2 = .error error := by
  have hlt : part.length < (KVStore.snapshotBytes entries).length :=
    hpre.length_le.lt_of_ne fun heq => hne (hpre.eq_of_length heq)
  obtain ⟨error, herror⟩ := KVStore.loadSnapshotFile_torn snapshotPath hfits hcount hpre hlt index
  refine ⟨error, herror, ?_⟩
  rw [← outcome_eq_error, loadSnapshotFile_outcome, herror]

/-- A snapshot file that has been written whole puts exactly its entries into an empty index.
    When bytes at its end are missing, loading it throws, and so does the constructor. The entries
    are those of a vector, so that their number is a `std::size_t`. -/
theorem accepts_whole_only (snapshotPath : String) {entries : List (Bytes × Bytes)}
    (hfits : ∀ entry ∈ entries, FitsPair entry) (hcount : entries.length < 2 ^ 64)
    (hsorted : entries.Pairwise fun a b => a.1 < b.1) {index : Index Bytes Bytes}
    (hempty : index.get = fun _ => none) :
    (∃ index', loadSnapshotFile snapshotPath (.opened (KVStore.snapshotBytes entries)) index =
        (index', .ok ()) ∧ index'.snapshot = entries) ∧
      ∀ part, part <+: KVStore.snapshotBytes entries → part ≠ KVStore.snapshotBytes entries →
        (∃ error, (loadSnapshotFile snapshotPath (.opened part) index).2 = .error error) ∧
          ∀ options coins (disk : Disk), options.enableWal = true → disk.snapshot = some part →
            ∃ error, KVStore.construct options coins disk = .error error := by
  refine ⟨loadSnapshotFile_whole snapshotPath hfits hcount hsorted hempty, fun part hpre hne => ?_⟩
  constructor
  · obtain ⟨error, -, herror⟩ :=
      loadSnapshotFile_torn snapshotPath hfits hcount hpre hne index
    exact ⟨error, herror⟩
  · intro options coins disk henabled hsnapshot
    obtain ⟨error, herror, -⟩ := loadSnapshotFile_torn
      (KVStore.snapshotPathFromWalPath options.walPath) hfits hcount hpre hne (Index.new coins)
    exact ⟨error, by simp only [KVStore.construct, henabled, if_true, hsnapshot, herror]⟩

/-- Two entries, one with an empty key and one with an empty value. -/
theorem accepts_whole_only_two :
    (∃ index', loadSnapshotFile "data/wal.log.snapshot"
          (.opened (KVStore.snapshotBytes [([], [98]), ([97], [])])) (Index.new fun _ _ => false) =
        (index', .ok ()) ∧ index'.snapshot = [([], [98]), ([97], [])]) ∧
      ∀ part, part <+: KVStore.snapshotBytes [([], [98]), ([97], [])] →
        part ≠ KVStore.snapshotBytes [([], [98]), ([97], [])] →
        (∃ error, (loadSnapshotFile "data/wal.log.snapshot" (.opened part)
            (Index.new fun _ _ => false)).2 = .error error) ∧
          ∀ options coins (disk : Disk), options.enableWal = true → disk.snapshot = some part →
            ∃ error, KVStore.construct options coins disk = .error error := by
  have hfits : ∀ entry ∈ [([], [98]), ([97], [])], FitsPair entry := by
    simp only [List.mem_cons, List.not_mem_nil, or_false, forall_eq_or_imp, forall_eq]
    exact ⟨⟨by decide, by decide⟩, by decide, by decide⟩
  exact accepts_whole_only "data/wal.log.snapshot" hfits (by decide) (by decide)
    (Index.get_new fun _ _ => false)

end SnapshotStream

end KvStore
