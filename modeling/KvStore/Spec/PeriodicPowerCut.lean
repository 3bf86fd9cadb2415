import KvStore.Native.PeriodicStore
import KvStore.Spec.PowerCut

/-!
# Power cuts between two flushes

With `wal_sync_interval_ms > 0` an update may be lost although its call has returned. What is
left after a power cut is described by the history of all records (`Files`): the log of the
disk is a part of it that ends with the records that an `fsync` has covered, or behind them, and
each snapshot is the map after a beginning of it. Replaying the log over such a snapshot gives
the map after a beginning of the history (`recovers_history`), unless the power fails between the
renaming of the snapshot and the `fsync` of `Reset`. Then the snapshot may be newer than the log,
and every key has its value from the moment of the one or of the other
(`powerCut_mixes_updates`).
-/

namespace KvStore

open KVStore

namespace PeriodicStore

/-- The condition on a step is that of a log that is synchronised by every call. -/
def Ok (s : PeriodicStore) : Label → Prop
  | .call label => s.store.Ok label
  | _ => True

/-- The map after the first `n` of the updates whose records have been written. -/
def mapAt (start : Bytes → Option Bytes) (s : PeriodicStore) (n : Nat) : Bytes → Option Bytes :=
  Update.applyAll start (s.store.recorded.take n)

/-- The store that is constructed from the files does not throw. Every key has its value from
    one of two moments, neither of which is before the last `fsync`; it is one moment for all
    keys unless `Checkpoint` is between the renaming and `Reset`. -/
def Recovers (start : Bytes → Option Bytes) (s : PeriodicStore) (disk : Disk) : Prop :=
  ∀ coins, ∃ store k n, construct s.store.options coins disk = .ok store ∧
    s.synced ≤ k ∧ k ≤ n ∧ n ≤ s.store.recorded.length ∧
    (∀ key, store.get key = s.mapAt start k key ∨ store.get key = s.mapAt start n key) ∧
    (s.store.phase ≠ .renamed → k = n)

end PeriodicStore

namespace DurableStore

/-! ## The files in terms of the history -/

variable {base : Bytes → Option Bytes} {log : WAL.Log} {cut synced : Nat} {part : Bytes}
  {s : DurableStore}

/-- A name that the snapshot may have after a power cut stands for a file that is durable and
    holds the map after the first `n` records. -/
def VersionAt (base : Bytes → Option Bytes) (log : WAL.Log) (n : Nat)
    (version : Option (DurableFile UInt8)) : Prop :=
  (∀ f ∈ version, f.Settled) ∧
    SnapshotHolds (version.map DurableFile.written) (recovered base (log.take n))

/-- What holds while a call is in progress, where `part` is what has been written of its
    record. -/
def HistoryPhase (base : Bytes → Option Bytes) (log : WAL.Log) (synced : Nat) (part : Bytes)
    (s : DurableStore) : Prop :=
  match s.phase with
  | .idle => part = []
  | .logged update => part = [] ∧ WAL.Fits (record update)
  | .appending update left =>
    WAL.Fits (record update) ∧
      (if left = [] then part = []
      else ∃ padding, part ++ left = WAL.encode padding (record update))
  | .writing entries left =>
    part = [] ∧ ListsMap (recovered base log) (fun _ => True) entries ∧
      entries.length ≤ maxEntries ∧
      ∃ f, s.volume.tmp = some f ∧ f.written ++ left = snapshotBytes entries
  | .renamed => part = [] ∧ VersionAt base log log.length s.volume.snapshot
  | .resetting =>
    part = [] ∧ VersionAt base log log.length s.volume.snapshot ∧ s.volume.wal.Settled ∧
      synced = log.length

/-- The records of the log that are durable: those up to the last `fsync`, or, while a
    truncation is not durable, a part of the history from before it. -/
def HistoryHeld (log : WAL.Log) (cut synced : Nat) (s : DurableStore) : Prop :=
  if s.volume.wal.truncating = true then
    synced = cut ∧ ∃ start ≤ cut, s.volume.wal.durable = WAL.logBytes ((log.take cut).drop start)
  else WAL.logBytes ((log.take synced).drop cut) <+: s.volume.wal.durable

/-- What the files hold of the history `log` of the records behind `base`. The log has been
    truncated behind the first `cut` of them, and the last `fsync` covers the first `synced`. -/
structure Files (base : Bytes → Option Bytes) (log : WAL.Log) (cut synced : Nat) (part : Bytes)
    (s : DurableStore) : Prop where
  fits : ∀ entry ∈ log, WAL.Fits entry.1
  written : s.volume.wal.written = WAL.logBytes (log.drop cut) ++ part
  cut_le : cut ≤ synced
  synced_le : synced ≤ log.length
  versions : ∀ version ∈ s.volume.versions, ∃ n, cut ≤ n ∧ n ≤ log.length ∧
    (s.phase ≠ .renamed → n ≤ synced) ∧ VersionAt base log n version
  held : s.HistoryHeld log cut synced
  phase : s.HistoryPhase base log synced part

/-! ## What a power cut leaves -/

/-- A name of the snapshot after a power cut. -/
theorem VersionAt.survives {n : Nat} {version : Option (DurableFile UInt8)}
    (h : VersionAt base log n version) {file : Option Bytes}
    (hsurvives : Volume.Survives version file) :
    SnapshotHolds file (recovered base (log.take n)) := by
  obtain ⟨hsettled, hholds⟩ := h
  cases version with
  | none =>
    rw [show file = none from hsurvives]
    exact hholds
  | some f =>
    obtain ⟨bytes, rfl, hbytes⟩ := hsurvives
    obtain rfl := (hsettled f rfl).survives_iff.mp hbytes
    exact hholds

/-- What has been written of the record in flight is a proper beginning of it. -/
theorem HistoryPhase.torn (h : s.HistoryPhase base log synced part) :
    ∃ rest, (∀ entry ∈ rest, WAL.Fits entry.1) ∧ ∀ torn, torn <+: part →
      Torn WAL.encodeEntry rest torn := by
  have hnone (hpart : part = []) : ∃ rest, (∀ entry ∈ rest, WAL.Fits entry.1) ∧
      ∀ torn, torn <+: part → Torn WAL.encodeEntry rest torn :=
    ⟨[], by simp, fun torn htorn => List.prefix_nil.mp (hpart ▸ htorn)⟩
  unfold HistoryPhase at h
  split at h
  · exact hnone h
  · exact hnone h.1
  · rename_i update left _
    obtain ⟨hfits, h⟩ := h
    split at h
    · exact hnone h
    · -- part of the record has been written
      rename_i hleft
      obtain ⟨padding, hpart⟩ := h
      refine ⟨[(record update, padding)], fun entry hentry => ?_, fun torn htorn => ?_⟩
      · rw [List.mem_singleton.mp hentry]
        exact hfits
      · have hpos := List.length_pos_of_ne_nil hleft
        have hle := htorn.length_le
        refine ⟨htorn.trans ⟨left, hpart⟩, ?_⟩
        show torn.length < (WAL.encode padding (record update)).length
        rw [← hpart, List.length_append]
        omega
  · exact hnone h.1
  · exact hnone h.1
  · exact hnone h.1

/-- A power cut leaves a part of the history that ends behind what an `fsync` has covered, and
    a torn record. -/
theorem Files.wal_leaves (h : Files base log cut synced part s) {wal : Bytes}
    (hsurvives : s.volume.wal.Survives wal) :
    ∃ start n rest torn, start ≤ cut ∧ synced ≤ n ∧ n ≤ log.length ∧
      wal = WAL.logBytes ((log.take n).drop start) ++ torn ∧
      (∀ entry ∈ rest, WAL.Fits entry.1) ∧ Torn WAL.encodeEntry rest torn := by
  -- the log goes on behind the records that are durable
  have hbehind {bytes : Bytes} (hle : bytes <+: WAL.logBytes (log.drop synced) ++ part) :
      ∃ n rest torn, synced ≤ n ∧ n ≤ log.length ∧
        WAL.logBytes ((log.take synced).drop cut) ++ bytes =
          WAL.logBytes ((log.take n).drop cut) ++ torn ∧
        (∀ entry ∈ rest, WAL.Fits entry.1) ∧ Torn WAL.encodeEntry rest torn := by
    obtain ⟨front, rest, torn, hlog, hbytes, htorn⟩ := exists_of_prefix_flatMap_append hle
    have hlength := congrArg List.length hlog
    rw [List.length_drop, List.length_append] at hlength
    have hsynced := h.synced_le
    have hcut := h.cut_le
    have hfront : (log.take (synced + front.length)).drop cut =
        (log.take synced).drop cut ++ front := by
      rw [List.take_add, hlog, List.take_left, List.drop_append_of_le_length]
      simp only [List.length_take]
      omega
    refine ⟨synced + front.length, ?_⟩
    rw [hfront, hbytes, WAL.logBytes_append]
    -- the bytes end inside a record of the log, or inside the one that is being written
    rcases htorn with htorn | ⟨-, htorn⟩
    · refine ⟨rest, torn, by omega, by omega, (List.append_assoc _ _ _).symm,
        fun entry hentry => ?_, htorn⟩
      have hmem : entry ∈ log.drop synced := by
        rw [hlog]
        exact List.mem_append_right _ hentry
      exact h.fits entry (List.mem_of_mem_drop hmem)
    · obtain ⟨rest', hfits, htorn'⟩ := h.phase.torn
      exact ⟨rest', torn, by omega, by omega, (List.append_assoc _ _ _).symm, hfits,
        htorn' torn htorn⟩
  have hheld := h.held
  have hwritten := h.written
  unfold HistoryHeld at hheld
  unfold DurableFile.Survives at hsurvives
  split at hsurvives
  · rename_i htruncating
    rw [if_pos htruncating] at hheld
    obtain ⟨rfl, start, hstart, hdurable⟩ := hheld
    rcases hsurvives with hwal | hwal
    · -- the truncation is lost
      exact ⟨start, synced, [], [], hstart, Nat.le_refl _, h.synced_le,
        by rw [hwal, hdurable, List.append_nil], by simp, rfl⟩
    · rw [hwritten] at hwal
      obtain ⟨n, rest, torn, hsynced, hn, hbytes, hfits, htorn⟩ := hbehind hwal
      have hnone : (log.take synced).drop synced = [] :=
        List.drop_eq_nil_of_le (List.length_take_le _ _)
      rw [hnone] at hbytes
      exact ⟨synced, n, rest, torn, Nat.le_refl _, hsynced, hn, hbytes, hfits, htorn⟩
  · rename_i hfixed
    rw [if_neg hfixed] at hheld
    obtain ⟨hdurable, hle⟩ := hsurvives
    obtain ⟨bytes, rfl⟩ := hheld.trans hdurable
    have hparts : log.drop cut = (log.take synced).drop cut ++ log.drop synced := by
      have hcut := h.cut_le
      rw [List.drop_take, ← Nat.add_sub_cancel' hcut, ← List.drop_drop,
        Nat.add_sub_cancel_left, List.take_append_drop]
    rw [hwritten, hparts, WAL.logBytes_append, List.append_assoc,
      List.prefix_append_right_inj] at hle
    obtain ⟨n, rest, torn, hsynced, hn, hbytes, hfits, htorn⟩ := hbehind hle
    exact ⟨cut, n, rest, torn, Nat.le_refl _, hsynced, hn, hbytes, hfits, htorn⟩

/-- Whatever a power cut leaves, every key has its value from the moment of the log or from
    that of the snapshot. -/
theorem Files.recovers (h : Files base log cut synced part s)
    (henabled : s.options.enableWal = true) {disk : Disk} (hleaves : s.volume.Leaves disk)
    (coins : Nat → Nat → Bool) :
    ∃ store k n, construct s.options coins disk = .ok store ∧ synced ≤ k ∧ k ≤ n ∧
      n ≤ log.length ∧
      (∀ key, store.get key = recovered base (log.take k) key ∨
        store.get key = recovered base (log.take n) key) ∧
      (s.phase ≠ .renamed → k = n) := by
  obtain ⟨version, hversion, hsurvives⟩ := hleaves.snapshot
  obtain ⟨b, hcut, hb, hrenamed, hholds⟩ := h.versions version hversion
  obtain ⟨start, k, rest, torn, hstart, hsynced, hk, hwal, hfits, htorn⟩ := h.wal_leaves hleaves.wal
  have hall : ∀ entry ∈ (log.take k).drop start ++ rest, WAL.Fits entry.1 := by
    intro entry hentry
    rcases List.mem_append.mp hentry with hentry | hentry
    · exact h.fits entry (List.mem_of_mem_take (List.mem_of_mem_drop hentry))
    · exact hfits entry hentry
  obtain ⟨index, hconstruct, hget⟩ :=
    construct_torn (hholds.survives hsurvives) hwal hall htorn henabled coins
  have hreplay : index.get = Update.applyAll (Update.applyAll base ((updates log).take b))
      (((updates log).take k).drop start) := by
    rw [hget, recovered, recovered, updates, updates, List.map_drop, List.map_take, List.map_take]
    rfl
  have hmap (n : Nat) : recovered base (log.take n) =
      Update.applyAll base ((updates log).take n) := by
    rw [recovered, updates, updates, List.map_take]
  rcases Nat.le_total b k with hle | hle
  · -- the log reaches beyond the snapshot
    refine ⟨_, k, k, hconstruct, hsynced, Nat.le_refl k, hk, fun key => .inl ?_, fun _ => rfl⟩
    show index.get key = _
    rw [hreplay, hmap, Update.applyAll_replay_take _ _ (by omega) hle]
  · -- the snapshot reaches beyond the log, so the log is replayed over newer values
    refine ⟨_, k, b, hconstruct, hsynced, hle, hb, fun key => ?_, fun hphase => ?_⟩
    · show index.get key = _ ∨ index.get key = _
      rw [hreplay, hmap, hmap]
      exact Update.applyAll_replay_take_apply _ _ (by have := h.cut_le; omega) b key
    · have := hrenamed hphase
      omega

/-! ## What becomes durable by itself -/

/-- What becomes durable by itself does not change the version of a file. -/
theorem VersionAt.persists {n : Nat} {f g : DurableFile UInt8} (h : VersionAt base log n (some f))
    (hpersists : DurableFile.Persists f g) : VersionAt base log n (some g) := by
  obtain ⟨hsettled, hholds⟩ := h
  obtain ⟨hsettled', hwritten⟩ := (hsettled f rfl).persists hpersists
  constructor
  · intro f' hf'
    obtain rfl := Option.some.inj hf'
    exact hsettled'
  · rw [Option.map_some, hwritten]
    exact hholds

/-- Something has become durable by itself. -/
theorem Files.persist (h : Files base log cut synced part s) {volume : Volume}
    (hwritten : volume.wal.written = s.volume.wal.written)
    (hwal : s.volume.wal = volume.wal ∨ DurableFile.Persists s.volume.wal volume.wal)
    (hversions : ∀ version' ∈ volume.versions, ∃ version ∈ s.volume.versions,
      ∀ n, VersionAt base log n version → VersionAt base log n version')
    (hsnapshot : ∀ n, VersionAt base log n s.volume.snapshot → VersionAt base log n volume.snapshot)
    (htmp : ∀ f, s.volume.tmp = some f → ∃ g, volume.tmp = some g ∧ g.written = f.written) :
    Files base log cut synced part (s.withVolume volume s.phase) := by
  have hsettled (h : s.volume.wal.Settled) : volume.wal.Settled := by
    rcases hwal with hwal | hwal
    · rw [← hwal]
      exact h
    · exact (h.persists hwal).1
  refine ⟨h.fits, hwritten.trans h.written, h.cut_le, h.synced_le, fun version' hversion' => ?_,
    ?_, ?_⟩
  · obtain ⟨version, hversion, hgives⟩ := hversions version' hversion'
    obtain ⟨n, hcut, hn, hrenamed, hat⟩ := h.versions version hversion
    exact ⟨n, hcut, hn, hrenamed, hgives n hat⟩
  · have hheld := h.held
    unfold HistoryHeld at hheld ⊢
    show if volume.wal.truncating = true then _ else _ <+: volume.wal.durable
    rcases hwal with hwal | hwal
    · rw [hwal] at hheld
      exact hheld
    · -- more bytes of the log, or the truncation, are durable
      revert hheld
      generalize hfile : volume.wal = file at hwal ⊢
      cases hwal with
      | bytes hfixed hgrow hle =>
        rw [if_neg (by simp [hfixed]), if_neg (by simp)]
        exact fun hheld => hheld.trans hgrow
      | truncation htruncating =>
        rw [if_pos htruncating, if_neg (by simp)]
        intro hheld
        have hnone : (log.take synced).drop cut = [] :=
          List.drop_eq_nil_of_le (hheld.1 ▸ List.length_take_le _ _)
        rw [hnone]
        exact List.nil_prefix
  · have hphase := h.phase
    unfold HistoryPhase at hphase ⊢
    show match s.phase with | _ => _
    -- a phase asks for bytes that are durable or written, and neither become fewer
    cases hs : s.phase with
    | idle | logged update | appending update left => rwa [hs] at hphase
    | writing entries left =>
      rw [hs] at hphase
      obtain ⟨hpart, hlists, hcount, f, hf, hbytes⟩ := hphase
      obtain ⟨g, hg, hgbytes⟩ := htmp f hf
      exact ⟨hpart, hlists, hcount, g, hg, hgbytes ▸ hbytes⟩
    | renamed =>
      rw [hs] at hphase
      exact ⟨hphase.1, hsnapshot _ hphase.2⟩
    | resetting =>
      rw [hs] at hphase
      exact ⟨hphase.1, hsnapshot _ hphase.2.1, hsettled hphase.2.2.1, hphase.2.2.2⟩

/-! ## Steps of the calls -/

/-- A step that changes neither the log nor the files that the name of the snapshot may
    stand for. -/
theorem Files.of_volume (h : Files base log cut synced part s) {t : DurableStore}
    (hwal : t.volume.wal = s.volume.wal) (hversions : t.volume.versions = s.volume.versions)
    (hrenamed : t.phase ≠ .renamed → s.phase ≠ .renamed)
    (hphase : t.HistoryPhase base log synced part) : Files base log cut synced part t where
  fits := h.fits
  written := hwal ▸ h.written
  cut_le := h.cut_le
  synced_le := h.synced_le
  versions version hversion := by
    obtain ⟨n, hcut, hn, hsynced, hat⟩ := h.versions version (hversions ▸ hversion)
    exact ⟨n, hcut, hn, fun ht => hsynced (hrenamed ht), hat⟩
  held := by
    have hheld := h.held
    unfold HistoryHeld at hheld ⊢
    rwa [hwal]
  phase := hphase

/-- The map after the first records does not change. -/
theorem VersionAt.append {n : Nat} {version : Option (DurableFile UInt8)}
    (h : VersionAt base log n version) (hn : n ≤ log.length) (more : WAL.Log) :
    VersionAt base (log ++ more) n version := by
  unfold VersionAt
  rwa [List.take_append_of_le_length hn]

/-- Bytes of a record are written, among them the last one of it if `more` is not empty. -/
theorem Files.write (h : Files base log cut synced part s) {bytes part' : Bytes}
    {more : WAL.Log} {phase : DurablePhase} (hbytes : part ++ bytes = WAL.logBytes more ++ part')
    (hfits : ∀ entry ∈ more, WAL.Fits entry.1) (hrenamed : s.phase ≠ .renamed)
    (hphase : HistoryPhase base (log ++ more) synced part'
      (s.withVolume { s.volume with wal := s.volume.wal.write bytes } phase)) :
    Files base (log ++ more) cut synced part'
      (s.withVolume { s.volume with wal := s.volume.wal.write bytes } phase) := by
  have hcut := h.cut_le
  have hsynced := h.synced_le
  refine ⟨fun entry hentry => ?_, ?_, hcut, ?_, fun version hversion => ?_, ?_, hphase⟩
  · exact (List.mem_append.mp hentry).elim (h.fits entry) (hfits entry)
  · show s.volume.wal.written ++ bytes = _
    rw [h.written, List.append_assoc, hbytes, List.drop_append_of_le_length (by omega),
      WAL.logBytes_append, List.append_assoc]
  · rw [List.length_append]
    omega
  · obtain ⟨n, hn, hle, hlast, hat⟩ := h.versions version hversion
    refine ⟨n, hn, ?_, fun _ => hlast hrenamed, hat.append hle more⟩
    rw [List.length_append]
    omega
  · -- what is durable ends before the bytes that are added
    have hheld := h.held
    unfold HistoryHeld at hheld ⊢
    show if s.volume.wal.truncating = true then _ else _ <+: s.volume.wal.durable
    rwa [List.take_append_of_le_length (by omega), List.take_append_of_le_length hsynced]

/-- The log is synchronised while no part of a record is in it. -/
theorem Files.sync (h : Files base log cut synced [] s) {phase : DurablePhase}
    (hphase : HistoryPhase base log log.length []
      (s.withVolume { s.volume with wal := s.volume.wal.sync } phase)) :
    Files base log cut log.length []
      (s.withVolume { s.volume with wal := s.volume.wal.sync } phase) := by
  refine ⟨h.fits, h.written, h.cut_le.trans h.synced_le, Nat.le_refl _, fun version hversion => ?_,
    ?_, hphase⟩
  · obtain ⟨n, hn, hle, -, hat⟩ := h.versions version hversion
    exact ⟨n, hn, hle, fun _ => hle, hat⟩
  · have hwritten := h.written
    rw [List.append_nil] at hwritten
    show WAL.logBytes ((log.take log.length).drop cut) <+: s.volume.wal.written
    rw [hwritten, List.take_length]

/-- The snapshot file has its name. -/
theorem Files.rename (h : Files base log cut synced part s)
    (hok : ∀ f ∈ s.volume.tmp, f.Settled) {entries : List (Bytes × Bytes)}
    (hfits : ∀ {key value}, recovered base log key = some value → FitsPair (key, value))
    (hphase : s.phase = .writing entries []) :
    Files base log cut synced part (s.withVolume
      { s.volume with
        snapshot := s.volume.tmp
        renamed := s.volume.renamed ++ [s.volume.snapshot]
        tmp := none } .renamed) := by
  have hwriting := h.phase
  unfold HistoryPhase at hwriting
  rw [hphase] at hwriting
  obtain ⟨hpart, hlists, hcount, f, hf, hbytes⟩ := hwriting
  rw [List.append_nil] at hbytes
  have hfitsPair : ∀ entry ∈ entries, FitsPair entry := fun entry hentry =>
    hfits ((hlists.mem_iff entry.1 entry.2).mp hentry).1
  -- the new file holds the whole map, and it is durable
  have hnew : VersionAt base log log.length s.volume.tmp := by
    refine ⟨hok, ?_⟩
    rw [List.take_length, hf]
    exact ⟨entries, hbytes, hlists, hfitsPair, hcount⟩
  refine ⟨h.fits, h.written, h.cut_le, h.synced_le, fun version hversion => ?_, h.held, hpart, hnew⟩
  rcases List.mem_append.mp hversion with hversion | hversion
  · obtain ⟨n, hn, hle, -, hat⟩ := h.versions version hversion
    exact ⟨n, hn, hle, fun hnot => absurd rfl hnot, hat⟩
  · rw [List.mem_singleton.mp hversion]
    exact ⟨log.length, h.cut_le.trans h.synced_le, Nat.le_refl _, fun hnot => absurd rfl hnot, hnew⟩

/-- The log is truncated: every version of the snapshot holds the whole map. -/
theorem Files.truncate (h : Files base log cut synced part s)
    (hok : ∀ version ∈ s.volume.renamed, VersionGives [] (recovered base log) version)
    (hphase : s.phase = .resetting) :
    synced = log.length ∧ part = [] ∧ Files base log log.length synced []
      (s.withVolume { s.volume with wal := s.volume.wal.truncate } .idle) := by
  have hresetting := h.phase
  unfold HistoryPhase at hresetting
  rw [hphase] at hresetting
  obtain ⟨rfl, hsnapshot, hsettled, rfl⟩ := hresetting
  refine ⟨rfl, rfl, h.fits, ?_, Nat.le_refl _, Nat.le_refl _, fun version hversion => ?_, ?_, rfl⟩
  · rw [List.drop_length]
    rfl
  · refine ⟨log.length, Nat.le_refl _, Nat.le_refl _, fun _ => Nat.le_refl _, ?_⟩
    rcases List.mem_append.mp hversion with hversion | hversion
    · obtain ⟨hdurable, map, hholds, hmap⟩ := hok version hversion
      refine ⟨hdurable, ?_⟩
      rw [List.take_length, ← hmap]
      exact hholds
    · rw [List.mem_singleton.mp hversion]
      exact hsnapshot
  · -- the old log is durable
    refine ⟨rfl, cut, h.cut_le, ?_⟩
    rw [List.take_length]
    show s.volume.wal.durable = _
    rw [hsettled.2, h.written, List.append_nil]

/-- `SyncLoop` calls `fsync`. -/
theorem HistoryPhase.flush (h : s.HistoryPhase base log synced part) (hfree : s.LogFree) :
    part = [] ∧ HistoryPhase base log log.length []
      (s.withVolume { s.volume with wal := s.volume.wal.sync } s.phase) := by
  unfold HistoryPhase at h ⊢
  unfold LogFree at hfree
  show _ ∧ match s.phase with | _ => _
  cases hphase : s.phase with
  | idle =>
    rw [hphase] at h
    exact ⟨h, rfl⟩
  | logged update =>
    rw [hphase] at h
    exact ⟨h.1, rfl, h.2⟩
  | appending update left =>
    rw [hphase] at h hfree
    obtain rfl : left = [] := hfree
    exact ⟨h.2, h.1, rfl⟩
  | writing entries left =>
    rw [hphase] at h
    exact ⟨h.1, rfl, h.2⟩
  | renamed =>
    rw [hphase] at h
    exact ⟨h.1, rfl, h.2⟩
  | resetting =>
    -- `Reset` holds the mutex
    rw [hphase] at hfree
    exact hfree.elim

end DurableStore

namespace PeriodicStore

/-! ## The invariant -/

/-- The updates that have got past `MarkDirty`. -/
def marked (s : PeriodicStore) : List (Update Bytes Bytes) :=
  match s.store.phase with
  | .logged update => s.store.returned ++ [update]
  | _ => s.store.returned

/-- The invariant of the runs whose steps meet the condition, for a store that has been
    opened on a snapshot of `base` and the log `old`. -/
structure Inv (base : Bytes → Option Bytes) (old : WAL.Log) (s : PeriodicStore) : Prop where
  walEnabled : s.store.options.enableWal = true
  index : s.store.index.get = s.store.map (recovered base old)
  fits : ∀ {key value}, s.store.map (recovered base old) key = some value → FitsPair (key, value)
  files : ∃ new cut part, updates new = s.store.recorded ∧
    DurableStore.Files base (old ++ new) cut (old.length + s.synced) part s.store
  /-- A record that is not covered by an `fsync` has left a flag behind. -/
  flagged : s.dirty = true ∨ s.thread = .taken true false ∨ s.marked.length ≤ s.synced

variable {base : Bytes → Option Bytes} {old new : WAL.Log} {s : PeriodicStore}

/-- The maps of the history. -/
theorem recovered_take (hnew : updates new = s.store.recorded) (n : Nat) :
    recovered base ((old ++ new).take (old.length + n)) = s.mapAt (recovered base old) n := by
  have hmap : recovered base ((old ++ new).take (old.length + n)) =
      Update.applyAll base (updates old ++ (updates new).take n) := by
    rw [recovered, List.take_length_add_append, updates_append, updates, updates, updates,
      List.map_take]
  rw [hmap, hnew, Update.applyAll_append]
  rfl

/-- The history is that of the files and that of the run. -/
theorem length_history (hnew : updates new = s.store.recorded) :
    (old ++ new).length = old.length + s.store.recorded.length := by
  rw [← hnew, List.length_append, updates, List.length_map]

/-- The map of the whole history when no record is in flight. -/
theorem recovered_history (hnew : updates new = s.store.recorded)
    (hrecorded : s.store.recorded = s.store.returned) :
    recovered base (old ++ new) = s.store.map (recovered base old) := by
  rw [recovered, updates_append, Update.applyAll_append, hnew, hrecorded]
  rfl

/-- Whatever a power cut leaves, it can be recovered from. -/
theorem Inv.recovers (h : s.Inv base old) {disk : Disk} (hleaves : s.store.volume.Leaves disk) :
    s.Recovers (recovered base old) disk := by
  obtain ⟨new, cut, part, hnew, hfiles⟩ := h.files
  intro coins
  obtain ⟨store, k, n, hconstruct, hk, hkn, hn, hget, hphase⟩ :=
    hfiles.recovers h.walEnabled hleaves coins
  obtain ⟨k, rfl⟩ := Nat.exists_eq_add_of_le ((Nat.le_add_right _ _).trans hk)
  obtain ⟨n, rfl⟩ := Nat.exists_eq_add_of_le ((Nat.le_add_right _ _).trans hkn)
  rw [length_history hnew] at hn
  simp only [recovered_take hnew] at hget
  exact ⟨store, k, n, hconstruct, by omega, by omega, by omega, hget, fun hp => by
    have := hphase hp
    omega⟩

/-! ## The invariant is kept -/

/-- A step that concerns the files and the call in progress only. -/
theorem Inv.of_files (h : s.Inv base old) {store : DurableStore}
    (hoptions : store.options = s.store.options) (hindex : store.index = s.store.index)
    (hreturned : store.returned = s.store.returned)
    (hmarked : ({ s with store } : PeriodicStore).marked = s.marked)
    (hfiles : ∃ new cut part, updates new = store.recorded ∧
      DurableStore.Files base (old ++ new) cut (old.length + s.synced) part store) :
    Inv base old { s with store } := by
  have hmap : store.map (recovered base old) = s.store.map (recovered base old) := by
    rw [DurableStore.map, hreturned, DurableStore.map]
  refine ⟨hoptions ▸ h.walEnabled, ?_, fun {key value} hget => ?_, hfiles, ?_⟩
  · show store.index.get = store.map _
    rw [hindex, hmap]
    exact h.index
  · change store.map _ key = some value at hget
    rw [hmap] at hget
    exact h.fits hget
  · rw [hmarked]
    exact h.flagged

/-- `WriteAll` writes some bytes of the record. -/
theorem Inv.writeLog (h : s.Inv base old) {update : Update Bytes Bytes} {left : Bytes}
    (count : Nat) (hphase : s.store.phase = .appending update left) :
    Inv base old { s with
      store := s.store.withVolume
        { s.store.volume with wal := s.store.volume.wal.write (left.take count) }
        (.appending update (left.drop count)) } := by
  obtain ⟨new, cut, part, hnew, hfiles⟩ := h.files
  have happending := hfiles.phase
  unfold DurableStore.HistoryPhase at happending
  rw [hphase] at happending
  obtain ⟨hupdate, happending⟩ := happending
  have hrenamed : s.store.phase ≠ .renamed := by
    rw [hphase]
    exact DurablePhase.noConfusion
  unfold DurableStore.recorded at hnew
  rw [hphase] at hnew
  refine h.of_files rfl rfl rfl (by simp only [marked, hphase]; rfl) ?_
  by_cases hleft : left = []
  · -- the record has been written already
    subst hleft
    rw [if_pos rfl] at happending
    subst happending
    refine ⟨new, cut, [], ?_, ?_⟩
    · rw [hnew, List.drop_nil]
      rfl
    · rw [List.take_nil, List.drop_nil, ← List.append_nil (old ++ new)]
      refine hfiles.write rfl (by simp) hrenamed ⟨hupdate, ?_⟩
      rw [if_pos rfl]
  · rw [if_neg hleft] at happending
    obtain ⟨padding, hpart⟩ := happending
    have hnew' : updates new = s.store.returned := by
      cases left with
      | nil => exact absurd rfl hleft
      | cons byte left => exact hnew
    by_cases hdrop : left.drop count = []
    · -- the last byte of the record
      have htake : left.take count = left := by
        rw [← List.take_append_drop count left, hdrop, List.append_nil, List.take_take,
          Nat.min_self]
      refine ⟨new ++ [(record update, padding)], cut, [], ?_, ?_⟩
      · rw [updates_append, hnew', hdrop]
        simp [updates, DurableStore.recorded]
        rfl
      · rw [hdrop, ← List.append_assoc]
        refine hfiles.write ?_ ?_ hrenamed ⟨hupdate, ?_⟩
        · rw [htake, hpart]
          simp [WAL.logBytes, WAL.encodeEntry]
        · intro entry hentry
          rw [List.mem_singleton.mp hentry]
          exact hupdate
        · rw [if_pos rfl]
    · -- the record is still not whole
      refine ⟨new, cut, part ++ left.take count, ?_, ?_⟩
      · rw [hnew']
        cases hrest : left.drop count with
        | nil => exact absurd hrest hdrop
        | cons byte rest => rfl
      · rw [← List.append_nil (old ++ new)]
        refine hfiles.write rfl (by simp) hrenamed ⟨hupdate, ?_⟩
        rw [if_neg hdrop]
        exact ⟨padding, by rw [List.append_assoc, List.take_append_drop, hpart]⟩

/-- A record that has been written comes to the index. -/
theorem Inv.apply (h : s.Inv base old) {update : Update Bytes Bytes}
    (hphase : s.store.phase = .logged update) :
    Inv base old { s with
      store := { s.store with
        index := (s.store.index.update update).2
        phase := .idle
        returned := s.store.returned ++ [update] } } := by
  obtain ⟨new, cut, part, hnew, hfiles⟩ := h.files
  have hlogged := hfiles.phase
  unfold DurableStore.HistoryPhase at hlogged
  rw [hphase] at hlogged
  unfold DurableStore.recorded at hnew
  rw [hphase] at hnew
  -- the record has been written, so the history holds the update already
  have hmap : Update.applyAll (recovered base old) (s.store.returned ++ [update]) =
      update.apply (s.store.map (recovered base old)) := by
    rw [Update.applyAll_append]
    rfl
  refine ⟨h.walEnabled, ?_, fun {key value} hget => ?_, ⟨new, cut, part, hnew, ?_⟩, ?_⟩
  · show (s.store.index.update update).2.get = Update.applyAll _ _
    rw [Index.get_update, h.index, hmap]
  · change Update.applyAll _ (s.store.returned ++ [update]) key = some value at hget
    rw [hmap] at hget
    exact DurableStore.fitsPair_apply hlogged.2 h.fits hget
  · refine hfiles.of_volume rfl rfl (fun _ => ?_) hlogged.1
    rw [hphase]
    exact DurablePhase.noConfusion
  · have hflagged := h.flagged
    unfold marked at hflagged
    rwa [hphase] at hflagged

/-- A step of a call that does not synchronise the log. -/
theorem Inv.call (h : s.Inv base old) {label : DurableStore.Label} {store : DurableStore}
    (hlabel : label.LeavesLog) (hok : s.store.Ok label)
    (hstep : DurableStore.Step s.store label store) :
    Inv base old { s with store } := by
  obtain ⟨new, cut, part, hnew, hfiles⟩ := h.files
  have hphaseInv := hfiles.phase
  unfold DurableStore.HistoryPhase at hphaseInv
  cases hstep with
  | syncLog | syncReset | truncate => exact hlabel.elim
  | @append update padding hphase =>
    rw [hphase] at hphaseInv
    unfold DurableStore.recorded at hnew
    rw [hphase] at hnew
    refine h.of_files rfl rfl rfl (by simp only [marked, hphase]) ⟨new, cut, part, ?_, ?_⟩
    · exact hnew
    · refine hfiles.of_volume rfl rfl (fun _ => ?_) ⟨hok, ?_⟩
      · rw [hphase]
        exact DurablePhase.noConfusion
      · have hpos : 0 < (WAL.encode padding (record update)).length := by
          rw [WAL.length_encode, WAL.headerSize]
          omega
        rw [if_neg (List.ne_nil_of_length_pos hpos)]
        exact ⟨padding, by rw [hphaseInv, List.nil_append]⟩
  | writeLog count hphase => exact h.writeLog count hphase
  | apply hphase => exact h.apply hphase
  | @create entries hphase hentries =>
    -- the snapshot holds all updates that are recorded, as no call is under way
    rw [hphase] at hphaseInv
    obtain ⟨-, hlists, hcount⟩ := snapshotEntries_cases hentries
    have hrecorded : s.store.recorded = s.store.returned := by
      unfold DurableStore.recorded
      rw [hphase]
    rw [h.index, ← recovered_history hnew hrecorded] at hlists
    have htmp : (DurableStore.openTmp s.store.volume.tmp).written = [] := by
      cases s.store.volume.tmp <;> rfl
    refine h.of_files rfl rfl rfl (by simp only [marked, hphase]; rfl)
      ⟨new, cut, part, hnew.trans hrecorded, ?_⟩
    refine hfiles.of_volume rfl rfl (fun _ => ?_)
      ⟨hphaseInv, hlists, hcount, _, rfl, by rw [htmp, List.nil_append]⟩
    rw [hphase]
    exact DurablePhase.noConfusion
  | @writeTmp entries left f count hphase htmp =>
    rw [hphase] at hphaseInv
    obtain ⟨hpart, hlists, hcount, f', hf', hbytes⟩ := hphaseInv
    obtain rfl := Option.some.inj (htmp.symm.trans hf')
    have hrecorded : s.store.recorded = s.store.returned := by
      unfold DurableStore.recorded
      rw [hphase]
    refine h.of_files rfl rfl rfl (by simp only [marked, hphase]; rfl)
      ⟨new, cut, part, hnew.trans hrecorded, ?_⟩
    refine hfiles.of_volume rfl rfl (fun _ => ?_) ⟨hpart, hlists, hcount, _, rfl, ?_⟩
    · rw [hphase]
      exact DurablePhase.noConfusion
    · show (f.written ++ left.take count) ++ left.drop count = _
      rw [List.append_assoc, List.take_append_drop, hbytes]
  | @rename entries hphase =>
    have hrecorded : s.store.recorded = s.store.returned := by
      unfold DurableStore.recorded
      rw [hphase]
    refine h.of_files rfl rfl rfl (by simp only [marked, hphase]; rfl)
      ⟨new, cut, part, hnew.trans hrecorded, hfiles.rename hok (fun {key value} hget => ?_) hphase⟩
    rw [recovered_history hnew hrecorded] at hget
    exact h.fits hget
  | @persistLog f hpersists =>
    refine h.of_files rfl rfl rfl rfl ⟨new, cut, part, hnew, ?_⟩
    exact hfiles.persist hpersists.written_eq (.inr hpersists) (fun version hversion =>
      ⟨version, hversion, fun _ => id⟩) (fun _ => id) fun f hf => ⟨f, hf, rfl⟩
  | @persistSnapshot f g hsnapshot hpersists =>
    -- bytes of the snapshot become durable
    refine h.of_files rfl rfl rfl rfl ⟨new, cut, part, hnew, ?_⟩
    refine hfiles.persist rfl (.inl rfl) (fun version hversion => ?_) (fun n hat => ?_)
      fun f hf => ⟨f, hf, rfl⟩
    · rcases List.mem_append.mp hversion with hversion | hversion
      · exact ⟨version, List.mem_append_left _ hversion, fun _ => id⟩
      · rw [List.mem_singleton.mp hversion]
        refine ⟨some f, by simp [Volume.versions, hsnapshot], fun _ hat => ?_⟩
        exact hat.persists hpersists
    · rw [hsnapshot] at hat
      exact hat.persists hpersists
  | @persistRenamed f g front back hrenamed hpersists =>
    refine h.of_files rfl rfl rfl rfl ⟨new, cut, part, hnew, ?_⟩
    refine hfiles.persist rfl (.inl rfl) (fun version hversion => ?_) (fun _ => id)
      fun f hf => ⟨f, hf, rfl⟩
    unfold Volume.versions at hversion ⊢
    rw [hrenamed]
    by_cases hg : version = some g
    · rw [hg]
      exact ⟨some f, by simp, fun _ hat => hat.persists hpersists⟩
    · refine ⟨version, ?_, fun _ => id⟩
      simp only [List.mem_append, List.mem_cons, hg, false_or] at hversion ⊢
      tauto
  | @persistTmp f g htmp hpersists =>
    refine h.of_files rfl rfl rfl rfl ⟨new, cut, part, hnew, ?_⟩
    refine hfiles.persist rfl (.inl rfl) (fun version hversion => ⟨version, hversion, fun _ => id⟩)
      (fun _ => id) fun f' hf' => ?_
    obtain rfl := Option.some.inj (htmp.symm.trans hf')
    exact ⟨g, rfl, hpersists.written_eq⟩
  | persistRename =>
    refine h.of_files rfl rfl rfl rfl ⟨new, cut, part, hnew, ?_⟩
    refine hfiles.persist rfl (.inl rfl) (fun version hversion => ⟨version, ?_, fun _ => id⟩)
      (fun _ => id) fun f hf => ⟨f, hf, rfl⟩
    rcases List.mem_append.mp hversion with hversion | hversion
    · exact List.mem_append_left _ (List.mem_of_mem_tail hversion)
    · exact List.mem_append_right _ hversion

/-- Every step that meets the condition keeps the invariant. -/
theorem Inv.step (h : s.Inv base old) {label : Label} {t : PeriodicStore} (hok : s.Ok label)
    (hstep : Step s label t) : t.Inv base old := by
  obtain ⟨new, cut, part, hnew, hfiles⟩ := h.files
  have hphaseInv := hfiles.phase
  have hmarked : s.marked.length ≤ s.store.recorded.length := by
    unfold marked DurableStore.recorded
    cases s.store.phase with
    | appending update left => cases left <;> simp
    | _ => exact Nat.le_refl _
  cases hstep with
  | call hlabel hstep => exact h.call hlabel hok hstep
  | @markDirty update hphase =>
    -- the flag covers the record from now on
    unfold DurableStore.HistoryPhase at hphaseInv
    unfold DurableStore.recorded at hnew
    rw [hphase] at hphaseInv hnew
    refine ⟨h.walEnabled, h.index, h.fits, ⟨new, cut, part, hnew, ?_⟩, .inl rfl⟩
    refine hfiles.of_volume rfl rfl (fun _ => ?_) ⟨hphaseInv.2, hphaseInv.1⟩
    rw [hphase]
    exact DurablePhase.noConfusion
  | syncReset hstep =>
    cases hstep with
    | syncReset hphase =>
      -- the whole log is durable, and nothing of it is left out
      unfold DurableStore.HistoryPhase at hphaseInv
      rw [hphase] at hphaseInv
      obtain ⟨rfl, hsnapshot⟩ := hphaseInv
      have hrecorded : s.store.recorded = s.store.returned := by
        unfold DurableStore.recorded
        rw [hphase]
      refine ⟨h.walEnabled, h.index, h.fits, ⟨new, cut, [], hnew.trans hrecorded, ?_⟩,
        .inr (.inr ?_)⟩
      · show DurableStore.Files base _ cut (old.length + s.store.recorded.length) [] _
        rw [← length_history hnew]
        exact hfiles.sync ⟨rfl, hsnapshot, DurableFile.settled_synced _, rfl⟩
      · show s.store.returned.length ≤ s.store.recorded.length
        rw [hrecorded]
  | truncate hstep =>
    cases hstep with
    | truncate hphase =>
      have hrecorded : s.store.recorded = s.store.returned := by
        unfold DurableStore.recorded
        rw [hphase]
      -- the snapshot holds the whole history, so the log can go
      obtain ⟨hsynced, rfl, hfiles'⟩ := hfiles.truncate (fun version hversion => by
        have hgives := hok version hversion
        rwa [h.index, ← recovered_history hnew hrecorded] at hgives) hphase
      refine ⟨h.walEnabled, h.index, h.fits, ⟨new, _, [], hnew.trans hrecorded, hfiles'⟩,
        .inr (.inr ?_)⟩
      rw [length_history hnew] at hsynced
      show s.store.returned.length ≤ s.synced
      rw [← hrecorded]
      omega
  | takeFlags hthread =>
    refine ⟨h.walEnabled, h.index, h.fits, ⟨new, cut, part, hnew, hfiles⟩, .inr ?_⟩
    -- the thread has the flag now
    rcases h.flagged with hdirty | htaken | hsynced
    · exact .inl (by rw [hdirty])
    · rw [hthread] at htaken
      cases htaken
    · exact .inr hsynced
  | flush hthread hfree =>
    obtain ⟨rfl, hphase⟩ := hphaseInv.flush hfree
    refine ⟨h.walEnabled, h.index, h.fits, ⟨new, cut, [], hnew, ?_⟩, .inr (.inr hmarked)⟩
    show DurableStore.Files base _ cut (old.length + s.store.recorded.length) [] _
    rw [← length_history hnew]
    exact hfiles.sync hphase
  | skip hthread =>
    -- the thread has found the flag unset
    refine ⟨h.walEnabled, h.index, h.fits, ⟨new, cut, part, hnew, hfiles⟩, ?_⟩
    rcases h.flagged with hdirty | htaken | hsynced
    · exact .inl hdirty
    · rw [hthread] at htaken
      cases htaken
    · exact .inr (.inr hsynced)

/-! ## Runs -/

/-- A store that has been opened on a disk on which everything is durable. -/
def opened (store : KVStore) : PeriodicStore where
  store := .opened store

/-- A store that has just been opened. -/
theorem inv_opened {options : EngineOptions} (henabled : options.enableWal = true)
    {coins : Nat → Nat → Bool} {disk : Disk} {base : Bytes → Option Bytes} {log : WAL.Log}
    (hstores : Stores disk base log) {store : KVStore}
    (hconstruct : construct options coins disk = .ok store) :
    store.get = recovered base log ∧ (opened store).Inv base log := by
  have hfits {key value : Bytes} (hget : store.get key = some value) : FitsPair (key, value) :=
    fitsPair_of_construct henabled hconstruct hget
  obtain ⟨index, heq, hget⟩ := construct_eq hstores henabled coins
  obtain rfl := Except.ok.inj (heq.symm.trans hconstruct)
  -- the whole log that was opened is durable
  refine ⟨hget, henabled, hget, fun {key value} hkey => ?_, ⟨[], 0, [], rfl, ?_⟩,
    .inr (.inr (Nat.le_refl 0))⟩
  · have hkey' : recovered base log key = some value := hkey
    rw [← hget] at hkey'
    exact hfits hkey'
  · rw [List.append_nil]
    refine ⟨hstores.fits, ?_, Nat.zero_le _, Nat.le_refl _, fun version hversion => ?_, ?_, rfl⟩
    · show disk.wal = _
      rw [hstores.wal, List.drop_zero, List.append_nil]
    · rw [List.mem_singleton.mp hversion]
      refine ⟨0, Nat.le_refl _, Nat.zero_le _, fun _ => Nat.zero_le _, fun f hf => ?_, ?_⟩
      · obtain ⟨file, -, rfl⟩ := Option.map_eq_some_iff.mp hf
        exact DurableFile.settled_synced file
      · show SnapshotHolds ((disk.snapshot.map DurableFile.synced).map DurableFile.written) base
        have hholds := hstores.snapshot
        cases hsnapshot : disk.snapshot with
        | none => rwa [hsnapshot] at hholds
        | some file => rwa [hsnapshot] at hholds
    · show WAL.logBytes ((log.take log.length).drop 0) <+: disk.wal
      rw [hstores.wal, List.take_length, List.drop_zero]

/-- The store with a sync thread, at every point of a run in which snapshot files are durable
    when they are renamed and renamings when the log is truncated: after a power cut the
    constructor does not throw, and the map is the one after some of the updates, in their
    order, at least those that the last `fsync` has covered; only between the renaming of a
    snapshot and `Reset` may some keys have later values than others. No call that has
    returned is left uncovered unless `dirty_` is set or the thread has just taken it. -/
theorem recovers_history {options : EngineOptions} (henabled : options.enableWal = true)
    {coins : Nat → Nat → Bool} {disk : Disk} {base : Bytes → Option Bytes} {log : WAL.Log}
    (hstores : Stores disk base log) {store : KVStore}
    (hconstruct : construct options coins disk = .ok store) {s : PeriodicStore}
    (hrun : Run Step Ok (opened store) s) :
    (∀ left, s.store.volume.Leaves left → s.Recovers store.get left) ∧
      (s.dirty = true ∨ s.thread = .taken true false ∨
        s.store.returned.length ≤ s.synced) := by
  obtain ⟨hget, hopened⟩ := inv_opened henabled hstores hconstruct
  have hinv := hrun.invariant hopened fun h hok hstep => h.step hok hstep
  rw [hget]
  refine ⟨fun left => hinv.recovers, hinv.flagged.imp_right (Or.imp_right fun hmarked => ?_)⟩
  refine le_trans ?_ hmarked
  unfold marked
  split
  · rw [List.length_append]
    exact Nat.le_add_right _ _
  · exact Nat.le_refl _

/-- A step of a call is one of the store. -/
theorem run_call {s : PeriodicStore} {label : DurableStore.Label} {store : DurableStore}
    (hstep : DurableStore.Step s.store label store) (hlabel : label.LeavesLog)
    (hok : s.store.Ok label) : Run Step Ok s { s with store } :=
  Run.refl.tail (.call label) hok (.call hlabel hstep)

/-- `Put` and `Delete` that return normally. -/
theorem exists_run_write (s : PeriodicStore) (update : Update Bytes Bytes)
    (hphase : s.store.phase = .idle) (hfits : WAL.Fits (record update)) :
    ∃ t, Run Step Ok s t ∧ t.store.phase = .idle ∧ t.store.options = s.store.options ∧
      t.store.index.get = update.apply s.store.index.get ∧
      t.store.volume = { s.store.volume with
        wal := s.store.volume.wal.write (WAL.encode {} (record update)) } ∧
      t.store.returned = s.store.returned ++ [update] := by
  let bytes := WAL.encode {} (record update)
  have hcalled : Run Step Ok s _ := run_call (.append {} hphase) trivial hfits
  -- the bytes of the record are written at once
  have hwritten := DurableStore.Step.writeLog
    (s := { s.store with phase := .appending update bytes }) bytes.length rfl
  rw [List.take_length, List.drop_length] at hwritten
  have hmarked := (hcalled.trans (run_call hwritten trivial trivial)).tail Label.markDirty trivial
    (.markDirty rfl)
  have hrun := hmarked.trans (run_call (.apply rfl) trivial trivial)
  exact ⟨_, hrun, rfl, rfl, Index.get_update _ _, rfl, rfl⟩

/-- A checkpoint up to the renaming of its snapshot, which is durable. -/
theorem exists_run_rename (s : PeriodicStore) {entries : List (Bytes × Bytes)}
    (hphase : s.store.phase = .idle) (htmp : s.store.volume.tmp = none)
    (hentries : snapshotEntries s.store.index = .ok entries) :
    ∃ t, Run Step Ok s t ∧ t.store.options = s.store.options ∧
      t.store.volume.wal = s.store.volume.wal ∧
      t.store.volume.snapshot = some (.synced (snapshotBytes entries)) ∧
      t.store.recorded = s.store.returned := by
  let bytes := snapshotBytes entries
  let file : DurableFile UInt8 := (DurableFile.synced []).write bytes
  let writing (tmp : DurableFile UInt8) (left : Bytes) : DurableStore :=
    s.store.withVolume { s.store.volume with tmp := some tmp } (.writing entries left)
  have hcreated := DurableStore.Step.create hphase hentries
  rw [htmp] at hcreated
  have hwritten := DurableStore.Step.writeTmp (s := writing (.synced []) bytes) bytes.length rfl rfl
  rw [List.take_length, List.drop_length] at hwritten
  have hdurable : DurableStore.Step (writing file []) .persistTmp (writing (.synced bytes) []) :=
    .persistTmp rfl (@DurableFile.Persists.bytes _ file bytes rfl List.nil_prefix List.prefix_rfl)
  have hok (f : DurableFile UInt8) (hf : f ∈ some (DurableFile.synced bytes)) : f.Settled := by
    obtain rfl := Option.some.inj hf
    exact DurableFile.settled_synced bytes
  have hrun := ((run_call hcreated trivial trivial).trans
    (run_call (s := { s with store := writing (.synced []) bytes }) hwritten trivial trivial)).trans
    (run_call (s := { s with store := writing file [] }) hdurable trivial trivial)
  exact ⟨_, hrun.trans (run_call (.rename rfl) trivial hok), rfl, rfl, rfl, rfl⟩

/-- A `PUT` that has returned and is lost with the power. -/
theorem recovers_history_put :
    ∃ s : PeriodicStore, s.store.returned = [.put [97] [98]] ∧ s.store.volume.Leaves {} ∧
      s.Recovers (fun _ => none) {} := by
  let start : PeriodicStore := opened { index := Index.new fun _ _ => false, disk := {} }
  obtain ⟨s, hrun, -, -, -, hvolume, hreturned⟩ :=
    exists_run_write start (.put [97] [98]) rfl ⟨by decide, by decide⟩
  have hstart : KVStore.get { index := Index.new fun _ _ => false, disk := {} } =
      fun _ => none := Index.get_new _
  have hleaves : s.store.volume.Leaves {} := by
    rw [hvolume]
    exact ⟨⟨List.prefix_rfl, List.nil_prefix⟩, none, List.mem_singleton_self _, rfl⟩
  refine ⟨s, hreturned, hleaves, ?_⟩
  rw [← hstart]
  exact (recovers_history rfl stores_empty (construct_empty fun _ _ => false) hrun).1 {} hleaves

/-- Two values for one key, then another key, and a `Checkpoint` that has renamed its snapshot
    when the power fails. The first value has come to the log, nothing else has: what is
    recovered is the map after no beginning of the updates. -/
theorem powerCut_mixes_updates :
    ∃ s disk store, Run Step Ok
        (opened { index := Index.new fun _ _ => false, disk := {} }) s ∧
      s.store.volume.Leaves disk ∧ construct s.store.options (fun _ _ => false) disk = .ok store ∧
      ∀ n, store.get ≠ s.mapAt (fun _ => none) n := by
  let start : PeriodicStore := opened { index := Index.new fun _ _ => false, disk := {} }
  let entries : List (Bytes × Bytes) := [([97], [50]), ([98], [51])]
  obtain ⟨s₁, hrun₁, hidle₁, hoptions₁, hget₁, hvolume₁, hreturned₁⟩ :=
    exists_run_write start (.put [97] [49]) rfl ⟨by decide, by decide⟩
  obtain ⟨s₂, hrun₂, hidle₂, hoptions₂, hget₂, hvolume₂, hreturned₂⟩ :=
    exists_run_write s₁ (.put [97] [50]) hidle₁ ⟨by decide, by decide⟩
  obtain ⟨s₃, hrun₃, hidle₃, hoptions₃, hget₃, hvolume₃, hreturned₃⟩ :=
    exists_run_write s₂ (.put [98] [51]) hidle₂ ⟨by decide, by decide⟩
  -- the map after the three updates
  have hget : s₃.store.index.get = fun key =>
      if key = [98] then some [51] else if key = [97] then some [50] else none := by
    have hnone : start.store.index.get = fun _ => none := Index.get_new _
    rw [hget₃, hget₂, hget₁, hnone]
    funext key
    simp only [Update.apply, Update.key, Update.effect, Function.update_apply]
    split
    · rfl
    · split <;> rfl
  -- the snapshot lists it
  have hlists : ListsMap s₃.store.index.get (fun _ => True) entries := by
    refine ⟨by decide, fun key value => ?_⟩
    rw [hget]
    simp only [entries, List.mem_cons, List.not_mem_nil, Prod.mk.injEq, or_false, and_true]
    split
    · rename_i hkey
      subst hkey
      simp [eq_comm]
    · rename_i hkey
      split <;> rename_i hkey' <;> simp [hkey, hkey', eq_comm]
  obtain ⟨t, hrun₄, hoptions, hwal, hsnapshot, hrecorded⟩ := exists_run_rename s₃ hidle₃
    (by rw [hvolume₃, hvolume₂, hvolume₁]; rfl) (snapshotEntries_eq hlists (by decide))
  -- one record and the snapshot of all three
  let log : WAL.Log := [(record (.put [97] [49]), {})]
  have hstores : Stores { wal := WAL.logBytes log, snapshot := some (snapshotBytes entries) }
      s₃.store.index.get log := by
    refine ⟨⟨entries, rfl, hlists, fun entry hentry => ?_, by decide⟩, rfl, fun entry hentry => ?_⟩
    · have hall : ∀ entry ∈ entries, entry.1.length < 2 ^ 32 ∧ entry.2.length < 2 ^ 32 := by decide
      exact ⟨(hall entry hentry).1, (hall entry hentry).2⟩
    · rw [List.mem_singleton.mp hentry]
      exact ⟨by decide, by decide⟩
  have henabled : t.store.options.enableWal = true := by
    rw [hoptions, hoptions₃, hoptions₂, hoptions₁]
    rfl
  obtain ⟨index, hconstruct, hindex⟩ := construct_eq hstores henabled fun _ _ => false
  refine ⟨t, _, _, ((hrun₁.trans hrun₂).trans hrun₃).trans hrun₄, ⟨?_, ?_⟩, hconstruct,
    fun n heq => ?_⟩
  · rw [hwal, hvolume₃, hvolume₂, hvolume₁]
    refine ⟨List.nil_prefix, ?_⟩
    show WAL.logBytes log <+: (([] ++ WAL.encode {} _) ++ WAL.encode {} _) ++ WAL.encode {} _
    rw [List.nil_append, List.append_assoc]
    simp only [WAL.logBytes, log, List.flatMap_cons, List.flatMap_nil, List.append_nil,
      WAL.encodeEntry]
    exact List.prefix_append _ _
  · refine ⟨t.store.volume.snapshot, List.mem_append_right _ (List.mem_singleton_self _), ?_⟩
    rw [hsnapshot]
    exact ⟨_, rfl, (DurableFile.settled_synced _).survives_iff.mpr rfl⟩
  · have hupdates : t.store.recorded =
        [.put [97] [49], .put [97] [50], .put [98] [51]] := by
      rw [hrecorded, hreturned₃, hreturned₂, hreturned₁]
      rfl
    have hold := congrFun heq [97]
    have hlast := congrFun heq [98]
    change index.get [97] = _ at hold
    change index.get [98] = _ at hlast
    rw [hindex, hget, mapAt, hupdates] at hold hlast
    -- the third update is there, and the second one is not
    rcases n with _ | _ | _ | n
    · cases hlast
    · cases hlast
    · cases hlast
    · rw [List.take_of_length_le (by simp)] at hold
      cases hold

end PeriodicStore

end KvStore
