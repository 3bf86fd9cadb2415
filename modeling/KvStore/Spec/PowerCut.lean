import KvStore.Native.DurableStore
import KvStore.Spec.Reopen
import KvStore.ForStd.Transition

/-!
# Power cuts

`Recovers s disk` says that the store that is constructed from the files that a power cut has
left holds the updates of the calls that have returned, and possibly the one in flight.
`WriteSnapshotFile` never calls `fsync`, so this fails for some runs (`powerCut_loses_put`).
It holds in runs in which the bytes of the temporary file are durable before it is renamed,
and the renaming is durable before the log is truncated (`recovers_of_durable`).
-/

namespace KvStore.DurableStore

open KVStore

/-- The map of the calls that have returned, for a store that held `start` at first. -/
def map (start : Bytes → Option Bytes) (s : DurableStore) : Bytes → Option Bytes :=
  Update.applyAll start s.returned

/-- The update of the call in progress. -/
def inFlight (s : DurableStore) : Option (Update Bytes Bytes) :=
  match s.phase with
  | .appending update _ | .logged update => some update
  | _ => none

/-- The store that is constructed from the files does not throw. It holds the calls that have
    returned, and the call in flight either entirely or not at all. -/
def Recovers (start : Bytes → Option Bytes) (s : DurableStore) (disk : Disk) : Prop :=
  ∀ coins, ∃ store, construct s.options coins disk = .ok store ∧
    (store.get = s.map start ∨
      ∃ update, s.inFlight = some update ∧ store.get = update.apply (s.map start))

/-- Under a name that the snapshot may have after a power cut is a file that is durable, and
    with the updates of the log it gives the map `m`. -/
def VersionGives (log : WAL.Log) (m : Bytes → Option Bytes)
    (version : Option (DurableFile UInt8)) : Prop :=
  (∀ f ∈ version, f.Settled) ∧
    ∃ base, SnapshotHolds (version.map DurableFile.written) base ∧ recovered base log = m

/-- The condition on a step. The sizes of a record fit its header; the temporary file is
    durable when it is renamed; and when the log is truncated, the renaming is durable, or the
    files that have been replaced hold the map of the index as well. -/
def Ok (s : DurableStore) : Label → Prop
  | .append update => WAL.Fits (record update)
  | .rename => ∀ f ∈ s.volume.tmp, f.Settled
  | .truncate => ∀ version ∈ s.volume.renamed, VersionGives [] s.index.get version
  | _ => True

/-! ## The invariant -/

/-- Which records of the log are durable: those of `log`, or, while a truncation is not
    durable, those of a log from before it. -/
def Held (s : DurableStore) (log : WAL.Log) (m : Bytes → Option Bytes) : Prop :=
  if s.volume.wal.truncating = true then
    log = [] ∧ ∃ old, s.volume.wal.durable = WAL.logBytes old ∧
      (∀ entry ∈ old, WAL.Fits entry.1) ∧ ∀ version ∈ s.volume.versions, VersionGives old m version
  else WAL.logBytes log <+: s.volume.wal.durable

/-- What holds while a call is in progress, where `part` is what has been written of its
    record and `m` is the map of the calls that have returned. -/
def PhaseInv (s : DurableStore) (m : Bytes → Option Bytes) (part : Bytes) : Prop :=
  match s.phase with
  | .idle => part = []
  | .appending update left =>
    WAL.Fits (record update) ∧ ∃ padding, part ++ left = WAL.encode padding (record update)
  | .logged update =>
    WAL.Fits (record update) ∧ s.volume.wal.Settled ∧
      ∃ padding, part = WAL.encode padding (record update)
  | .writing entries left =>
    part = [] ∧ ListsMap m (fun _ => True) entries ∧ entries.length ≤ maxEntries ∧
      ∃ f, s.volume.tmp = some f ∧ f.written ++ left = snapshotBytes entries
  | .renamed => part = [] ∧ VersionGives [] m s.volume.snapshot
  | .resetting => part = [] ∧ VersionGives [] m s.volume.snapshot ∧ s.volume.wal.Settled

/-- The invariant of the runs whose steps meet the condition. -/
structure Inv (start : Bytes → Option Bytes) (s : DurableStore) : Prop where
  walEnabled : s.options.enableWal = true
  index : s.index.get = s.map start
  fits : ∀ {key value}, s.map start key = some value → FitsPair (key, value)
  log : ∃ log part, s.volume.wal.written = WAL.logBytes log ++ part ∧
    (∀ entry ∈ log, WAL.Fits entry.1) ∧
    (∀ version ∈ s.volume.versions, VersionGives log (s.map start) version) ∧
    s.Held log (s.map start) ∧ s.PhaseInv (s.map start) part

/-! ## What a power cut leaves -/

/-- What a power cut leaves of a version of the snapshot. -/
private theorem VersionGives.survives {log : WAL.Log} {m : Bytes → Option Bytes}
    {version : Option (DurableFile UInt8)} (h : VersionGives log m version) {file : Option Bytes}
    (hsurvives : Volume.Survives version file) :
    ∃ base, SnapshotHolds file base ∧ recovered base log = m := by
  obtain ⟨hsettled, base, hholds, hrecovered⟩ := h
  cases version with
  | none =>
    rw [show file = none from hsurvives]
    exact ⟨base, hholds, hrecovered⟩
  | some f =>
    obtain ⟨bytes, rfl, hbytes⟩ := hsurvives
    obtain rfl := (hsettled f rfl).survives_iff.mp hbytes
    exact ⟨base, hholds, hrecovered⟩

/-- The record in flight is the one that the phase says. -/
private theorem PhaseInv.part {s : DurableStore} {m : Bytes → Option Bytes} {part : Bytes}
    (h : s.PhaseInv m part) :
    part = [] ∨ ∃ update padding, s.inFlight = some update ∧ WAL.Fits (record update) ∧
      part <+: WAL.encode padding (record update) := by
  -- only a `Put` or `Delete` in progress has bytes in the file that are not part of the log
  unfold PhaseInv at h
  unfold inFlight
  cases hphase : s.phase with
  | idle =>
    rw [hphase] at h
    exact .inl h
  | appending update left =>
    rw [hphase] at h
    obtain ⟨hfits, padding, hpart⟩ := h
    exact .inr ⟨update, padding, rfl, hfits, left, hpart⟩
  | logged update =>
    rw [hphase] at h
    obtain ⟨hfits, -, padding, rfl⟩ := h
    exact .inr ⟨update, padding, rfl, hfits, List.prefix_rfl⟩
  | writing entries left =>
    rw [hphase] at h
    exact .inl h.1
  | renamed =>
    rw [hphase] at h
    exact .inl h.1
  | resetting =>
    rw [hphase] at h
    exact .inl h.1

/-- A beginning of the log with the whole records of `log` in it: the record in flight is
    either torn or there. -/
private theorem recovers_of_part {start : Bytes → Option Bytes} {s : DurableStore} {disk : Disk}
    (henabled : s.options.enableWal = true) {log : WAL.Log} {part torn : Bytes}
    (hfits : ∀ entry ∈ log, WAL.Fits entry.1)
    (hsnapshot : ∃ base, SnapshotHolds disk.snapshot base ∧ recovered base log = s.map start)
    (hphase : s.PhaseInv (s.map start) part) (hwal : disk.wal = WAL.logBytes log ++ torn)
    (htorn : torn <+: part) : s.Recovers start disk := by
  obtain ⟨base, hholds, hrecovered⟩ := hsnapshot
  intro coins
  by_cases hnil : torn = []
  · subst hnil
    rw [List.append_nil] at hwal
    obtain ⟨index, hconstruct, hget⟩ := construct_eq ⟨hholds, hwal, hfits⟩ henabled coins
    exact ⟨_, hconstruct, .inl (hget.trans hrecovered)⟩
  · obtain hpart | ⟨update, padding, hflight, hupdate, hpart⟩ := hphase.part
    · rw [hpart] at htorn
      exact absurd (List.prefix_nil.mp htorn) hnil
    · have hpre := htorn.trans hpart
      have hall : ∀ entry ∈ log ++ [(record update, padding)], WAL.Fits entry.1 := by
        intro entry hentry
        rcases List.mem_append.mp hentry with hentry | hentry
        · exact hfits entry hentry
        · rw [List.mem_singleton.mp hentry]
          exact hupdate
      rcases Nat.lt_or_eq_of_le hpre.length_le with hlt | heq
      · -- the record in flight is torn
        obtain ⟨index, hconstruct, hget⟩ :=
          construct_torn hholds hwal hall ⟨hpre, hlt⟩ henabled coins
        exact ⟨_, hconstruct, .inl (hget.trans hrecovered)⟩
      · -- the record in flight is there
        have hwhole : disk.wal = WAL.logBytes (log ++ [(record update, padding)]) := by
          rw [hwal, hpre.eq_of_length heq]
          simp [WAL.logBytes, WAL.encodeEntry]
        obtain ⟨index, hconstruct, hget⟩ := construct_eq ⟨hholds, hwhole, hall⟩ henabled coins
        rw [recovered_append, hrecovered] at hget
        exact ⟨_, hconstruct, .inr ⟨update, hflight, hget⟩⟩

/-- Whatever a power cut leaves, it can be recovered from. -/
theorem Inv.recovers {start : Bytes → Option Bytes} {s : DurableStore} (h : s.Inv start)
    {disk : Disk} (hleaves : s.volume.Leaves disk) : s.Recovers start disk := by
  obtain ⟨log, part, hwritten, hfits, hgives, hheld, hphase⟩ := h.log
  obtain ⟨version, hversion, hsurvives⟩ := hleaves.snapshot
  have hwal := hleaves.wal
  have hsnapshot := (hgives version hversion).survives hsurvives
  unfold Held at hheld
  unfold DurableFile.Survives at hwal
  split at hwal
  · rename_i htruncating
    rw [if_pos htruncating] at hheld
    obtain ⟨rfl, old, hold, hfitsOld, hgivesOld⟩ := hheld
    rcases hwal with hwal | hwal
    · -- the truncation is lost, and the log from before it is replayed
      obtain ⟨base, hholds, hrecovered⟩ := (hgivesOld version hversion).survives hsurvives
      intro coins
      obtain ⟨index, hconstruct, hget⟩ :=
        construct_eq ⟨hholds, hwal.trans hold, hfitsOld⟩ h.walEnabled coins
      exact ⟨_, hconstruct, .inl (hget.trans hrecovered)⟩
    · -- the truncation is there
      rw [hwritten] at hwal
      exact recovers_of_part h.walEnabled hfits hsnapshot hphase rfl hwal
  · rename_i hfixed
    rw [if_neg hfixed] at hheld
    obtain ⟨hdurable, hle⟩ := hwal
    obtain ⟨torn, htorn⟩ := hheld.trans hdurable
    rw [hwritten, ← htorn] at hle
    exact recovers_of_part h.walEnabled hfits hsnapshot hphase htorn.symm
      ((List.prefix_append_right_inj _).mp hle)

/-! ## What becomes durable by itself -/

section

variable {start : Bytes → Option Bytes} {s : DurableStore}

/-- Nothing is left to become durable in a version of the snapshot. -/
private theorem VersionGives.persists {log : WAL.Log} {m : Bytes → Option Bytes}
    {f g : DurableFile UInt8} (h : VersionGives log m (some f))
    (hpersists : DurableFile.Persists f g) : VersionGives log m (some g) := by
  obtain ⟨hsettled, base, hholds, hrecovered⟩ := h
  obtain ⟨hsettled', hwritten⟩ := (hsettled f rfl).persists hpersists
  constructor
  · intro f' hf'
    obtain rfl := Option.some.inj hf'
    exact hsettled'
  · rw [Option.map_some, ← hwritten] at hholds
    exact ⟨base, hholds, hrecovered⟩

/-- The invariant when something has become durable by itself. -/
private theorem Inv.persist (h : s.Inv start) {volume : Volume}
    (hwritten : volume.wal.written = s.volume.wal.written)
    (hwal : s.volume.wal = volume.wal ∨ DurableFile.Persists s.volume.wal volume.wal)
    (hversions : ∀ version' ∈ volume.versions, ∃ version ∈ s.volume.versions,
      ∀ log m, VersionGives log m version → VersionGives log m version')
    (hsnapshot : ∀ log m, VersionGives log m s.volume.snapshot → VersionGives log m volume.snapshot)
    (htmp : ∀ f, s.volume.tmp = some f → ∃ g, volume.tmp = some g ∧ g.written = f.written) :
    (s.withVolume volume s.phase).Inv start := by
  obtain ⟨log, part, hlog, hfits, hgives, hheld, hphase⟩ := h.log
  have hgives' {log : WAL.Log} {m : Bytes → Option Bytes}
      (h : ∀ version ∈ s.volume.versions, VersionGives log m version) :
      ∀ version ∈ volume.versions, VersionGives log m version := by
    intro version' hversion'
    obtain ⟨version, hversion, hgives⟩ := hversions version' hversion'
    exact hgives log m (h version hversion)
  have hsettled (h : s.volume.wal.Settled) : volume.wal.Settled := by
    rcases hwal with hwal | hwal
    · rw [← hwal]
      exact h
    · exact (h.persists hwal).1
  refine ⟨h.walEnabled, h.index, h.fits, log, part, hwritten.trans hlog, hfits, hgives' hgives,
    ?_, ?_⟩
  · unfold Held at hheld ⊢
    show if volume.wal.truncating = true then _ else WAL.logBytes log <+: volume.wal.durable
    rcases hwal with hwal | hwal
    · rw [hwal] at hheld
      split
      · rename_i htruncating
        rw [if_pos htruncating] at hheld
        obtain ⟨hnil, old, hold, hfitsOld, hgivesOld⟩ := hheld
        exact ⟨hnil, old, hold, hfitsOld, hgives' hgivesOld⟩
      · rename_i hfixed
        rwa [if_neg hfixed] at hheld
    · -- more bytes of the log, or the truncation, are durable
      revert hheld
      generalize hfile : volume.wal = file at hwal ⊢
      cases hwal with
      | bytes hfixed hgrow hle =>
        rw [if_neg (by simp [hfixed]), if_neg (by simp)]
        exact fun hheld => hheld.trans hgrow
      | truncation htruncating =>
        rw [if_pos htruncating, if_neg (by simp)]
        intro hheld
        rw [hheld.1]
        exact List.nil_prefix
  · unfold PhaseInv at hphase ⊢
    show match s.phase with | _ => _
    -- a phase asks for bytes that are durable or written, and neither become fewer
    cases hs : s.phase with
    | idle => rwa [hs] at hphase
    | appending update left => rwa [hs] at hphase
    | logged update =>
      rw [hs] at hphase
      exact ⟨hphase.1, hsettled hphase.2.1, hphase.2.2⟩
    | writing entries left =>
      rw [hs] at hphase
      obtain ⟨hpart, hlists, hcount, f, hf, hbytes⟩ := hphase
      obtain ⟨g, hg, hgbytes⟩ := htmp f hf
      exact ⟨hpart, hlists, hcount, g, hg, hgbytes ▸ hbytes⟩
    | renamed =>
      rw [hs] at hphase
      exact ⟨hphase.1, hsnapshot _ _ hphase.2⟩
    | resetting =>
      rw [hs] at hphase
      exact ⟨hphase.1, hsnapshot _ _ hphase.2.1, hsettled hphase.2.2⟩

/-! ## Steps -/

/-- A record that is appended. -/
private theorem VersionGives.append {log : WAL.Log} {m : Bytes → Option Bytes}
    {version : Option (DurableFile UInt8)} (h : VersionGives log m version)
    (update : Update Bytes Bytes) (padding : Padding) :
    VersionGives (log ++ [(record update, padding)]) (update.apply m) version := by
  obtain ⟨hsettled, base, hholds, hrecovered⟩ := h
  refine ⟨hsettled, base, hholds, ?_⟩
  rw [recovered_append, hrecovered]

/-- A log that is replayed over the map that it gives. -/
private theorem VersionGives.of_snapshot {log : WAL.Log} {m : Bytes → Option Bytes}
    {version version' : Option (DurableFile UInt8)} (h : VersionGives [] m version)
    (hlog : VersionGives log m version') : VersionGives log m version := by
  obtain ⟨hsettled, base, hholds, rfl⟩ := h
  obtain ⟨-, base', -, hrecovered⟩ := hlog
  refine ⟨hsettled, base, hholds, ?_⟩
  show recovered base log = base
  change recovered base' log = base at hrecovered
  rw [← hrecovered]
  exact Update.applyAll_replay base' (updates log)

/-- The keys and values of a map with one more update still fit. -/
theorem fitsPair_apply {m : Bytes → Option Bytes} {update : Update Bytes Bytes}
    (hupdate : WAL.Fits (record update))
    (hfits : ∀ {key value}, m key = some value → FitsPair (key, value)) {key value : Bytes}
    (hget : update.apply m key = some value) : FitsPair (key, value) := by
  rw [Update.apply, Function.update_apply] at hget
  split at hget
  · cases update with
    | put key' value' =>
      obtain rfl := Option.some.inj hget
      subst key
      exact ⟨hupdate.key, hupdate.value⟩
    | delete key' => cases hget
  · exact hfits hget

/-- `Put` or `Delete` returns: its record is part of the log. -/
private theorem Inv.apply (h : s.Inv start) {update : Update Bytes Bytes}
    (hphase : s.phase = .logged update) :
    Inv start { s with
      index := (s.index.update update).2
      phase := .idle
      returned := s.returned ++ [update] } := by
  obtain ⟨log, part, hlog, hfits, hgives, hheld, hphaseInv⟩ := h.log
  unfold PhaseInv at hphaseInv
  rw [hphase] at hphaseInv
  obtain ⟨hupdate, hsettled, padding, hpart⟩ := hphaseInv
  have hmap : Update.applyAll start (s.returned ++ [update]) = update.apply (s.map start) := by
    rw [Update.applyAll_append]
    rfl
  -- the record that was in progress is part of the log from now on
  have hwritten : s.volume.wal.written =
      WAL.logBytes (log ++ [(record update, padding)]) ++ [] := by
    rw [hlog, hpart]
    simp [WAL.logBytes, WAL.encodeEntry]
  refine ⟨h.walEnabled, ?_, ?_, log ++ [(record update, padding)], [], hwritten, ?_, ?_, ?_, rfl⟩
  · show (s.index.update update).2.get = Update.applyAll start _
    rw [Index.get_update, h.index, hmap]
  · intro key value hget
    change Update.applyAll start (s.returned ++ [update]) key = some value at hget
    rw [hmap] at hget
    exact fitsPair_apply hupdate h.fits hget
  · intro entry hentry
    rcases List.mem_append.mp hentry with hentry | hentry
    · exact hfits entry hentry
    · rw [List.mem_singleton.mp hentry]
      exact hupdate
  · intro version hversion
    show VersionGives _ (Update.applyAll start _) version
    rw [hmap]
    exact (hgives version hversion).append update padding
  · unfold Held
    rw [if_neg (by simp [hsettled.1]), hsettled.2, hwritten, List.append_nil]

/-- The snapshot file has its name: it is durable, and gives the whole map. -/
private theorem Inv.rename (h : s.Inv start) (hok : ∀ f ∈ s.volume.tmp, f.Settled)
    {entries : List (Bytes × Bytes)} (hphase : s.phase = .writing entries []) :
    Inv start (s.withVolume
      { s.volume with
        snapshot := s.volume.tmp
        renamed := s.volume.renamed ++ [s.volume.snapshot]
        tmp := none } .renamed) := by
  obtain ⟨log, part, hlog, hfits, hgives, hheld, hphaseInv⟩ := h.log
  unfold PhaseInv at hphaseInv
  rw [hphase] at hphaseInv
  obtain ⟨hpart, hlists, hcount, f, hf, hbytes⟩ := hphaseInv
  rw [List.append_nil] at hbytes
  have hfitsPair : ∀ entry ∈ entries, FitsPair entry := fun entry hentry =>
    h.fits ((hlists.mem_iff entry.1 entry.2).mp hentry).1
  -- the new file holds the whole map, and it is durable
  have hnew : VersionGives [] (s.map start) s.volume.tmp :=
    ⟨hok, s.map start, by rw [hf]; exact ⟨entries, hbytes, hlists, hfitsPair, hcount⟩, rfl⟩
  have hversions {log : WAL.Log}
      (hgives : ∀ version ∈ s.volume.versions, VersionGives log (s.map start) version) :
      ∀ version ∈ s.volume.versions ++ [s.volume.tmp], VersionGives log (s.map start) version := by
    intro version hversion
    rcases List.mem_append.mp hversion with hversion | hversion
    · exact hgives version hversion
    · rw [List.mem_singleton.mp hversion]
      exact hnew.of_snapshot (hgives s.volume.snapshot (by simp [Volume.versions]))
  refine ⟨h.walEnabled, h.index, h.fits, log, part, hlog, hfits, hversions hgives, ?_, hpart, hnew⟩
  unfold Held at hheld ⊢
  show if s.volume.wal.truncating = true then _ else WAL.logBytes log <+: s.volume.wal.durable
  split
  · rename_i htruncating
    rw [if_pos htruncating] at hheld
    obtain ⟨hnil, old, hold, hfitsOld, hgivesOld⟩ := hheld
    exact ⟨hnil, old, hold, hfitsOld, hversions hgivesOld⟩
  · rename_i hfixed
    rwa [if_neg hfixed] at hheld

/-- The log is truncated: every version of the snapshot gives the whole map. -/
private theorem Inv.truncate (h : s.Inv start)
    (hok : ∀ version ∈ s.volume.renamed, VersionGives [] s.index.get version)
    (hphase : s.phase = .resetting) :
    Inv start (s.withVolume { s.volume with wal := s.volume.wal.truncate } .idle) := by
  obtain ⟨log, part, hlog, hfits, hgives, hheld, hphaseInv⟩ := h.log
  unfold PhaseInv at hphaseInv
  rw [hphase] at hphaseInv
  obtain ⟨rfl, hsnapshot, hsettled⟩ := hphaseInv
  rw [List.append_nil] at hlog
  refine ⟨h.walEnabled, h.index, h.fits, [], [], rfl, by simp, ?_, ?_, rfl⟩
  · intro version hversion
    rcases List.mem_append.mp hversion with hversion | hversion
    · have hrenamed := hok version hversion
      rwa [h.index] at hrenamed
    · rw [List.mem_singleton.mp hversion]
      exact hsnapshot
  · -- the old log is durable, and it gives the same map
    exact ⟨rfl, log, hsettled.2.trans hlog, hfits, hgives⟩

/-- Every step that meets the condition keeps the invariant. -/
theorem Inv.step (h : s.Inv start) {label : Label} {t : DurableStore} (hok : s.Ok label)
    (hstep : Step s label t) : t.Inv start := by
  obtain ⟨log, part, hlog, hfits, hgives, hheld, hphaseInv⟩ := h.log
  unfold PhaseInv at hphaseInv
  cases hstep with
  | @append update padding hphase =>
    rw [hphase] at hphaseInv
    obtain rfl := hphaseInv
    exact ⟨h.walEnabled, h.index, h.fits, log, [], hlog, hfits, hgives, hheld, hok, padding, rfl⟩
  | @writeLog update left count hphase =>
    -- more of the record is written
    rw [hphase] at hphaseInv
    obtain ⟨hupdate, padding, hpart⟩ := hphaseInv
    refine ⟨h.walEnabled, h.index, h.fits, log, part ++ left.take count, ?_, hfits, hgives, hheld,
      hupdate, padding, ?_⟩
    · show s.volume.wal.written ++ left.take count = _
      rw [hlog, List.append_assoc]
    · rw [List.append_assoc, List.take_append_drop, hpart]
  | @syncLog update hphase =>
    rw [hphase] at hphaseInv
    obtain ⟨hupdate, padding, hpart⟩ := hphaseInv
    rw [List.append_nil] at hpart
    refine ⟨h.walEnabled, h.index, h.fits, log, part, hlog, hfits, hgives, ?_, hupdate,
      DurableFile.settled_synced _, padding, hpart⟩
    -- the whole record is durable now
    show WAL.logBytes log <+: s.volume.wal.written
    rw [hlog]
    exact List.prefix_append _ _
  | apply hphase => exact h.apply hphase
  | @create entries hphase hentries =>
    rw [hphase] at hphaseInv
    obtain rfl := hphaseInv
    obtain ⟨-, hlists, hcount⟩ := snapshotEntries_cases hentries
    rw [h.index] at hlists
    have htmp : (openTmp s.volume.tmp).written = [] := by
      cases s.volume.tmp <;> rfl
    exact ⟨h.walEnabled, h.index, h.fits, log, [], hlog, hfits, hgives, hheld, rfl, hlists, hcount,
      _, rfl, by rw [htmp, List.nil_append]⟩
  | @writeTmp entries left f count hphase htmp =>
    rw [hphase] at hphaseInv
    obtain ⟨hpart, hlists, hcount, f', hf', hbytes⟩ := hphaseInv
    obtain rfl := Option.some.inj (htmp.symm.trans hf')
    refine ⟨h.walEnabled, h.index, h.fits, log, part, hlog, hfits, hgives, hheld, hpart, hlists,
      hcount, _, rfl, ?_⟩
    show (f.written ++ left.take count) ++ left.drop count = _
    rw [List.append_assoc, List.take_append_drop, hbytes]
  | rename hphase => exact h.rename hok hphase
  | syncReset hphase =>
    rw [hphase] at hphaseInv
    refine ⟨h.walEnabled, h.index, h.fits, log, part, hlog, hfits, hgives, ?_, hphaseInv.1,
      hphaseInv.2, DurableFile.settled_synced _⟩
    show WAL.logBytes log <+: s.volume.wal.written
    -- the whole log is durable before it is truncated
    rw [hlog]
    exact List.prefix_append _ _
  | truncate hphase => exact h.truncate hok hphase
  | @persistLog f hpersists =>
    exact h.persist hpersists.written_eq (.inr hpersists) (fun version hversion =>
      ⟨version, hversion, fun _ _ => id⟩) (fun _ _ => id) fun f hf => ⟨f, hf, rfl⟩
  | @persistSnapshot f g hsnapshot hpersists =>
    refine h.persist rfl (.inl rfl) (fun version hversion => ?_) (fun log m hgives => ?_)
      fun f hf => ⟨f, hf, rfl⟩
    · rcases List.mem_append.mp hversion with hversion | hversion
      · exact ⟨version, List.mem_append_left _ hversion, fun _ _ => id⟩
      · rw [List.mem_singleton.mp hversion]
        refine ⟨some f, by simp [Volume.versions, hsnapshot], fun _ _ hgives => ?_⟩
        exact hgives.persists hpersists
    · rw [hsnapshot] at hgives
      exact hgives.persists hpersists
  | @persistRenamed f g front back hrenamed hpersists =>
    refine h.persist rfl (.inl rfl) (fun version hversion => ?_) (fun _ _ => id)
      fun f hf => ⟨f, hf, rfl⟩
    unfold Volume.versions at hversion ⊢
    rw [hrenamed]
    -- the version is the one whose bytes have become durable, or another one
    by_cases hg : version = some g
    · rw [hg]
      exact ⟨some f, by simp, fun _ _ hgives => hgives.persists hpersists⟩
    · refine ⟨version, ?_, fun _ _ => id⟩
      simp only [List.mem_append, List.mem_cons, hg, false_or] at hversion ⊢
      tauto
  | @persistTmp f g htmp hpersists =>
    refine h.persist rfl (.inl rfl) (fun version hversion => ⟨version, hversion, fun _ _ => id⟩)
      (fun _ _ => id) fun f' hf' => ?_
    obtain rfl := Option.some.inj (htmp.symm.trans hf')
    exact ⟨g, rfl, hpersists.written_eq⟩
  | persistRename =>
    -- the oldest name can no longer come back
    refine h.persist rfl (.inl rfl) (fun version hversion => ⟨version, ?_, fun _ _ => id⟩)
      (fun _ _ => id) fun f hf => ⟨f, hf, rfl⟩
    rcases List.mem_append.mp hversion with hversion | hversion
    · exact List.mem_append_left _ (List.mem_of_mem_tail hversion)
    · exact List.mem_append_right _ hversion

end

/-! ## Runs -/

/-- A store that has been opened on a disk on which everything is durable. -/
def opened (store : KVStore) : DurableStore where
  options := store.options
  index := store.index
  volume := .ofDisk store.disk

/-- A snapshot file that is durable. -/
private theorem versionGives_ofDisk {disk : Disk} {base : Bytes → Option Bytes} {log : WAL.Log}
    (h : SnapshotHolds disk.snapshot base) :
    VersionGives log (recovered base log) (Volume.ofDisk disk).snapshot := by
  refine ⟨fun f hf => ?_, base, ?_, rfl⟩
  · obtain ⟨file, -, rfl⟩ := Option.map_eq_some_iff.mp hf
    exact DurableFile.settled_synced file
  · show SnapshotHolds ((disk.snapshot.map DurableFile.synced).map DurableFile.written) base
    cases hsnapshot : disk.snapshot with
    | none => rwa [hsnapshot] at h
    | some file => rwa [hsnapshot] at h

/-- A store that has just been opened. -/
theorem inv_opened {options : EngineOptions} (henabled : options.enableWal = true)
    {coins : Nat → Nat → Bool} {disk : Disk} {base : Bytes → Option Bytes} {log : WAL.Log}
    (hstores : Stores disk base log) {store : KVStore}
    (hconstruct : construct options coins disk = .ok store) :
    (opened store).Inv store.get := by
  have hfits {key value : Bytes} (hget : store.get key = some value) : FitsPair (key, value) :=
    fitsPair_of_construct henabled hconstruct hget
  obtain ⟨index, heq, hget⟩ := construct_eq hstores henabled coins
  obtain rfl := Except.ok.inj (heq.symm.trans hconstruct)
  refine ⟨henabled, rfl, hfits, log, [], ?_, hstores.fits, fun version hversion => ?_, ?_, rfl⟩
  · show disk.wal = _
    rw [hstores.wal, List.append_nil]
  · rw [List.mem_singleton.mp hversion]
    show VersionGives log index.get _
    rw [hget]
    exact versionGives_ofDisk hstores.snapshot
  · show WAL.logBytes log <+: disk.wal
    rw [hstores.wal]

/-- At every point of a run whose steps meet the condition, the store that is constructed
    after a power cut holds the calls that have returned, and the call in flight either
    entirely or not at all. -/
theorem recovers_of_durable {options : EngineOptions} (henabled : options.enableWal = true)
    {coins : Nat → Nat → Bool} {disk : Disk} {base : Bytes → Option Bytes} {log : WAL.Log}
    (hstores : Stores disk base log) {store : KVStore}
    (hconstruct : construct options coins disk = .ok store) {s : DurableStore}
    (hrun : Run Step Ok (opened store) s) {left : Disk} (hleaves : s.volume.Leaves left) :
    s.Recovers store.get left :=
  (hrun.invariant (inv_opened henabled hstores hconstruct)
    fun h hok hstep => h.step hok hstep).recovers hleaves

/-- `Put` and `Delete` that return normally. -/
theorem run_write (s : DurableStore) (update : Update Bytes Bytes) (hphase : s.phase = .idle)
    (hfits : WAL.Fits (record update)) :
    Run Step Ok s
      { s with
        index := (s.index.update update).2
        volume := { s.volume with
          wal := (s.volume.wal.write (WAL.encode {} (record update))).sync }
        phase := .idle
        returned := s.returned ++ [update] } := by
  let bytes := WAL.encode {} (record update)
  have hcalled : Run Step Ok s { s with phase := .appending update bytes } :=
    Run.refl.tail (Label.append update) hfits (.append {} hphase)
  -- the bytes of the record are written at once
  have hwritten := Step.writeLog (s := { s with phase := .appending update bytes }) bytes.length rfl
  rw [List.take_length, List.drop_length] at hwritten
  have hsynced := (hcalled.tail Label.writeLog trivial hwritten).tail Label.syncLog trivial (.syncLog rfl)
  exact hsynced.tail Label.apply trivial (.apply rfl)

/-- `Checkpoint` that returns normally. Its file is durable before the renaming, and the
    renaming before the truncation. -/
theorem run_checkpoint (s : DurableStore) {entries : List (Bytes × Bytes)}
    (hphase : s.phase = .idle) (htmp : s.volume.tmp = none) (hrenamed : s.volume.renamed = [])
    (hentries : snapshotEntries s.index = .ok entries) :
    Run Step Ok s (s.withVolume
      { wal := s.volume.wal.sync.truncate
        snapshot := some (.synced (snapshotBytes entries)) } .idle) := by
  let bytes := snapshotBytes entries
  let file : DurableFile UInt8 := (DurableFile.synced []).write bytes
  let writing (tmp : DurableFile UInt8) (left : Bytes) : DurableStore :=
    s.withVolume { s.volume with tmp := some tmp } (.writing entries left)
  have hcreated := Step.create hphase hentries
  rw [htmp] at hcreated
  have hwritten := Step.writeTmp (s := writing (.synced []) bytes) bytes.length rfl rfl
  rw [List.take_length, List.drop_length] at hwritten
  have hdurable : Step (writing file []) .persistTmp (writing (.synced bytes) []) :=
    .persistTmp rfl (@DurableFile.Persists.bytes _ file bytes rfl List.nil_prefix List.prefix_rfl)
  have hsettled (f : DurableFile UInt8) (hf : f ∈ some (DurableFile.synced bytes)) :
      f.Settled := by
    obtain rfl := Option.some.inj hf
    exact DurableFile.settled_synced bytes
  have hopened : Run Step Ok s (writing (.synced []) bytes) :=
    Run.refl.tail Label.create trivial hcreated
  have hfilled : Run Step Ok s (writing file []) := hopened.tail Label.writeTmp trivial hwritten
  have hrenaming : Run Step Ok s _ :=
    (hfilled.tail Label.persistTmp trivial hdurable).tail Label.rename hsettled (.rename rfl)
  have hreset := (hrenaming.tail Label.persistRename trivial .persistRename).tail Label.syncReset trivial
    (.syncReset rfl)
  -- the name of the snapshot stands for the new file only
  have hversions : ∀ version ∈ (s.volume.renamed ++ [s.volume.snapshot]).tail,
      VersionGives [] s.index.get version := by
    simp [hrenamed]
  have hdone := hreset.tail Label.truncate hversions (.truncate rfl)
  simpa [writing, withVolume, hrenamed] using hdone

/-- A `PUT` and a `CHECKPOINT` that have returned. The truncation of the log has not become
    durable when the power fails. -/
theorem recovers_of_durable_put :
    ∃ s : DurableStore, s.returned = [.put [97] [98]] ∧ s.volume.wal.written = [] ∧
      s.Recovers (fun _ => none)
        { wal := WAL.encode {} (record (.put [97] [98]))
          snapshot := some (snapshotBytes [([97], [98])]) } := by
  let start : DurableStore := opened { index := Index.new fun _ _ => false, disk := {} }
  have hput := run_write start (.put [97] [98]) rfl ⟨by decide, by decide⟩
  have hrun := hput.trans (run_checkpoint _ rfl rfl rfl rfl)
  have hstart : KVStore.get { index := Index.new fun _ _ => false, disk := {} } =
      fun _ => none := Index.get_new _
  have hrecovers : Recovers _ _
      { wal := WAL.encode {} (record (.put [97] [98]))
        snapshot := some (snapshotBytes [([97], [98])]) } :=
    recovers_of_durable rfl stores_empty (construct_empty fun _ _ => false) hrun
      ⟨.inl rfl, _, List.mem_singleton_self _, _, rfl, List.prefix_rfl, List.prefix_rfl⟩
  rw [hstart] at hrecovers
  exact ⟨_, rfl, rfl, hrecovers⟩

section

variable {start : Bytes → Option Bytes} {s t : DurableStore}

/-- The condition on the renaming cannot be dropped. -/
theorem exists_lost_of_rename (h : s.Inv start) (hnot : ¬ s.Ok .rename)
    (hstep : Step s .rename t) :
    ∃ disk, t.volume.Leaves disk ∧ ¬ t.Recovers start disk := by
  obtain ⟨log, part, -, -, -, -, hphaseInv⟩ := h.log
  unfold PhaseInv at hphaseInv
  cases hstep with
  | @rename entries hphase =>
    rw [hphase] at hphaseInv
    obtain ⟨-, hlists, hcount, f, hf, hbytes⟩ := hphaseInv
    rw [List.append_nil] at hbytes
    have hunsettled : ¬ f.Settled := fun hsettled => hnot fun f' hf' => by
      obtain rfl := Option.some.inj (hf.symm.trans hf')
      exact hsettled
    have hfitsPair : ∀ entry ∈ entries, FitsPair entry := fun entry hentry =>
      h.fits ((hlists.mem_iff entry.1 entry.2).mp hentry).1
    -- a power cut may leave a proper beginning of the file
    obtain ⟨bytes, hsurvives, hpre, hlt⟩ : ∃ bytes, f.Survives bytes ∧
        bytes <+: snapshotBytes entries ∧ bytes.length < (snapshotBytes entries).length := by
      -- the truncation or some bytes are not durable
      by_cases htruncating : f.truncating = true
      · refine ⟨[], ?_, List.nil_prefix, ?_⟩
        · rw [DurableFile.Survives, if_pos htruncating]
          exact .inr List.nil_prefix
        · simp [snapshotBytes, snapshotHeaderBytes]
      · have hle := f.consistent (by simpa using htruncating)
        refine ⟨f.durable, ?_, hbytes ▸ hle, ?_⟩
        · rw [DurableFile.Survives, if_neg htruncating]
          exact ⟨List.prefix_rfl, hle⟩
        · rw [← hbytes]
          refine Nat.lt_of_le_of_ne hle.length_le fun heq => hunsettled ⟨?_, ?_⟩
          · simpa using htruncating
          · exact hle.eq_of_length heq
    refine ⟨{ wal := s.volume.wal.written, snapshot := some bytes }, ⟨?_, some f, ?_, bytes, rfl,
      hsurvives⟩, fun hrecovers => ?_⟩
    · show s.volume.wal.Survives s.volume.wal.written
      unfold DurableFile.Survives
      split
      · exact .inr List.prefix_rfl
      · rename_i hfixed
        exact ⟨s.volume.wal.consistent (by simpa using hfixed), List.prefix_rfl⟩
    · rw [← hf]
      exact List.mem_append_right _ (List.mem_singleton_self _)
    · -- the constructor does not accept it
      obtain ⟨store, hconstruct, -⟩ := hrecovers fun _ _ => false
      obtain ⟨error, herror⟩ := loadSnapshotFile_torn
        (snapshotPathFromWalPath s.options.walPath) hfitsPair (lt_of_le_maxEntries hcount) hpre hlt
        (Index.new fun _ _ => false)
      have henabled : (s.withVolume { s.volume with
          snapshot := s.volume.tmp
          renamed := s.volume.renamed ++ [s.volume.snapshot]
          tmp := none } .renamed).options.enableWal = true := h.walEnabled
      have hpath : (s.withVolume { s.volume with
          snapshot := s.volume.tmp
          renamed := s.volume.renamed ++ [s.volume.snapshot]
          tmp := none } .renamed).options.walPath = s.options.walPath := rfl
      simp only [construct, henabled, hpath, herror, if_true] at hconstruct
      cases hconstruct

/-- The condition on the truncation cannot be dropped. -/
theorem exists_lost_of_truncate (h : s.Inv start) (hnot : ¬ s.Ok .truncate)
    (hstep : Step s .truncate t) :
    ∃ disk, t.volume.Leaves disk ∧ ¬ t.Recovers start disk := by
  obtain ⟨log, part, -, -, hgives, -, -⟩ := h.log
  unfold Ok at hnot
  simp only [not_forall] at hnot
  obtain ⟨version, hversion, hlost⟩ := hnot
  obtain ⟨hsettled, base, hholds, -⟩ := hgives version (List.mem_append_left _ hversion)
  cases hstep with
  | truncate hphase =>
    -- a power cut may leave the old file and the empty log
    refine ⟨{ wal := [], snapshot := version.map DurableFile.written },
      ⟨.inr List.prefix_rfl, version, List.mem_append_left _ hversion, ?_⟩, fun hrecovers => ?_⟩
    · cases version with
      | none => rfl
      | some f => exact ⟨f.written, rfl, (hsettled f rfl).survives_iff.mpr rfl⟩
    · obtain ⟨store, hconstruct, hget⟩ := hrecovers fun _ _ => false
      have hstores : Stores { wal := [], snapshot := version.map DurableFile.written } base [] :=
        ⟨hholds, rfl, by simp⟩
      obtain ⟨index, heq, hbase⟩ := construct_eq hstores h.walEnabled fun _ _ => false
      obtain rfl := Except.ok.inj (heq.symm.trans hconstruct)
      rcases hget with hget | ⟨update, hflight, -⟩
      · refine hlost ⟨hsettled, base, hholds, ?_⟩
        rw [h.index]
        exact hbase.symm.trans hget
      · cases hflight

end

/-! ## The calls are sequences of steps -/

/-- `Put` and `Delete` that return normally. -/
theorem exists_run_write {s : DurableStore} {update : Update Bytes Bytes} {padding : Padding}
    {writes : List WAL.WriteOutcome} {store : KVStore} {changed : Bool}
    (henabled : s.options.enableWal = true) (hphase : s.phase = .idle)
    (hwrite : s.store.write padding update writes none = (store, .ok changed)) :
    ∃ t, Run Step (fun _ _ => True) s t ∧ t.store = store ∧ t.phase = .idle ∧
      t.returned = s.returned ++ [update] ∧ t.volume.renamed = s.volume.renamed ∧
      t.volume.snapshot = s.volume.snapshot := by
  let bytes := WAL.encode padding (record update)
  unfold KVStore.write at hwrite
  split at hwrite
  · cases hwrite
  · rename_i logged happend
    cases hwrite
    obtain rfl := appendRecord_eq henabled happend
    -- the bytes of the record are written at once
    have hcalled : Step s (.append update) { s with phase := .appending update bytes } :=
      .append padding hphase
    have hwritten : Step { s with phase := .appending update bytes } .writeLog
        (s.withVolume { s.volume with wal := s.volume.wal.write bytes } (.appending update [])) := by
      have hstep := Step.writeLog (s := { s with phase := .appending update bytes })
        bytes.length rfl
      rwa [List.take_length, List.drop_length] at hstep
    have hrun : Run Step (fun _ _ => True) s _ :=
      (((Run.refl.tail _ trivial hcalled).tail _ trivial hwritten).tail _ trivial
        (.syncLog rfl)).tail _ trivial (.apply rfl)
    exact ⟨_, hrun, rfl, rfl, rfl, rfl, rfl⟩

/-- `Checkpoint` that returns `true`. Nothing of what it does need be durable. -/
theorem exists_run_checkpoint {s : DurableStore} {store : KVStore} (hphase : s.phase = .idle)
    (hcheckpoint : s.store.checkpoint = (store, .ok true)) :
    ∃ t, Run Step (fun _ _ => True) s t ∧ t.store = store ∧ t.phase = .idle ∧
      t.returned = s.returned ∧ t.volume.renamed = s.volume.renamed ++ [s.volume.snapshot] ∧
      t.volume.wal.truncating = true := by
  unfold checkpoint at hcheckpoint
  split at hcheckpoint
  · split at hcheckpoint
    · cases hcheckpoint
    · rename_i entries hentries
      cases hcheckpoint
      let tmp := openTmp s.volume.tmp
      have hempty : tmp.written = [] := by
        show (openTmp s.volume.tmp).written = []
        cases s.volume.tmp <;> rfl
      have hcreated : Step s .create (s.withVolume { s.volume with tmp := some tmp }
          (.writing entries (snapshotBytes entries))) := .create hphase hentries
      -- the bytes of the file are written at once
      have hwritten : Step (s.withVolume { s.volume with tmp := some tmp }
          (.writing entries (snapshotBytes entries))) .writeTmp
          (s.withVolume { s.volume with tmp := some (tmp.write (snapshotBytes entries)) }
            (.writing entries [])) := by
        have hstep := Step.writeTmp (s := s.withVolume { s.volume with tmp := some tmp }
          (.writing entries (snapshotBytes entries))) (snapshotBytes entries).length rfl rfl
        rwa [List.take_length, List.drop_length] at hstep
      have hrun : Run Step (fun _ _ => True) s _ :=
        ((((Run.refl.tail _ trivial hcreated).tail _ trivial hwritten).tail _ trivial
          (.rename rfl)).tail _ trivial (.syncReset rfl)).tail _ trivial (.truncate rfl)
      refine ⟨_, hrun, ?_, rfl, rfl, rfl, rfl⟩
      have hbytes : (tmp.write (snapshotBytes entries)).written = snapshotBytes entries := by
        show tmp.written ++ _ = _
        rw [hempty, List.nil_append]
      show KVStore.mk s.options s.index { wal := [], snapshot := some (tmp.write _).written } = _
      rw [hbytes]
      simp only [writeTmp, renameTmp, resetWal, List.take_length]
      rfl
  · cases hcheckpoint

/-- A `Put` and a `Checkpoint` have returned. Nothing of the snapshot file is durable, nor is
    its renaming, but the truncation of the log is: after the power cut both are gone. -/
theorem powerCut_loses_put :
    ∃ s, Run Step (fun _ _ => True)
        (opened { index := Index.new fun _ _ => false, disk := {} }) s ∧
      s.phase = .idle ∧ s.returned = [.put [97] [98]] ∧ s.volume.Leaves {} ∧
      ¬ s.Recovers (fun _ => none) {} := by
  let start : DurableStore := opened { index := Index.new fun _ _ => false, disk := {} }
  have hwrite : start.store.write {} (.put [97] [98]) [] none =
      ((start.store.write {} (.put [97] [98]) [] none).1, .ok true) := rfl
  obtain ⟨s, hrun, hstore, hidle, hreturned, hrenamed, hsnapshot⟩ :=
    exists_run_write rfl rfl hwrite
  have hlists : ListsMap s.store.index.get (fun _ => True) [([97], [98])] := by
    have hone := ListsMap.singleton ([97] : Bytes) ([98] : Bytes)
    rw [hstore]
    show ListsMap ((Index.new fun _ _ => false).put [97] [98]).2.get _ _
    rwa [Index.get_put, Index.get_new]
  have hentries := snapshotEntries_eq hlists (by decide)
  have henabled : s.store.options.enableWal = true := by rw [hstore]; rfl
  have hcheckpoint : s.store.checkpoint = ({ s.store with disk := resetWal (renameTmp
      (writeTmp s.store.disk [([97], [98])] (snapshotBytes [([97], [98])]).length)) },
      .ok true) := by
    simp only [checkpoint, henabled, if_true, hentries]
  obtain ⟨t, hrun', hstore', hidle', hreturned', hrenamed', htruncating⟩ :=
    exists_run_checkpoint hidle hcheckpoint
  have hreturned : t.returned = [.put [97] [98]] := hreturned'.trans hreturned
  refine ⟨t, hrun.trans hrun', hidle', hreturned, ⟨?_, none, ?_, rfl⟩, fun hrecovers => ?_⟩
  · rw [DurableFile.Survives, if_pos htruncating]
    exact .inr List.nil_prefix
  · have hold : s.volume.snapshot = none := hsnapshot
    rw [Volume.versions, hrenamed', hold]
    simp
  · -- the store that is constructed is empty
    obtain ⟨store, hconstruct, hget⟩ := hrecovers fun _ _ => false
    have hoptions := congrArg KVStore.options hstore'
    change t.options = s.store.options at hoptions
    rw [← hoptions] at henabled
    obtain ⟨index, heq, hnone⟩ := construct_eq stores_empty henabled fun _ _ => false
    obtain rfl := Except.ok.inj (heq.symm.trans hconstruct)
    rcases hget with hget | ⟨update, hflight, -⟩
    · have hkey := congrFun (hnone.symm.trans hget) [97]
      rw [DurableStore.map, hreturned] at hkey
      cases hkey
    · rw [inFlight, hidle'] at hflight
      cases hflight

end KvStore.DurableStore
