import KvStore.Spec.KVStoreRecovery
import Mathlib.Logic.Relation

/-!
# Crashes and restarts

A `Session` is a store that serves one call after another, together with the updates whose
records have been appended since the beginning. `Session.Step` are the steps that its
calls consist of, and a restart at any point between two of them. `recovery_eq_history`
says that the store that is constructed from the files of any session holds the map of
these updates.
-/

namespace KvStore.KVStore

/-- Where the call in progress is. -/
inductive Phase where
  /-- No call is in progress. -/
  | idle
  /-- `Put` or `Delete`, between the log and the index. -/
  | logged (update : Update Bytes Bytes)
  /-- `WriteSnapshotFile`, while it writes the temporary file. -/
  | writing (entries : List (Bytes × Bytes))
  /-- `Checkpoint`, between the renaming and `Reset`. -/
  | renamed

/-- A store, the call in progress, and the updates that have been appended so far. -/
structure Session where
  store : KVStore
  phase : Phase := .idle
  history : List (Update Bytes Bytes) := []

namespace Session

/-- The session with other files. -/
def withDisk (s : Session) (disk : Disk) (phase : Phase) : Session :=
  { s with store := { s.store with disk }, phase }

/-- One step of a session in which no call on a file fails. -/
inductive Step : Session → Session → Prop where
  /-- `Put` or `Delete` appends its record. -/
  | append {s : Session} {store : KVStore} (update : Update Bytes Bytes) (padding : Padding)
      (writes : List WAL.WriteOutcome) (hphase : s.phase = .idle)
      (hfits : WAL.Fits (record update))
      (happend : s.store.appendRecord padding update writes none = (store, .ok ())) :
      Step s { store, phase := .logged update, history := s.history ++ [update] }
  /-- It updates the index and returns. -/
  | apply {s : Session} {update : Update Bytes Bytes} (hphase : s.phase = .logged update) :
      Step s { s with store := (s.store.applyUpdate update).2, phase := .idle }
  /-- `Checkpoint` takes the entries and creates the temporary file. -/
  | create {s : Session} {entries : List (Bytes × Bytes)} (hphase : s.phase = .idle)
      (hentries : snapshotEntries s.store.index = .ok entries) :
      Step s (s.withDisk (writeTmp s.store.disk entries 0) (.writing entries))
  /-- Some of the bytes of the temporary file are written out. -/
  | flush {s : Session} {entries : List (Bytes × Bytes)} (written : Nat)
      (hphase : s.phase = .writing entries) :
      Step s (s.withDisk (writeTmp s.store.disk entries written) (.writing entries))
  /-- The whole temporary file becomes the snapshot. -/
  | rename {s : Session} {entries : List (Bytes × Bytes)} (hphase : s.phase = .writing entries)
      (htmp : s.store.disk.tmp = some (snapshotBytes entries)) :
      Step s (s.withDisk (renameTmp s.store.disk) .renamed)
  /-- `Reset` truncates the log, and `Checkpoint` returns. -/
  | reset {s : Session} (hphase : s.phase = .renamed) :
      Step s (s.withDisk (resetWal s.store.disk) .idle)
  /-- The process ends wherever it is, and a store is constructed from the files. -/
  | restart {s : Session} {store : KVStore} (coins : Nat → Nat → Bool)
      (hconstruct : construct s.store.options coins s.store.disk = .ok store) :
      Step s { s with store, phase := .idle }

/-- The map of the updates that have been appended. -/
def map (s : Session) : Bytes → Option Bytes :=
  Update.applyAll (fun _ => none) s.history

/-- What holds of the index, and of the snapshot `base`, while a call is in progress. -/
def PhaseInv (s : Session) (base : Bytes → Option Bytes) : Prop :=
  match s.phase with
  | .idle => s.store.index.get = s.map
  | .logged update => update.apply s.store.index.get = s.map
  | .writing entries => s.store.index.get = s.map ∧ ListsMap s.map (fun _ => True) entries ∧
      entries.length ≤ maxEntries
  | .renamed => s.store.index.get = s.map ∧ base = s.map

/-- The snapshot and the log hold the map of the appended updates. -/
structure Inv (s : Session) : Prop where
  walEnabled : s.store.options.enableWal = true
  fits : ∀ update ∈ s.history, WAL.Fits (record update)
  stores : ∃ base log, Stores s.store.disk base log ∧ recovered base log = s.map ∧
    s.PhaseInv base

/-- The entries of the index fit the snapshot file. -/
theorem Inv.fitsPair {s : Session} (h : s.Inv) {entries : List (Bytes × Bytes)}
    (hlists : ListsMap s.map (fun _ => True) entries) : ∀ entry ∈ entries, FitsPair entry := by
  intro entry hentry
  have hmap := ((hlists.mem_iff entry.1 entry.2).mp hentry).1
  have hput : Update.put entry.1 entry.2 ∈ s.history :=
    (Update.put_mem_of_applyAll hmap).resolve_left nofun
  exact ⟨(h.fits _ hput).key, (h.fits _ hput).value⟩

/-- A new update is applied on top of the others. -/
private theorem applyAll_concat (history : List (Update Bytes Bytes))
    (update : Update Bytes Bytes) :
    Update.applyAll (fun _ => none) (history ++ [update]) =
      update.apply (Update.applyAll (fun _ => none) history) := by
  rw [Update.applyAll_append]
  rfl

/-- Every step keeps the invariant. -/
theorem Inv.step {s t : Session} (h : s.Inv) (hstep : Step s t) : t.Inv := by
  obtain ⟨base, log, hstores, hrecovered, hphase⟩ := h.stores
  unfold PhaseInv at hphase
  cases hstep with
  | append update padding writes hidle hfits happend =>
    rw [hidle] at hphase
    obtain rfl := appendRecord_eq h.walEnabled happend
    refine ⟨h.walEnabled, ?_, base, log ++ [(record update, padding)],
      hstores.append (record update, padding) hfits, ?_, ?_⟩
    · intro u hu
      rcases List.mem_append.mp hu with hu | hu
      · exact h.fits u hu
      · rw [List.mem_singleton.mp hu]
        exact hfits
    · rw [recovered_append, hrecovered]
      exact (applyAll_concat s.history update).symm
    · show update.apply s.store.index.get = _
      rw [hphase]
      exact (applyAll_concat s.history update).symm
  | @apply update hlogged =>
    rw [hlogged] at hphase
    refine ⟨h.walEnabled, h.fits, base, log, hstores, hrecovered, ?_⟩
    show (s.store.index.update update).2.get = _
    rw [Index.get_update]
    -- the log has held the update since it was appended
    exact hphase
  | @create entries hidle hentries =>
    rw [hidle] at hphase
    unfold snapshotEntries at hentries
    split at hentries
    · cases hentries
    · rename_i hcount
      obtain rfl := Except.ok.inj hentries
      have hlists := s.store.index.lists_snapshot
      rw [hphase] at hlists
      have hlength := s.store.index.length_snapshot
      exact ⟨h.walEnabled, h.fits, base, log, hstores.writeTmp _ _, hrecovered, hphase, hlists,
        by omega⟩
  | @flush entries written hwriting =>
    rw [hwriting] at hphase
    exact ⟨h.walEnabled, h.fits, base, log, hstores.writeTmp _ _, hrecovered, hphase⟩
  | @rename entries hwriting htmp =>
    rw [hwriting] at hphase
    obtain ⟨hindex, hlists, hcount⟩ := hphase
    refine ⟨h.walEnabled, h.fits, s.map, log,
      hstores.renameTmp hlists (h.fitsPair hlists) hcount htmp, ?_, hindex, rfl⟩
    -- the log is replayed over a snapshot that already contains it
    show Update.applyAll s.map (updates log) = s.map
    rw [← hrecovered]
    exact Update.applyAll_replay base (updates log)
  | reset hrenamed =>
    rw [hrenamed] at hphase
    exact ⟨h.walEnabled, h.fits, base, [], hstores.resetWal, hphase.2, hphase.1⟩
  | restart coins hconstruct =>
    obtain ⟨index, heq, hget⟩ := construct_eq hstores h.walEnabled coins
    obtain rfl := Except.ok.inj (heq.symm.trans hconstruct)
    exact ⟨h.walEnabled, h.fits, base, log, hstores, hrecovered, hget.trans hrecovered⟩

/-- A session that starts in an empty directory. -/
theorem inv_start {options : EngineOptions} (hwal : options.enableWal = true)
    {coins : Nat → Nat → Bool} {store : KVStore}
    (hconstruct : construct options coins {} = .ok store) : Inv { store } := by
  obtain ⟨index, heq, hget⟩ := construct_eq stores_empty hwal coins
  obtain rfl := Except.ok.inj (heq.symm.trans hconstruct)
  exact ⟨hwal, by simp, _, [], stores_empty, rfl, hget⟩

/-- The invariant holds in every session. -/
theorem inv_of_reach {options : EngineOptions} (hwal : options.enableWal = true)
    {coins : Nat → Nat → Bool} {store : KVStore}
    (hconstruct : construct options coins {} = .ok store) {s : Session}
    (hreach : Relation.ReflTransGen Step { store } s) : s.Inv := by
  induction hreach with
  | refl => exact inv_start hwal hconstruct
  | tail _ hstep ih => exact ih.step hstep

/-! ## The calls are sequences of steps -/

/-- `Put` and `Delete` that return normally. -/
theorem reach_write {s : Session} {update : Update Bytes Bytes} {padding : Padding}
    {writes : List WAL.WriteOutcome} {store : KVStore} {changed : Bool}
    (hphase : s.phase = .idle) (hfits : WAL.Fits (record update))
    (hwrite : s.store.write padding update writes none = (store, .ok changed)) :
    Relation.ReflTransGen Step s
      { store, phase := .idle, history := s.history ++ [update] } := by
  unfold write at hwrite
  split at hwrite
  · cases hwrite
  · rename_i logged happend
    cases hwrite
    exact .tail (.single (.append update padding writes hphase hfits happend)) (.apply rfl)

/-- `Checkpoint` that returns normally. -/
theorem reach_checkpoint {s : Session} {store : KVStore} (hphase : s.phase = .idle)
    (hcheckpoint : s.store.checkpoint = (store, .ok true)) :
    Relation.ReflTransGen Step s { s with store, phase := .idle } := by
  unfold checkpoint at hcheckpoint
  split at hcheckpoint
  · split at hcheckpoint
    · cases hcheckpoint
    · rename_i entries hentries
      cases hcheckpoint
      refine .tail (.tail (.tail (.single (.create hphase hentries))
        (.flush (snapshotBytes entries).length rfl)) (.rename rfl ?_)) (.reset rfl)
      exact congrArg some (List.take_of_length_le le_rfl)
  · cases hcheckpoint

/-! ## Recovery -/

/-- At any point of any history of calls, checkpoints and restarts, the store that is
    constructed from the files holds the map of the updates whose records have been
    appended since the beginning; between two calls, so does the store that is running. -/
theorem recovery_eq_history {options : EngineOptions} (hwal : options.enableWal = true)
    {coins : Nat → Nat → Bool} {store : KVStore}
    (hconstruct : construct options coins {} = .ok store) {s : Session}
    (hreach : Relation.ReflTransGen Step { store } s) (coins' : Nat → Nat → Bool) :
    (∃ store', construct s.store.options coins' s.store.disk = .ok store' ∧
      store'.get = Update.applyAll (fun _ => none) s.history) ∧
    (s.phase = .idle → s.store.get = Update.applyAll (fun _ => none) s.history) := by
  have h := inv_of_reach hwal hconstruct hreach
  obtain ⟨base, log, hstores, hrecovered, hphase⟩ := h.stores
  obtain ⟨index, heq, hget⟩ := construct_eq hstores h.walEnabled coins'
  refine ⟨⟨_, heq, hget.trans hrecovered⟩, fun hidle => ?_⟩
  unfold PhaseInv at hphase
  rw [hidle] at hphase
  exact hphase

/-- A pair is put in the snapshot and another one in the log, and the process is started
    again. -/
theorem recovery_eq_history_put :
    ∃ s : Session, s.history = [.put [97] [98], .put [99] [100]] ∧
      s.store.get = Update.applyAll (fun _ => none) s.history ∧
      ∃ store', construct s.store.options (fun _ _ => false) s.store.disk = .ok store' ∧
        store'.get = Update.applyAll (fun _ => none) s.history := by
  let start : KVStore := { index := Index.new fun _ _ => false, disk := {} }
  let first := (start.write {} (.put [97] [98]) [] none).1
  let checked := first.checkpoint.1
  let second := (checked.write {} (.put [99] [100]) [] none).1
  have hfirst : Relation.ReflTransGen Step { store := start }
      { store := first, history := [.put [97] [98]] } :=
    @reach_write { store := start } (.put [97] [98]) {} [] first true rfl
      ⟨by decide, by decide⟩ rfl
  have hchecked : Relation.ReflTransGen Step { store := start }
      { store := checked, history := [.put [97] [98]] } :=
    hfirst.trans (reach_checkpoint rfl rfl)
  have hsecond : Relation.ReflTransGen Step { store := start }
      { store := second, history := [.put [97] [98], .put [99] [100]] } :=
    hchecked.trans (@reach_write { store := checked, history := [.put [97] [98]] }
      (.put [99] [100]) {} [] second true rfl ⟨by decide, by decide⟩ rfl)
  have hempty := construct_empty fun _ _ => false
  -- the snapshot and the log can be opened, and so can the files of the new process
  obtain ⟨⟨third, hconstruct, -⟩, -⟩ := recovery_eq_history rfl hempty hsecond fun _ _ => false
  obtain ⟨hrecovers, hget⟩ :=
    recovery_eq_history rfl hempty (hsecond.tail (.restart _ hconstruct)) fun _ _ => false
  exact ⟨_, rfl, hget rfl, hrecovers⟩

end Session

end KvStore.KVStore
