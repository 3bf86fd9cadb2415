import KvStore.Spec.KVStoreRecovery

/-!
# Writes that fail

A `Put` or `Delete` fails if a call of `::write` or `fsync` does. A failed call must leave
no trace: neither in the index, nor in what a later store recovers from the files. That is
so in a run whose calls are all `Safe` (`traceless_of_safe`); `failed_write_loses_later`
and `failed_fsync_reappears` are runs with one call that is not.
-/

namespace KvStore.KVStore

/-- A call of `Put` or `Delete`, and what the calls on the log file do in it. -/
structure WriteCall where
  update : Update Bytes Bytes
  padding : Padding := {}
  writes : List WAL.WriteOutcome := []
  fsync : Option String := none

namespace WriteCall

/-- The bytes of its record. -/
def bytes (call : WriteCall) : Bytes :=
  WAL.encode call.padding (record call.update)

/-- How many of them reach the file. -/
def accepted (call : WriteCall) : Nat :=
  WAL.accepted call.writes call.bytes.length

end WriteCall

/-- Calls one after another: the store afterwards, and the updates of the calls that have
    returned normally. -/
def runWrites (store : KVStore) : List WriteCall → KVStore × List (Update Bytes Bytes)
  | [] => (store, [])
  | call :: calls =>
    match store.write call.padding call.update call.writes call.fsync with
    | (store, .error _) => store.runWrites calls
    | (store, .ok _) =>
      let (store, returned) := store.runWrites calls
      (store, call.update :: returned)

/-- After the calls, the index holds the updates of those that returned normally, and
    every store that is constructed from the files holds the same map. -/
def Traceless (store : KVStore) (calls : List WriteCall) : Prop :=
  (store.runWrites calls).1.get = Update.applyAll store.get (store.runWrites calls).2 ∧
    ∀ coins, ∃ store', construct store.options coins (store.runWrites calls).1.disk =
      .ok store' ∧ store'.get = (store.runWrites calls).1.get

/-- The log file consists of whole records. -/
def Whole (wal : Bytes) : Prop :=
  ∃ log, wal = WAL.logBytes log ∧ ∀ entry ∈ log, WAL.Fits entry.1

/-- Either no byte of the record reaches the file; or the log consists of whole records
    before, the sizes fit the header, and if the whole record reaches the file, it is
    synchronised or the update changes nothing. -/
def Safe (store : KVStore) (call : WriteCall) : Prop :=
  call.accepted = 0 ∨
    Whole store.disk.wal ∧ WAL.Fits (record call.update) ∧
      (call.accepted < call.bytes.length ∨ call.fsync = none ∨
        call.update.apply store.get = store.get)

/-- Every call of a run is safe when it is made. -/
def SafeRun (store : KVStore) : List WriteCall → Prop
  | [] => True
  | call :: calls => Safe store call ∧
      SafeRun (store.write call.padding call.update call.writes call.fsync).1 calls

/-! ## One call -/

/-- What a call does: it returns after the whole record has been written and synchronised
    and updates the index, or it fails and leaves what was accepted of the record. -/
theorem write_cases {store : KVStore} (henabled : store.options.enableWal = true)
    (call : WriteCall) :
    (call.accepted = call.bytes.length ∧ call.fsync = none ∧
      ∃ changed, store.write call.padding call.update call.writes call.fsync =
        ({ store with
            index := (store.index.update call.update).2
            disk := { store.disk with wal := store.disk.wal ++ call.bytes } }, .ok changed)) ∨
    (¬ (call.accepted = call.bytes.length ∧ call.fsync = none) ∧
      ∃ error, store.write call.padding call.update call.writes call.fsync =
        ({ store with disk :=
            { store.disk with wal := store.disk.wal ++ call.bytes.take call.accepted } },
          .error error)) := by
  obtain ⟨hfile, hok⟩ := WAL.append_eq store.disk.wal call.padding (record call.update)
    call.writes call.fsync
  change _ = store.disk.wal ++ call.bytes.take call.accepted at hfile
  change _ ↔ call.accepted = call.bytes.length ∧ _ at hok
  -- whatever happens, the accepted bytes are in the file
  have happend : store.appendRecord call.padding call.update call.writes call.fsync =
      ({ store with disk :=
          { store.disk with wal := store.disk.wal ++ call.bytes.take call.accepted } },
        (WAL.append store.disk.wal call.padding (record call.update) call.writes
          call.fsync).2) := by
    unfold appendRecord
    rw [if_pos henabled, ← hfile]
  unfold write
  rw [happend]
  -- the call returns exactly if all bytes were accepted and the `fsync` succeeded
  cases hresult : (WAL.append store.disk.wal call.padding (record call.update) call.writes
      call.fsync).2 with
  | error error =>
    refine .inr ⟨fun h => ?_, error, rfl⟩
    rw [hok.mpr h] at hresult
    cases hresult
  | ok =>
    obtain ⟨hall, hsync⟩ := hok.mp hresult
    refine .inl ⟨hall, hsync, (store.index.update call.update).1, ?_⟩
    rw [hall, List.take_length]
    rfl

/-- The snapshot and the whole records of the log hold the map of the index. -/
structure Recoverable (store : KVStore) : Prop where
  walEnabled : store.options.enableWal = true
  files : ∃ base log rest torn, SnapshotHolds store.disk.snapshot base ∧
    store.disk.wal = WAL.logBytes log ++ torn ∧ (∀ entry ∈ log ++ rest, WAL.Fits entry.1) ∧
    Torn WAL.encodeEntry rest torn ∧ recovered base log = store.get

/-- A file of whole records does not end with a torn one. -/
theorem Whole.torn_eq_nil {log rest : WAL.Log} {torn : Bytes}
    (h : Whole (WAL.logBytes log ++ torn)) (hfits : ∀ entry ∈ log ++ rest, WAL.Fits entry.1)
    (htorn : Torn WAL.encodeEntry rest torn) : torn = [] := by
  obtain ⟨log', heq, hfits'⟩ := h
  -- both readings of the file are what `Replay` makes of it
  have hreplay := WAL.replay_torn (fun records record => records ++ [record]) [] hfits htorn
  have hreplay' := WAL.replay_logBytes (fun records record => records ++ [record]) [] hfits'
  rw [← heq, hreplay] at hreplay'
  simp only [Prod.mk.injEq, Except.ok.injEq, ReplayStats.mk.injEq] at hreplay'
  exact List.length_eq_zero_iff.mp hreplay'.2.2

/-- A safe call leaves a recoverable store. -/
theorem Recoverable.write {store : KVStore} (h : Recoverable store) {call : WriteCall}
    (hsafe : Safe store call) :
    Recoverable (store.write call.padding call.update call.writes call.fsync).1 := by
  obtain ⟨base, log, rest, torn, hsnapshot, hwal, hfits, htorn, hrecovered⟩ := h.files
  have hpos : 0 < call.bytes.length := by
    simp only [WriteCall.bytes, WAL.length_encode, WAL.headerSize]
    omega
  have hle : call.accepted ≤ call.bytes.length := (WAL.writeAll_eq _ _).2.1
  -- unless nothing is written, there is no torn record before the call
  have hwhole : call.accepted ≠ 0 → store.disk.wal = WAL.logBytes log ∧
      ∀ entry ∈ log ++ [(record call.update, call.padding)], WAL.Fits entry.1 := by
    intro hne
    obtain ⟨hwhole, hcall, -⟩ := hsafe.resolve_left hne
    rw [hwal] at hwhole
    refine ⟨by rw [hwal, hwhole.torn_eq_nil hfits htorn, List.append_nil], fun entry he => ?_⟩
    rcases List.mem_append.mp he with he | he
    · exact hfits entry (List.mem_append_left rest he)
    · rw [List.mem_singleton.mp he]
      exact hcall
  have hlog : WAL.logBytes log ++ call.bytes =
      WAL.logBytes (log ++ [(record call.update, call.padding)]) ++ [] := by
    simp [WAL.logBytes, WAL.encodeEntry, WriteCall.bytes]
  have hnext := recovered_append base log call.update call.padding
  rw [hrecovered] at hnext
  rcases write_cases h.walEnabled call with
    ⟨hall, hsync, changed, heq⟩ | ⟨hfail, error, heq⟩ <;> rw [heq]
  · -- the call returns: its record and its update are there
    obtain ⟨hwal, hfits⟩ := hwhole (by omega)
    refine ⟨h.walEnabled, base, _, [], [], hsnapshot, (congrArg (· ++ call.bytes) hwal).trans hlog,
      by simpa using hfits, rfl, hnext.trans ?_⟩
    exact (store.index.get_update call.update).symm
  · by_cases hzero : call.accepted = 0
    · -- nothing has been written
      refine ⟨h.walEnabled, base, log, rest, torn, hsnapshot, ?_, hfits, htorn, hrecovered⟩
      rw [hzero, List.take_zero]
      exact (List.append_nil _).trans hwal
    · obtain ⟨hwal, hfits⟩ := hwhole hzero
      rcases Nat.lt_or_eq_of_le hle with hlt | hall
      · -- a part of the record is left behind the log
        refine ⟨h.walEnabled, base, log, [(record call.update, call.padding)],
          call.bytes.take call.accepted, hsnapshot, congrArg (· ++ _) hwal, hfits, ?_, hrecovered⟩
        refine ⟨List.take_prefix _ _, ?_⟩
        rw [List.length_take, Nat.min_eq_left hle]
        exact hlt
      · -- the whole record is left behind the log, but it changes nothing
        have hnoop : call.update.apply store.get = store.get := by
          obtain ⟨-, -, hshort | hsync | hnoop⟩ := hsafe.resolve_left hzero
          · omega
          · exact absurd ⟨hall, hsync⟩ hfail
          · exact hnoop
        rw [hall, List.take_length]
        exact ⟨h.walEnabled, base, _, [], [], hsnapshot, (congrArg (· ++ call.bytes) hwal).trans hlog,
          by simpa using hfits, rfl, hnext.trans hnoop⟩

/-! ## Runs -/

/-- A safe run leaves a recoverable store, and the index holds the updates of the calls that
    returned. -/
theorem Recoverable.runWrites {store : KVStore} (h : Recoverable store)
    {calls : List WriteCall} (hsafe : SafeRun store calls) :
    Recoverable (store.runWrites calls).1 ∧
      (store.runWrites calls).1.options = store.options ∧
      (store.runWrites calls).1.get =
        Update.applyAll store.get (store.runWrites calls).2 := by
  induction calls generalizing store with
  | nil => exact ⟨h, rfl, rfl⟩
  | cons call calls ih =>
    obtain ⟨hcall, hcalls⟩ := hsafe
    obtain ⟨hrec, hoptions, hget⟩ := ih (h.write hcall) hcalls
    unfold KVStore.runWrites
    rcases write_cases h.walEnabled call with
      ⟨-, -, changed, heq⟩ | ⟨-, error, heq⟩ <;> rw [heq] at hrec hoptions hget ⊢
    · refine ⟨hrec, hoptions, hget.trans ?_⟩
      have hupdate := store.index.get_update call.update
      exact congrArg (Update.applyAll · _) hupdate
    · exact ⟨hrec, hoptions, hget⟩

/-- In a run whose calls are all safe, those that fail leave no trace. -/
theorem traceless_of_safe {disk : Disk} {base : Bytes → Option Bytes} {log : WAL.Log}
    (hstores : Stores disk base log) {options : EngineOptions}
    (henabled : options.enableWal = true) {coins : Nat → Nat → Bool} {store : KVStore}
    (hconstruct : construct options coins disk = .ok store) {calls : List WriteCall}
    (hsafe : SafeRun store calls) : Traceless store calls := by
  obtain ⟨index, heq, hget⟩ := construct_eq hstores henabled coins
  obtain rfl := Except.ok.inj (heq.symm.trans hconstruct)
  have hstart : Recoverable { options, index, disk } :=
    ⟨henabled, base, log, [], [], hstores.snapshot, by simpa using hstores.wal,
      by simpa using hstores.fits, rfl, hget.symm⟩
  obtain ⟨hrec, hoptions, hrun⟩ := hstart.runWrites hsafe
  refine ⟨hrun, fun coins' => ?_⟩
  obtain ⟨base', log', rest, torn, hsnapshot, hwal, hfits, htorn, hrecovered⟩ := hrec.files
  obtain ⟨index', heq', hget'⟩ :=
    construct_torn hsnapshot hwal hfits htorn hrec.walEnabled coins'
  rw [hoptions] at heq'
  exact ⟨_, heq', hget'.trans hrecovered⟩

/-- The last part of `Safe` cannot be weakened: a call that fails after its whole record has
    been written leaves a trace if its update changes the map. -/
theorem not_traceless_of_fsync {store : KVStore} (h : Recoverable store) {call : WriteCall}
    (hwhole : Whole store.disk.wal) (hfits : WAL.Fits (record call.update))
    (hall : call.accepted = call.bytes.length) (hsync : call.fsync ≠ none)
    (hchange : call.update.apply store.get ≠ store.get) : ¬ Traceless store [call] := by
  intro htraceless
  obtain ⟨base, log, rest, torn, hsnapshot, hwal, hlog, htorn, hrecovered⟩ := h.files
  rw [hwal] at hwhole
  rw [hwhole.torn_eq_nil hlog htorn, List.append_nil] at hwal
  have hstores : Stores store.disk base log :=
    ⟨hsnapshot, hwal, fun entry he => hlog entry (List.mem_append_left rest he)⟩
  obtain ⟨index, hconstruct, hget⟩ :=
    construct_eq (hstores.append (record call.update, call.padding) hfits)
      h.walEnabled fun _ _ => false
  rw [recovered_append, hrecovered] at hget
  -- the call has failed, but the record is whole and the next start replays it
  rcases write_cases h.walEnabled call with ⟨-, hnone, -⟩ | ⟨-, error, heq⟩
  · exact hsync hnone
  · obtain ⟨store', hstore', hget'⟩ := htraceless.2 fun _ _ => false
    unfold runWrites runWrites at hstore' hget'
    rw [heq] at hstore' hget'
    rw [hall, List.take_length] at hstore'
    obtain rfl := Except.ok.inj (hconstruct.symm.trans hstore')
    exact hchange (hget.symm.trans hget')

/-- A call that returns, and one whose first call of `::write` fails. -/
theorem traceless_of_safe_two :
    Traceless { index := Index.new fun _ _ => false, disk := {} }
      [{ update := .put [97] [98] },
        { update := .delete [97], writes := [.failed "No space left on device"] }] := by
  refine traceless_of_safe stores_empty rfl (construct_empty _) ⟨.inr ⟨?_, ?_, ?_⟩, .inl ?_, ?_⟩
  · exact ⟨[], rfl, by simp⟩
  · exact ⟨by decide, by decide⟩
  · exact .inr (.inl rfl)
  · rfl
  · trivial

/-- A `PUT` that fails after one byte makes the next one, which returns, unrecoverable; and
    a `PUT` whose `fsync` fails is there again after a restart. -/
theorem failed_writes_leave_traces :
    construct {} (fun _ _ => false)
        (KVStore.runWrites { index := Index.new fun _ _ => false, disk := {} }
          [{ update := .put [97] [98], writes := [.wrote 1, .failed "No space left on device"] },
            { update := .put [97] [98] }]).1.disk =
      .error "WAL replay failed: invalid record magic" ∧
    ¬ Traceless { index := Index.new fun _ _ => false, disk := {} }
        [{ update := .put [97] [98], writes := [.wrote 1, .failed "No space left on device"] },
          { update := .put [97] [98] }] ∧
    ¬ Traceless { index := Index.new fun _ _ => false, disk := {} }
        [{ update := .put [97] [98], fsync := some "Input/output error" }] := by
  have herror : construct {} (fun _ _ => false)
      (KVStore.runWrites { index := Index.new fun _ _ => false, disk := {} }
        [{ update := .put [97] [98], writes := [.wrote 1, .failed "No space left on device"] },
          { update := .put [97] [98] }]).1.disk =
      .error "WAL replay failed: invalid record magic" := by
    -- the second record is read behind the first byte of the first
    have hread : WAL.readRecord (0x4c :: WAL.encode {} (record (.put [97] [98]))) =
        .invalid "WAL replay failed: invalid record magic" := by decide
    have hreplay := WAL.replayLoop_of_invalid applyRecord (Index.new fun _ _ => false) {} hread
    have hdisk : (KVStore.runWrites { index := Index.new fun _ _ => false, disk := {} }
        [{ update := .put [97] [98], writes := [.wrote 1, .failed "No space left on device"] },
          { update := .put [97] [98] }]).1.disk =
        { wal := 0x4c :: WAL.encode {} (record (.put [97] [98])) } := rfl
    rw [hdisk, construct, if_pos rfl]
    simp only [loadSnapshotFile, WAL.replay, hreplay]
  refine ⟨herror, fun h => ?_, fun h => ?_⟩
  · obtain ⟨store', hstore', -⟩ := h.2 fun _ _ => false
    rw [herror] at hstore'
    cases hstore'
  · refine not_traceless_of_fsync ⟨rfl, _, [], [], [], stores_empty.snapshot, rfl, by simp, rfl, ?_⟩
      ⟨[], rfl, by simp⟩ ⟨by decide, by decide⟩ rfl (Option.some_ne_none _) (fun heq => ?_) h
    · exact (Index.get_new _).symm
    · have hget := congrFun heq [97]
      rw [show KVStore.get { index := Index.new fun _ _ => false, disk := {} } = fun _ => none from
        Index.get_new _] at hget
      cases hget

end KvStore.KVStore
