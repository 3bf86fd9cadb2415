import KvStore.Native.Interruption
import KvStore.Spec.CommandExecution
import KvStore.Spec.MapStoreCorrect
import KvStore.Spec.Reopen

/-!
# The served store is the reference store

`Disk.Keeps` says that the files of a store hold the map of a reference store, and
`KVStore.Serves` that the index does as well. Then every request gets the response that the
reference store would give, and leaves both with the same map (`Serves.execute`); if the
process ends in between, the files hold the map before the request or the one after it
(`Serves.diskUntil`).
-/

namespace KvStore

/-! ## What a request does to its store -/

/-- A call that a request makes to change the store. -/
inductive StoreWrite where
  | put (key value : Bytes)
  | delete (key : Bytes)
  | checkpoint

/-- The strings that the call is about. -/
def StoreWrite.strings : StoreWrite → List Bytes
  | .put key value => [key, value]
  | .delete key => [key]
  | .checkpoint => []

/-- The call, made on a store. -/
def StoreCalls.perform {σ : Type} (calls : StoreCalls σ) (store : σ) :
    StoreWrite → σ × Except String Bool
  | .put key value => calls.put store key value
  | .delete key => calls.delete store key
  | .checkpoint => calls.checkpoint store

namespace CommandProcessor

/-- The call that a command makes to change the store. -/
def commandWrite (command : Bytes) (args : List Bytes) : Option StoreWrite :=
  if command = ascii "DEL" then
    match args with
    | [key] => some (.delete key)
    | _ => none
  else if command = ascii "CHECKPOINT" then
    if args = [] then some .checkpoint else none
  else if command = ascii "PUT" then
    match args with
    | [key, value] => if key = [] ∨ value = [] then none else some (.put key value)
    | _ => none
  else none

/-- The call that a request makes to change the store. -/
def requestWrite : List Bytes → Option StoreWrite
  | [] => none
  | first :: args => commandWrite (toUpper first) args

variable {σ τ : Type} {calls : StoreCalls σ} {calls' : StoreCalls τ} {s : σ} {t : τ}

/-- A response that depends on what a call of the store returns. -/
private theorem respond_snd {result : σ × Except String Bool} {result' : τ × Except String Bool}
    (h : result.2 = result'.2) (ifTrue ifFalse : String) :
    (respond result ifTrue ifFalse).2 = (respond result' ifTrue ifFalse).2 := by
  unfold respond
  rw [h]

/-- Two stores that answer the calls of a command alike answer the command alike, and a command
    changes the store by its call. -/
theorem executeCommand_eq {command : Bytes} {args : List Bytes}
    (hget : ∀ key, calls.get s key = calls'.get t key)
    (hscan : ∀ start stop, calls.scan s start stop = calls'.scan t start stop)
    (hwrite : ∀ write ∈ commandWrite command args,
      (calls.perform s write).2 = (calls'.perform t write).2) :
    (executeCommand calls s command args).2 = (executeCommand calls' t command args).2 := by
  -- each of the seven commands, with any number of arguments
  by_cases hknown : command ∈ commandWords
  · simp only [commandWords, List.mem_cons, List.not_mem_nil, or_false] at hknown
    rcases hknown with rfl | rfl | rfl | rfl | rfl | rfl | rfl
    · rw [executeCommand_ping, executeCommand_ping]
    · rw [executeCommand_get, executeCommand_get]
      rcases args with _ | ⟨key, _ | ⟨_, _⟩⟩
      · rfl
      · simp only [hget]
        cases calls'.get t key <;> rfl
      · rfl
    · rw [executeCommand_del, executeCommand_del]
      rcases args with _ | ⟨key, _ | ⟨_, _⟩⟩
      · rfl
      · exact respond_snd (hwrite (.delete key) rfl) _ _
      · rfl
    · rw [executeCommand_scan, executeCommand_scan]
      rcases args with _ | ⟨start, _ | ⟨stop, _ | ⟨_, _⟩⟩⟩
      · rfl
      · rfl
      · simp only [hscan]
      · rfl
    · rw [executeCommand_quit, executeCommand_quit]
    · rw [executeCommand_checkpoint, executeCommand_checkpoint]
      by_cases hargs : args = []
      · subst hargs
        have hresult : (calls.checkpoint s).2 = (calls'.checkpoint t).2 := hwrite .checkpoint rfl
        rw [if_pos rfl, if_pos rfl]
        rcases hs : calls.checkpoint s with ⟨s', result⟩
        rcases ht : calls'.checkpoint t with ⟨t', result'⟩
        rw [hs, ht] at hresult
        obtain rfl : result = result' := hresult
        rcases result with error | _ | _ <;> rfl
      · rw [if_neg hargs, if_neg hargs]
    · rw [executeCommand_put, executeCommand_put]
      rcases args with _ | ⟨key, _ | ⟨value, _ | ⟨_, _⟩⟩⟩
      · rfl
      · rfl
      · by_cases hempty : key = [] ∨ value = []
        · simp only [hempty, if_true]
        · have hput : commandWrite (ascii "PUT") [key, value] = some (.put key value) :=
            (if_neg (by decide)).trans ((if_neg (by decide)).trans
              ((if_pos rfl).trans (if_neg hempty)))
          simp only [hempty, if_false]
          exact respond_snd (hwrite (.put key value) hput) _ _
      · rfl
  · rw [executeCommand_unknown _ _ _ hknown, executeCommand_unknown _ _ _ hknown]

/-- The store that a command leaves behind. -/
theorem executeCommand_fst (calls : StoreCalls σ) (s : σ) (command : Bytes) (args : List Bytes) :
    (executeCommand calls s command args).1 =
      ((commandWrite command args).map fun write => (calls.perform s write).1).getD s := by
  -- only `PUT`, `DEL` and `CHECKPOINT` change the store
  by_cases hknown : command ∈ commandWords
  · simp only [commandWords, List.mem_cons, List.not_mem_nil, or_false] at hknown
    rcases hknown with rfl | rfl | rfl | rfl | rfl | rfl | rfl
    · rw [executeCommand_ping]
      rfl
    · rw [executeCommand_get]
      rcases args with _ | ⟨key, _ | ⟨_, _⟩⟩
      · rfl
      · cases hvalue : calls.get s key <;> simp only [hvalue] <;> rfl
      · rfl
    · rw [executeCommand_del]
      rcases args with _ | ⟨key, _ | ⟨_, _⟩⟩ <;> rfl
    · rw [executeCommand_scan]
      rcases args with _ | ⟨start, _ | ⟨stop, _ | ⟨_, _⟩⟩⟩ <;> rfl
    · rw [executeCommand_quit]
      rfl
    · rw [executeCommand_checkpoint]
      by_cases hargs : args = []
      · subst hargs
        show _ = (calls.checkpoint s).1
        rw [if_pos rfl]
        rcases calls.checkpoint s with ⟨s', error | _ | _⟩ <;> rfl
      · rw [if_neg hargs]
        have hnone : commandWrite (ascii "CHECKPOINT") args = none :=
          (if_neg (by decide)).trans ((if_pos rfl).trans (if_neg hargs))
        rw [hnone]
        rfl
    · rw [executeCommand_put]
      rcases args with _ | ⟨key, _ | ⟨value, _ | ⟨_, _⟩⟩⟩
      · rfl
      · rfl
      · have hwrite : commandWrite (ascii "PUT") [key, value] =
            if key = [] ∨ value = [] then none else some (.put key value) :=
          (if_neg (by decide)).trans ((if_neg (by decide)).trans (if_pos rfl))
        rw [hwrite]
        by_cases hempty : key = [] ∨ value = []
        · simp only [hempty, if_true]
          rfl
        · simp only [hempty, if_false]
          rfl
      · rfl
  · rw [executeCommand_unknown _ _ _ hknown]
    simp only [commandWords, List.mem_cons, List.not_mem_nil, or_false, not_or] at hknown
    simp [commandWrite, hknown]

/-- The store that a request leaves behind. -/
theorem execute_fst (calls : StoreCalls σ) (s : σ) (tokens : List Bytes) :
    (execute calls s tokens).1 =
      ((requestWrite tokens).map fun write => (calls.perform s write).1).getD s := by
  cases tokens with
  | nil => rfl
  | cons first args => exact executeCommand_fst calls s (toUpper first) args

/-- Two stores that answer the calls of a request alike answer the request alike. -/
theorem execute_snd_eq {tokens : List Bytes} (hget : ∀ key, calls.get s key = calls'.get t key)
    (hscan : ∀ start stop, calls.scan s start stop = calls'.scan t start stop)
    (hwrite : ∀ write ∈ requestWrite tokens,
      (calls.perform s write).2 = (calls'.perform t write).2) :
    (execute calls s tokens).2 = (execute calls' t tokens).2 := by
  cases tokens with
  | nil => rfl
  | cons first args => exact executeCommand_eq hget hscan hwrite

/-- The strings in the call of a command are arguments of the command. -/
private theorem strings_subset {command : Bytes} {args : List Bytes} {write : StoreWrite}
    (h : commandWrite command args = some write) : write.strings ⊆ args := by
  unfold commandWrite at h
  -- a write uses only strings that are arguments of the command
  split at h
  · split at h
    · cases h
      exact List.Subset.refl _
    · cases h
  · split at h
    · split at h
      · cases h
        exact List.nil_subset _
      · cases h
    · split at h
      · split at h
        · split at h
          · cases h
          · cases h
            exact List.Subset.refl _
        · cases h
      · cases h

/-- The strings in the call of a request are tokens of the request. -/
theorem mem_of_requestWrite {tokens : List Bytes} {write : StoreWrite}
    (h : requestWrite tokens = some write) : ∀ text ∈ write.strings, text ∈ tokens := by
  cases tokens with
  | nil => cases h
  | cons first args =>
    exact fun text htext => List.mem_cons_of_mem _ (strings_subset h htext)

end CommandProcessor

/-! ## The two stores -/

/-- The calls of a reference store. Its checkpoints fail where `Snapshot` cannot reserve room
    for the entries. -/
def MapStore.calls : StoreCalls (MapStore Bytes Bytes) where
  put m key value := ((m.put key value).2, .ok (m.put key value).1)
  get := MapStore.get
  delete m key := ((m.delete key).2, .ok (m.delete key).1)
  scan := MapStore.scan
  checkpoint m := (m, if KVStore.maxEntries < m.size then .error "vector::reserve" else .ok true)

/-- The files of a store hold the map of a reference store. -/
def Disk.Keeps (disk : Disk) (m : MapStore Bytes Bytes) : Prop :=
  ∃ base log, KVStore.Stores disk base log ∧ KVStore.recovered base log = m.get

namespace KVStore

/-- A store that logs its updates, and the reference store with the same map. -/
structure Serves (store : KVStore) (m : MapStore Bytes Bytes) : Prop where
  walEnabled : store.options.enableWal = true
  keeps : store.disk.Keeps m
  get_eq : store.get = m.get

/-- What the files hold fits the size fields. -/
theorem Stores.fitsPair {disk : Disk} {base : Bytes → Option Bytes} {log : WAL.Log}
    (h : Stores disk base log) {key value : Bytes} (hget : recovered base log key = some value) :
    FitsPair (key, value) := by
  rcases Update.put_mem_of_applyAll hget with hbase | hput
  · -- an entry of the snapshot
    have hsnapshot := h.snapshot
    unfold SnapshotHolds at hsnapshot
    cases hfile : disk.snapshot with
    | none =>
      rw [hfile] at hsnapshot
      obtain rfl : base = fun _ => none := hsnapshot
      cases hbase
    | some file =>
      rw [hfile] at hsnapshot
      obtain ⟨entries, -, hlists, hfits, -⟩ := hsnapshot
      exact hfits _ ((hlists.mem_iff key value).mpr ⟨hbase, trivial⟩)
  · -- a record of the log
    obtain ⟨entry, hentry, hupdate⟩ := List.mem_map.mp hput
    have hfits := h.fits entry hentry
    unfold LogRecord.update at hupdate
    split at hupdate
    · cases hupdate
      exact ⟨hfits.key, hfits.value⟩
    · cases hupdate

variable {store : KVStore} {m : MapStore Bytes Bytes}

/-- The constructor recovers the map that the files hold. -/
theorem serves_of_construct {options : EngineOptions} (hwal : options.enableWal = true)
    {disk : Disk} (h : disk.Keeps m) (coins : Nat → Nat → Bool) :
    ∃ store, construct options coins disk = .ok store ∧ store.options = options ∧
      store.Serves m := by
  obtain ⟨base, log, hstores, hrecovered⟩ := h
  obtain ⟨index, hconstruct, hget⟩ := construct_eq hstores hwal coins
  exact ⟨_, hconstruct, rfl, hwal, ⟨base, log, hstores, hrecovered⟩, hget.trans hrecovered⟩

/-- Both stores hold as many pairs. -/
theorem Serves.size_eq (h : store.Serves m) : store.index.size = m.size := by
  have hindex := store.index.lists_snapshot
  have hget : store.index.get = m.get := h.get_eq
  rw [hget] at hindex
  rw [← store.index.length_snapshot, hindex.unique m.lists_snapshot]
  exact Std.TreeMap.length_toList

/-! ## Updates -/

/-- The map that the files hold after a record has been appended. -/
theorem keeps_append {disk : Disk} (h : disk.Keeps m) {update : Update Bytes Bytes}
    (hfits : WAL.Fits (record update)) (padding : Padding) {m' : MapStore Bytes Bytes}
    (hm' : m'.get = update.apply m.get) :
    Disk.Keeps { disk with wal := disk.wal ++ WAL.encode padding (record update) } m' := by
  obtain ⟨base, log, hstores, hrecovered⟩ := h
  refine ⟨base, _, hstores.append (record update, padding) hfits, ?_⟩
  rw [recovered_append, hrecovered, hm']

/-- Without failures, the whole record is appended. -/
theorem appendRecord_whole (hwal : store.options.enableWal = true) (padding : Padding)
    (update : Update Bytes Bytes) :
    store.appendRecord padding update [] none =
      ({ store with disk :=
        { store.disk with wal := store.disk.wal ++ WAL.encode padding (record update) } },
        .ok ()) := by
  obtain ⟨disk, happend⟩ := store.appendRecord_ok padding update
  rw [happend, ← appendRecord_eq hwal happend]

/-- `Put` or `Delete`, made on both stores. -/
theorem Serves.write (h : store.Serves m) {update : Update Bytes Bytes}
    (hfits : WAL.Fits (record update)) (padding : Padding) {m' : MapStore Bytes Bytes}
    (hm' : m'.get = update.apply m.get) :
    (store.write padding update [] none).1.Serves m' ∧
      (store.write padding update [] none).2 = .ok (store.index.update update).1 := by
  have hwrite : store.write padding update [] none =
      ({ store with
        index := (store.index.update update).2
        disk := { store.disk with wal := store.disk.wal ++ WAL.encode padding (record update) } },
        .ok (store.index.update update).1) := by
    rw [KVStore.write, appendRecord_whole h.walEnabled]
    rfl
  have hindex : store.index.get = m.get := h.get_eq
  rw [hwrite]
  refine ⟨⟨h.walEnabled, keeps_append h.keeps hfits padding hm', ?_⟩, rfl⟩
  show (store.index.update update).2.get = m'.get
  rw [Index.get_update, hindex, hm']

/-! ## Checkpoints -/

/-- The map that the files hold at any point of a checkpoint. -/
theorem Serves.checkpointDisk (h : store.Serves m) {entries : List (Bytes × Bytes)}
    (hentries : snapshotEntries store.index = .ok entries) (cut : CutPoint) :
    (checkpointDisk store.disk entries cut).Keeps m := by
  obtain ⟨base, log, hstores, hrecovered⟩ := h.keeps
  obtain ⟨-, hlists, hcount⟩ := snapshotEntries_cases hentries
  -- the snapshot lists the map that is served
  have hindex : store.index.get = m.get := h.get_eq
  rw [hindex] at hlists
  have hfits : ∀ entry ∈ entries, FitsPair entry := by
    intro entry hentry
    have hget := ((hlists.mem_iff entry.1 entry.2).mp hentry).1
    exact hstores.fitsPair (hrecovered ▸ hget)
  have htmp : (writeTmp store.disk entries (snapshotBytes entries).length).tmp =
      some (snapshotBytes entries) :=
    congrArg some (List.take_of_length_le le_rfl)
  have hrenamed := (hstores.writeTmp entries (snapshotBytes entries).length).renameTmp hlists
    hfits hcount htmp
  cases cut with
  | before => exact ⟨base, log, hstores, hrecovered⟩
  | appended => exact ⟨base, log, hstores, hrecovered⟩
  | writing written => exact ⟨base, log, hstores.writeTmp entries written, hrecovered⟩
  | renamed =>
    -- the log is replayed over a snapshot that contains its updates
    refine ⟨m.get, log, hrenamed, ?_⟩
    rw [← hrecovered]
    exact Update.applyAll_replay base (updates log)
  | truncated => exact ⟨m.get, [], hrenamed.resetWal, rfl⟩

/-- `Checkpoint`, made on both stores. -/
theorem Serves.checkpoint (h : store.Serves m) :
    store.checkpoint.1.Serves m ∧ store.checkpoint.2 = (MapStore.calls.checkpoint m).2 := by
  have hsize := h.size_eq
  unfold KVStore.checkpoint
  rw [if_pos h.walEnabled]
  cases hentries : snapshotEntries store.index with
  | error error =>
    refine ⟨h, ?_⟩
    unfold snapshotEntries at hentries
    split at hentries
    · rename_i hmany
      cases hentries
      exact (if_pos (hsize ▸ hmany)).symm
    · cases hentries
  | ok entries =>
    refine ⟨⟨h.walEnabled, h.checkpointDisk hentries .truncated, h.get_eq⟩, ?_⟩
    have hcount := (snapshotEntries_cases hentries).2.2
    rw [(snapshotEntries_cases hentries).1, Index.length_snapshot, hsize] at hcount
    exact (if_neg (by omega)).symm

/-! ## Requests -/

/-- A call of a request that changes the store, made on both stores. -/
theorem Serves.perform (h : store.Serves m) {write : StoreWrite}
    (hfits : ∀ text ∈ write.strings, text.length < 2 ^ 32) (padding : Padding) :
    ((calls padding).perform store write).1.Serves (MapStore.calls.perform m write).1 ∧
      ((calls padding).perform store write).2 = (MapStore.calls.perform m write).2 := by
  have hindex : store.index.get = m.get := h.get_eq
  cases write with
  | put key value =>
    have hrecord : WAL.Fits (record (.put key value)) :=
      ⟨hfits key (by simp [StoreWrite.strings]), hfits value (by simp [StoreWrite.strings])⟩
    obtain ⟨hserves, hresult⟩ := h.write hrecord padding (m.get_put key value)
    refine ⟨hserves, hresult.trans (congrArg Except.ok ?_)⟩
    -- both report whether the key was absent
    show (store.index.put key value).1 = (m.put key value).1
    rw [Index.put_fst, hindex, Bool.eq_iff_iff, MapStore.put_fst, Option.isNone_iff_eq_none]
  | delete key =>
    have hrecord : WAL.Fits (record (.delete key)) :=
      ⟨hfits key (by simp [StoreWrite.strings]), by simp [record]⟩
    obtain ⟨hserves, hresult⟩ := h.write hrecord padding (m.get_delete key)
    refine ⟨hserves, hresult.trans (congrArg Except.ok ?_)⟩
    -- both report whether the key was present
    show (store.index.delete key).1 = (m.delete key).1
    rw [Index.delete_fst, hindex, Bool.eq_iff_iff, MapStore.delete_fst, Option.isSome_iff_ne_none]
  | checkpoint => exact h.checkpoint

/-- A request gets the response that the reference store gives, and leaves both stores with
    the same map. -/
theorem Serves.execute (h : store.Serves m) {tokens : List Bytes}
    (hfits : ∀ token ∈ tokens, token.length < 2 ^ 32) (padding : Padding) :
    (CommandProcessor.execute (calls padding) store tokens).1.Serves
        (CommandProcessor.execute MapStore.calls m tokens).1 ∧
      (CommandProcessor.execute (calls padding) store tokens).2 =
        (CommandProcessor.execute MapStore.calls m tokens).2 := by
  have hperform : ∀ write ∈ CommandProcessor.requestWrite tokens,
      ((calls padding).perform store write).1.Serves (MapStore.calls.perform m write).1 ∧
        ((calls padding).perform store write).2 = (MapStore.calls.perform m write).2 :=
    fun write hwrite => h.perform
      (fun text htext => hfits text (CommandProcessor.mem_of_requestWrite hwrite text htext)) padding
  constructor
  · rw [CommandProcessor.execute_fst, CommandProcessor.execute_fst]
    cases hwrite : CommandProcessor.requestWrite tokens with
    | none => exact h
    | some write => exact (hperform write hwrite).1
  · refine CommandProcessor.execute_snd_eq (fun key => congrFun h.get_eq key) ?_
      fun write hwrite => (hperform write hwrite).2
    intro start stop
    -- two lists of one map between the same bounds are equal
    have hscan := store.index.lists_scan start stop
    have hindex : store.index.get = m.get := h.get_eq
    rw [hindex] at hscan
    exact hscan.unique (m.lists_scan start stop)

/-- If the process ends while a request is executed, the files hold the map before the request
    or the one after it. -/
theorem Serves.diskUntil (h : store.Serves m) {tokens : List Bytes}
    (hfits : ∀ token ∈ tokens, token.length < 2 ^ 32) (padding : Padding) (cut : CutPoint) :
    (store.diskUntil padding cut tokens).Keeps m ∨
      (store.diskUntil padding cut tokens).Keeps
        (CommandProcessor.execute MapStore.calls m tokens).1 := by
  unfold KVStore.diskUntil
  rw [CommandProcessor.execute_fst, CommandProcessor.execute_fst]
  cases hwrite : CommandProcessor.requestWrite tokens with
  | none => exact .inl h.keeps
  | some write =>
    have hstrings := CommandProcessor.mem_of_requestWrite hwrite
    -- an update is in the log or not
    have hupdate {update : Update Bytes Bytes} {m' : MapStore Bytes Bytes}
        (hrecord : WAL.Fits (record update)) (hm' : m'.get = update.apply m.get) :
        (store.writeUntil padding cut update).1.disk.Keeps m ∨
          (store.writeUntil padding cut update).1.disk.Keeps m' := by
      unfold writeUntil
      split
      · exact .inl h.keeps
      · rw [appendRecord_whole h.walEnabled]
        exact .inr (keeps_append h.keeps hrecord padding hm')
    cases write with
    | put key value =>
      exact hupdate ⟨hfits key (hstrings key (by simp [StoreWrite.strings])),
        hfits value (hstrings value (by simp [StoreWrite.strings]))⟩ (m.get_put key value)
    | delete key =>
      exact hupdate ⟨hfits key (hstrings key (by simp [StoreWrite.strings])), by simp [record]⟩
        (m.get_delete key)
    | checkpoint =>
      -- a checkpoint keeps the map, wherever it ends
      refine .inl ?_
      show (checkpointUntil cut store).1.disk.Keeps m
      unfold checkpointUntil
      rw [if_pos h.walEnabled]
      cases hentries : snapshotEntries store.index with
      | error error => exact h.keeps
      | ok entries => exact h.checkpointDisk hentries cut

end KVStore

end KvStore
