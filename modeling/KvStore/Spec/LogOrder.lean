import KvStore.Native.SharedStore
import KvStore.Spec.KVStoreRecovery
import KvStore.ForStd.Transition

/-!
# The order of the log and the order of the effects

Callers that share a store append their records and update the index in two steps, so the
index may be updated in another order than the log is written in. `logOrdered_of_inOrder`
says that the log still gives the map of the index if no update overtakes a conflicting
one, and `exists_not_logOrdered` that any step that does so can lead to a difference.
-/

namespace KvStore.SharedStore

variable {ι : Type}

/-- A step of `Put` or `Delete`. -/
def Label.IsWrite : Label ι → Prop
  | .append _ _ | .apply _ => True
  | _ => False

/-- Without a call in progress, replaying the log into an empty index gives the map that
    is in memory. -/
def LogOrdered (s : SharedStore ι) : Prop :=
  s.inFlight = [] → ∀ coins, ∃ index stats,
    WAL.replay KVStore.applyRecord (Index.new coins) s.store.disk.wal = (index, .ok stats) ∧
      index.get = s.store.get

/-- A record that is appended fits its header. When an index update is made, no record of
    the same key that was appended earlier still waits for its own update, unless it has
    the same effect or a record of the key that was appended later waits as well. -/
def InOrder (s : SharedStore ι) : Label ι → Prop
  | .append _ update => WAL.Fits (KVStore.record update)
  | .apply caller => ∀ front update back, s.inFlight = front ++ (caller, update) :: back →
      Update.MayOvertake (front.map Prod.snd) update (back.map Prod.snd)
  | _ => True

/-- The log holds the map that the index will hold after the updates in flight. -/
structure LogInv (s : SharedStore ι) : Prop where
  walEnabled : s.store.options.enableWal = true
  log : ∃ log, s.store.disk.wal = WAL.logBytes log ∧ (∀ entry ∈ log, WAL.Fits entry.1) ∧
    KVStore.recovered (fun _ => none) log =
      Update.applyAll s.store.get (s.inFlight.map Prod.snd)

/-- Replaying a log into an empty index. -/
private theorem replay_log {log : WAL.Log} (hfits : ∀ entry ∈ log, WAL.Fits entry.1)
    (coins : Nat → Nat → Bool) :
    ∃ index stats, WAL.replay KVStore.applyRecord (Index.new coins) (WAL.logBytes log) =
        (index, .ok stats) ∧
      index.get = KVStore.recovered (fun _ => none) log := by
  refine ⟨_, _, WAL.replay_logBytes KVStore.applyRecord (Index.new coins) hfits, ?_⟩
  rw [KVStore.get_foldl_applyRecord, Index.get_new]

/-- A store that is opened in an empty directory. -/
theorem logInv_start {options : EngineOptions} (henabled : options.enableWal = true)
    {coins : Nat → Nat → Bool} {store : KVStore}
    (hconstruct : KVStore.construct options coins {} = .ok store) :
    LogInv ({ store } : SharedStore ι) := by
  obtain ⟨index, heq, hget⟩ := KVStore.construct_eq KVStore.stores_empty henabled coins
  obtain rfl := Except.ok.inj (heq.symm.trans hconstruct)
  exact ⟨henabled, [], rfl, by simp, hget.symm⟩

/-- Every step of `Put` or `Delete` that is in order keeps the invariant. -/
theorem LogInv.step {s t : SharedStore ι} {label : Label ι} (h : s.LogInv)
    (hwrite : label.IsWrite) (hok : s.InOrder label) (hstep : Step s label t) : t.LogInv := by
  obtain ⟨log, hwal, hfits, hmap⟩ := h.log
  cases hstep with
  | @append store caller update padding writes hfree happend =>
    obtain rfl := KVStore.appendRecord_eq h.walEnabled happend
    refine ⟨h.walEnabled, log ++ [(KVStore.record update, padding)], ?_, ?_, ?_⟩
    · show s.store.disk.wal ++ _ = _
      rw [hwal, WAL.logBytes_append]
      simp [WAL.logBytes, WAL.encodeEntry]
    · intro entry he
      rcases List.mem_append.mp he with he | he
      · exact hfits entry he
      · rw [List.mem_singleton.mp he]
        exact hok
    · rw [KVStore.recovered_append, hmap, List.map_append, Update.applyAll_append]
      rfl
  | @apply caller update front back hflight =>
    refine ⟨h.walEnabled, log, hwal, hfits, ?_⟩
    -- the index takes the update before those that are in front of it in the log
    have hovertake := hok front update back hflight
    have hget : (s.store.applyUpdate update).2.get = update.apply s.store.get :=
      s.store.index.get_update update
    rw [hflight, List.map_append, List.map_cons] at hmap
    rw [hmap, hget, List.map_append]
    exact ((Update.applyAll_overtake_iff _ _ _ _).mpr hovertake).symm
  | snapshot => exact hwrite.elim
  | rename => exact hwrite.elim
  | reset => exact hwrite.elim

/-- A run that keeps the order ends with the order. -/
theorem LogInv.logOrdered {s : SharedStore ι} (h : s.LogInv) : s.LogOrdered := by
  intro hidle coins
  obtain ⟨log, hwal, hfits, hmap⟩ := h.log
  obtain ⟨index, stats, hreplay, hget⟩ := replay_log hfits coins
  rw [hidle] at hmap
  exact ⟨index, stats, hwal ▸ hreplay, hget.trans hmap⟩

/-- The calls in flight can update the index in the order of their records. -/
theorem exists_run_finish (s : SharedStore ι) :
    ∃ t, Run Step (fun _ label => label.IsWrite) s t ∧ t.inFlight = [] ∧
      t.store.disk = s.store.disk ∧
      t.store.get = Update.applyAll s.store.get (s.inFlight.map Prod.snd) := by
  induction hflight : s.inFlight generalizing s with
  | nil => exact ⟨s, .refl, hflight, rfl, rfl⟩
  | cons call rest ih =>
    obtain ⟨caller, update⟩ := call
    have hstep : Step s (.apply caller) _ := .apply [] rest hflight
    obtain ⟨t, hrun, hidle, hdisk, hget⟩ := ih
      { s with
        store := (s.store.applyUpdate update).2
        inFlight := rest
        history := .finish caller update :: s.history } rfl
    have hfirst : (s.store.applyUpdate update).2.get = update.apply s.store.get :=
      s.store.index.get_update update
    refine ⟨t, (Run.tail _ .refl trivial hstep).trans hrun, hidle, hdisk, ?_⟩
    rw [hget, hfirst]
    rfl

/-- The order cannot be relaxed: if an index update overtakes one that it may not overtake,
    then the calls in flight can go on to a state in which the log gives another map. -/
theorem exists_not_logOrdered {s : SharedStore ι} (h : s.LogInv) {caller : ι}
    {update : Update Bytes Bytes} {front back : List (ι × Update Bytes Bytes)}
    (hflight : s.inFlight = front ++ (caller, update) :: back)
    (hover : ¬ Update.MayOvertake (front.map Prod.snd) update (back.map Prod.snd)) :
    ∃ t u, Step s (.apply caller) t ∧ Run Step (fun _ label => label.IsWrite) t u ∧
      ¬ u.LogOrdered := by
  obtain ⟨log, hwal, hfits, hmap⟩ := h.log
  obtain ⟨u, hrun, hidle, hdisk, hget⟩ := exists_run_finish
    { s with
      store := (s.store.applyUpdate update).2
      inFlight := front ++ back
      history := .finish caller update :: s.history }
  -- the index takes the update, and what is in flight before it follows
  have hfirst : (s.store.applyUpdate update).2.get = update.apply s.store.get :=
    s.store.index.get_update update
  refine ⟨_, u, .apply front back hflight, hrun, fun hordered => hover ?_⟩
  obtain ⟨index, stats, hreplay, heq⟩ := hordered hidle fun _ _ => false
  obtain ⟨index', stats', hreplay', heq'⟩ := replay_log hfits fun _ _ => false
  -- the log has not changed, so both replays give one map
  have hsame : index' = index := by
    have hwal' : u.store.disk.wal = WAL.logBytes log := (congrArg Disk.wal hdisk).trans hwal
    rw [hwal', hreplay'] at hreplay
    exact congrArg Prod.fst hreplay
  rw [← Update.applyAll_overtake_iff s.store.get]
  rw [hflight, List.map_append, List.map_cons] at hmap
  rw [hfirst, List.map_append] at hget
  rw [← hget, ← hmap, ← heq', hsame, heq]

/-- In a run of `Put` and `Delete` calls in which every step is in order, the log gives the
    map that is in memory whenever no call is in progress. -/
theorem logOrdered_of_inOrder {options : EngineOptions} (henabled : options.enableWal = true)
    {coins : Nat → Nat → Bool} {store : KVStore}
    (hconstruct : KVStore.construct options coins {} = .ok store) {s : SharedStore ι}
    (hrun : Run Step (fun s label => label.IsWrite ∧ s.InOrder label) { store } s) :
    s.LogOrdered :=
  (hrun.invariant (logInv_start henabled hconstruct)
    fun h hok hstep => h.step hok.1 hok.2 hstep).logOrdered

/-! ### Two callers that put the same key

Each begins while the other one is not done, and the index is updated in the order of the
records. -/

def put₀ : Update Bytes Bytes := .put [97] [98]

def put₁ : Update Bytes Bytes := .put [97] [99]

/-- The first caller has appended its record. -/
def started₀ : SharedStore Nat :=
  { store := { index := Index.new fun _ _ => false
               disk := { wal := WAL.encode {} (KVStore.record put₀) } }
    inFlight := [(0, put₀)]
    history := [.start 0 put₀] }

/-- So has the second. -/
def started₁ : SharedStore Nat :=
  { store := { started₀.store with
               disk := { wal := started₀.store.disk.wal ++
                 WAL.encode {} (KVStore.record put₁) } }
    inFlight := [(0, put₀), (1, put₁)]
    history := [.start 1 put₁, .start 0 put₀] }

/-- The first caller has updated the index. -/
def finished₀ : SharedStore Nat :=
  { store := { started₁.store with index := (started₁.store.index.update put₀).2 }
    inFlight := [(1, put₁)]
    history := [.finish 0 put₀, .start 1 put₁, .start 0 put₀] }

/-- So has the second. -/
def finished₁ : SharedStore Nat :=
  { store := { finished₀.store with index := (finished₀.store.index.update put₁).2 }
    history := [.finish 1 put₁, .finish 0 put₀, .start 1 put₁, .start 0 put₀] }

/-- The first call appends its record. -/
theorem step_started₀ :
    Step { store := { index := Index.new fun _ _ => false, disk := {} } } (.append 0 put₀)
      started₀ :=
  .append {} [] (by simp [Busy]) rfl

/-- The second call appends its record behind it. -/
theorem step_started₁ : Step started₀ (.append 1 put₁) started₁ :=
  .append {} [] (by simp [Busy, started₀]) rfl

/-- The first call changes the index. -/
theorem step_finished₀ : Step started₁ (.apply 0) finished₀ :=
  @Step.apply _ started₁ 0 put₀ [] [(1, put₁)] rfl

/-- The second call changes the index. -/
theorem step_finished₁ : Step finished₀ (.apply 1) finished₁ :=
  @Step.apply _ finished₀ 1 put₁ [] [] rfl

/-- In the end the index holds the value of the second `Put`, as the log does. -/
theorem logOrdered_of_inOrder_two :
    finished₁.LogOrdered ∧ finished₁.inFlight = [] ∧ finished₁.store.get [97] = some [99] := by
  -- nobody waits in front of the caller whose record came first
  have hfirst (s : SharedStore Nat) {caller : Nat} {update : Update Bytes Bytes}
      {back : List (Nat × Update Bytes Bytes)} (hflight : s.inFlight = (caller, update) :: back)
      (hfree : caller ∉ back.map Prod.fst) : s.InOrder (.apply caller) := by
    intro front update' back' heq
    cases front with
    | nil => exact .inr fun effect h => by cases h
    | cons call front =>
      rw [hflight] at heq
      obtain ⟨-, rfl⟩ := List.cons.inj heq
      simp at hfree
  have hrun : Run Step (fun s label => label.IsWrite ∧ s.InOrder label)
      { store := { index := Index.new fun _ _ => false, disk := {} } } finished₁ :=
    (((Run.refl.tail (.append 0 put₀) ⟨trivial, by decide, by decide⟩ step_started₀).tail
      (.append 1 put₁) ⟨trivial, by decide, by decide⟩ step_started₁).tail
        (.apply 0) ⟨trivial, hfirst started₁ rfl (by decide)⟩ step_finished₀).tail
          (.apply 1) ⟨trivial, hfirst finished₀ rfl (by decide)⟩ step_finished₁
  exact ⟨logOrdered_of_inOrder rfl (KVStore.construct_empty _) hrun, rfl, rfl⟩

/-- Two calls append their records, and the second updates the index first. -/
theorem exists_run_overtake {store first second : KVStore}
    (h : LogInv ({ store } : SharedStore Nat)) {update₁ update₂ : Update Bytes Bytes}
    (hfits₁ : WAL.Fits (KVStore.record update₁)) (hfits₂ : WAL.Fits (KVStore.record update₂))
    (hfirst : store.appendRecord {} update₁ [] none = (first, .ok ()))
    (hsecond : first.appendRecord {} update₂ [] none = (second, .ok ()))
    (hover : ¬ Update.MayOvertake [update₁] update₂ []) :
    ∃ s : SharedStore Nat, Run Step (fun _ label => label.IsWrite) { store } s ∧
      ¬ s.LogOrdered := by
  have hstep₁ : Step ({ store } : SharedStore Nat) (.append 1 update₁)
      { store := first, inFlight := [(1, update₁)], history := [.start 1 update₁] } :=
    .append {} [] (by simp [Busy]) hfirst
  have hstep₂ : Step ({ store := first, inFlight := [(1, update₁)]
                        history := [.start 1 update₁] } : SharedStore Nat) (.append 2 update₂)
      { store := second, inFlight := [(1, update₁), (2, update₂)]
        history := [.start 2 update₂, .start 1 update₁] } :=
    .append {} [] (by simp [Busy]) hsecond
  -- the second caller applies, then the calls in flight finish
  have hwrite₁ : (Label.append 1 update₁).IsWrite := trivial
  have hwrite₂ : (Label.append 2 update₂).IsWrite := trivial
  have happly : (Label.apply 2).IsWrite := trivial
  have hinv := (h.step hwrite₁ hfits₁ hstep₁).step hwrite₂ hfits₂ hstep₂
  have hover' : ¬ Update.MayOvertake ([((1 : Nat), update₁)].map Prod.snd) update₂
      (([] : List (Nat × Update Bytes Bytes)).map Prod.snd) := hover
  obtain ⟨t, u, hstep, hrun, hnot⟩ := exists_not_logOrdered hinv rfl hover'
  have hrun₁ : Run Step (fun _ label => label.IsWrite) ({ store } : SharedStore Nat) _ :=
    .tail _ .refl hwrite₁ hstep₁
  have hrun₂ : Run Step (fun _ label => label.IsWrite) ({ store } : SharedStore Nat) _ :=
    .tail _ hrun₁ hwrite₂ hstep₂
  have hrun₃ : Run Step (fun _ label => label.IsWrite) ({ store } : SharedStore Nat) t :=
    .tail _ hrun₂ happly hstep
  exact ⟨u, hrun₃.trans hrun, hnot⟩

/-- Two callers put the same key, and the second updates the index first. -/
theorem overtaken_put_not_logOrdered :
    ∃ s : SharedStore Nat, Run Step (fun _ label => label.IsWrite)
        { store := { index := Index.new fun _ _ => false, disk := {} } } s ∧
      ¬ s.LogOrdered := by
  have hover : ¬ Update.MayOvertake [.put [97] [98]] (.put [97] [99] : Update Bytes Bytes) [] := by
    rintro (⟨w, hw, -⟩ | h)
    · cases hw
    · cases h (some [98]) (by decide)
  exact exists_run_overtake (logInv_start rfl (KVStore.construct_empty _)) ⟨by decide, by decide⟩
    ⟨by decide, by decide⟩ rfl rfl hover

end KvStore.SharedStore
