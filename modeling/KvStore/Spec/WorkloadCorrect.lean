import KvStore.ForStd.Interleave
import KvStore.Native.Workload
import KvStore.Spec.ConcurrentAtomic
import KvStore.Spec.MapStoreCorrect

/-!
# The sizes that are compared

The threads of `RunBenchmark` never change one key in two ways, so the skip list has the same
contents in the end however its threads take their steps, and `MapStore` has them however its
calls are interleaved. All keys are below the `~` up to which `KVStoreSize` scans. So the sizes
that are printed for the stores agree (`final_size_agree`).
-/

/-- The results of a function that has succeeded on all elements. -/
theorem List.mem_of_mapM {α β : Type} {f : α → Option β} {list : List α} {results : List β}
    (h : list.mapM f = some results) {result : β} (hmem : result ∈ results) :
    ∃ a ∈ list, f a = some result := by
  induction list generalizing results with
  | nil =>
    cases h
    cases hmem
  | cons a list ih =>
    simp only [List.mapM_cons, Option.bind_eq_bind, Option.bind_eq_some_iff] at h
    obtain ⟨first, ha, rest, hrest, heq⟩ := h
    cases heq
    rcases List.mem_cons.mp hmem with rfl | hmem
    · exact ⟨a, List.mem_cons_self, ha⟩
    · obtain ⟨b, hb, hresult⟩ := ih hrest hmem
      exact ⟨b, List.mem_cons_of_mem a hb, hresult⟩

/-- A computation over a list succeeds if each of its steps does. -/
theorem List.isSome_mapM {α β : Type} {f : α → Option β} {list : List α}
    (h : ∀ a ∈ list, (f a).isSome) : (list.mapM f).isSome := by
  induction list with
  | nil => rfl
  | cons a list ih =>
    obtain ⟨first, hfirst⟩ := Option.isSome_iff_exists.mp (h a List.mem_cons_self)
    obtain ⟨rest, hrest⟩ :=
      Option.isSome_iff_exists.mp (ih fun b hb => h b (List.mem_cons_of_mem a hb))
    simp [List.mapM_cons, hfirst, hrest]

namespace KvStore

namespace Workload

open ConcurrentSkipList (State Choice)

variable {mode : WorkloadMode} {preloadKeys operationsPerThread threadCount : Nat}
  {scripts : List (List Call)}

/-! ## The calls -/

/-- The numbers of all operations fit into an `int` if there are at most `2 ^ 31` of them. -/
theorem runBenchmark_isSome (hfits : threadCount * operationsPerThread ≤ 2 ^ 31) :
    (runBenchmark mode preloadKeys operationsPerThread threadCount).isSome := by
  refine List.isSome_mapM fun threadIndex hthread => ?_
  have hcalls : ∀ operation ∈ List.range operationsPerThread,
      (operationCalls mode preloadKeys operationsPerThread threadIndex operation).isSome := by
    intro operation hoperation
    -- `global_index` stays an `int`
    have hindex : threadIndex * operationsPerThread + operation < 2 ^ 31 :=
      calc threadIndex * operationsPerThread + operation
          < (threadIndex + 1) * operationsPerThread := by
            rw [Nat.succ_mul]
            exact Nat.add_lt_add_left (List.mem_range.mp hoperation) _
        _ ≤ threadCount * operationsPerThread := Nat.mul_le_mul_right _ (List.mem_range.mp hthread)
        _ ≤ 2 ^ 31 := hfits
    unfold operationCalls globalIndex
    cases mode with
    | readHeavyAll | readHeavy | writeHeavy | mixed =>
      simp only [hindex, if_true, Option.bind_eq_bind, Option.bind_some]
      split <;> rfl
  obtain ⟨calls, heq⟩ := Option.isSome_iff_exists.mp (List.isSome_mapM hcalls)
  simp [threadCalls, heq]

/-- What an operation writes. -/
def written (mode : WorkloadMode) (operation : Nat) : Bytes :=
  if mode = .mixed ∧ operation % 10 = 9 then payload operation ++ ascii "-update"
  else payload operation

/-- An operation deletes a seed key, or writes the key of its own. -/
theorem update_of_operationCalls {threadIndex operation : Nat} {calls : List Call}
    {update : Update Bytes Bytes}
    (hcalls : operationCalls mode preloadKeys operationsPerThread threadIndex operation =
      some calls)
    (h : update ∈ calls.filterMap ConcurrentSkipList.Call.update) :
    (∃ index, update = .delete (seedKey index)) ∨
      update = .put (writeKey (threadIndex * operationsPerThread + operation))
        (written mode operation) := by
  unfold operationCalls globalIndex at hcalls
  simp only [Option.bind_eq_bind, Option.bind_eq_some_iff, Option.ite_none_right_eq_some] at hcalls
  obtain ⟨globalIndex, ⟨-, hindex⟩, hcalls⟩ := hcalls
  cases hindex
  -- every branch makes at most one update
  cases mode with
  | readHeavyAll | readHeavy | writeHeavy | mixed =>
    simp only at hcalls
    split at hcalls <;> cases hcalls <;> simp_all [ConcurrentSkipList.Call.update, written]

/-! ## Keys -/

/-- Different numbers have different digits. -/
theorem toDecimal_injective {n n' : Nat} (h : toDecimal n = toDecimal n') : n = n' := by
  rw [← ofDecimal_toDecimal n, h, ofDecimal_toDecimal]

/-- Different indices have different keys. -/
theorem writeKey_injective {n n' : Nat} (h : writeKey n = writeKey n') : n = n' :=
  toDecimal_injective (List.append_cancel_left h)

/-- The keys that are preloaded begin alike. -/
theorem head_seedKey (index : Nat) : (seedKey index).head? = some 's'.toUInt8 :=
  rfl

/-- The keys that are written begin alike. -/
theorem head_writeKey (globalIndex : Nat) : (writeKey globalIndex).head? = some 'k'.toUInt8 :=
  rfl

/-- A key that is preloaded is never written. -/
theorem seedKey_ne_writeKey (index globalIndex : Nat) : seedKey index ≠ writeKey globalIndex := by
  intro h
  -- the first bytes differ
  have hhead := congrArg List.head? h
  rw [head_seedKey, head_writeKey] at hhead
  exact absurd hhead (by decide)

/-- A key that begins with a byte below `~` is scanned by `KVStoreSize`. -/
theorem le_tilde {key : Bytes} {byte : UInt8} (h : key.head? = some byte)
    (hbyte : byte < '~'.toUInt8) : key ≤ ascii "~" := by
  obtain ⟨rest, rfl⟩ := List.head?_eq_some_iff.mp h
  exact le_of_lt (List.Lex.rel hbyte)

/-- The operations of all threads have numbers of their own. -/
theorem eq_of_globalIndex {t t' o o' : Nat} (ho : o < operationsPerThread)
    (ho' : o' < operationsPerThread)
    (h : t * operationsPerThread + o = t' * operationsPerThread + o') : o = o' := by
  have hmod := congrArg (· % operationsPerThread) h
  simpa [Nat.mul_add_mod_of_lt, Nat.mod_eq_of_lt ho, Nat.mod_eq_of_lt ho'] using hmod

/-- The updates of all threads. -/
theorem update_of_runBenchmark {update : Update Bytes Bytes}
    (hscripts : runBenchmark mode preloadKeys operationsPerThread threadCount = some scripts)
    (h : update ∈ scripts.flatten.filterMap ConcurrentSkipList.Call.update) :
    (∃ index, update = .delete (seedKey index)) ∨
      ∃ threadIndex operation, operation < operationsPerThread ∧
        update = .put (writeKey (threadIndex * operationsPerThread + operation))
          (written mode operation) := by
  obtain ⟨call, hcall, hupdate⟩ := List.mem_filterMap.mp h
  obtain ⟨script, hscript, hmem⟩ := List.mem_flatten.mp hcall
  obtain ⟨threadIndex, -, hthread⟩ := List.mem_of_mapM hscripts hscript
  simp only [threadCalls, Option.bind_eq_bind, Option.bind_eq_some_iff] at hthread
  obtain ⟨lists, hlists, heq⟩ := hthread
  cases heq
  obtain ⟨calls, hcalls, hmem⟩ := List.mem_flatten.mp hmem
  obtain ⟨operation, hoperation, heq⟩ := List.mem_of_mapM hlists hcalls
  refine (update_of_operationCalls heq (List.mem_filterMap.mpr ⟨call, hmem, hupdate⟩)).imp id ?_
  exact fun heq => ⟨threadIndex, operation, List.mem_range.mp hoperation, heq⟩

/-- No key is updated in two ways. -/
theorem updates_agree {u v : Update Bytes Bytes}
    (hscripts : runBenchmark mode preloadKeys operationsPerThread threadCount = some scripts)
    (hu : u ∈ scripts.flatten.filterMap ConcurrentSkipList.Call.update)
    (hv : v ∈ scripts.flatten.filterMap ConcurrentSkipList.Call.update) (hkey : u.key = v.key) :
    u = v := by
  obtain ⟨index, rfl⟩ | ⟨t, o, ho, rfl⟩ := update_of_runBenchmark hscripts hu <;>
    obtain ⟨index', rfl⟩ | ⟨t', o', ho', rfl⟩ := update_of_runBenchmark hscripts hv
  · exact congrArg Update.delete hkey
  · exact absurd hkey (seedKey_ne_writeKey _ _)
  · exact absurd hkey.symm (seedKey_ne_writeKey _ _)
  · -- a key is written by one operation only
    have hindex : t * operationsPerThread + o = t' * operationsPerThread + o' :=
      writeKey_injective hkey
    rw [hindex, eq_of_globalIndex ho ho' hindex]

/-- A key that is preloaded twice has the same value. -/
theorem preload_agree {u v : Update Bytes Bytes}
    (hu : u ∈ (preloadStore preloadKeys).filterMap ConcurrentSkipList.Call.update)
    (hv : v ∈ (preloadStore preloadKeys).filterMap ConcurrentSkipList.Call.update)
    (hkey : u.key = v.key) : u = v := by
  obtain ⟨call, hcall, hupdate⟩ := List.mem_filterMap.mp hu
  obtain ⟨index, -, rfl⟩ := List.mem_map.mp hcall
  obtain ⟨call', hcall', hupdate'⟩ := List.mem_filterMap.mp hv
  obtain ⟨index', -, rfl⟩ := List.mem_map.mp hcall'
  cases hupdate
  cases hupdate'
  obtain rfl : index = index' := toDecimal_injective (List.append_cancel_left hkey)
  rfl

/-! ## Contents -/

/-- The contents in the end: those of the keys that have been loaded before, and then what all
    threads do, one after another. -/
def contents (preloadKeys : Nat) (scripts : List (List Call)) : Bytes → Option Bytes :=
  Update.applyAll (fun _ => none)
    ((preloadStore preloadKeys ++ scripts.flatten).filterMap ConcurrentSkipList.Call.update)

/-- All keys are scanned by `KVStoreSize`. -/
theorem le_tilde_of_contents {key value : Bytes}
    (hscripts : runBenchmark mode preloadKeys operationsPerThread threadCount = some scripts)
    (h : contents preloadKeys scripts key = some value) : key ≤ ascii "~" := by
  rcases Update.put_mem_of_applyAll h with hnone | hput
  · cases hnone
  · rw [List.filterMap_append, List.mem_append] at hput
    rcases hput with hpreload | hthread
    · obtain ⟨call, hcall, hupdate⟩ := List.mem_filterMap.mp hpreload
      obtain ⟨index, -, rfl⟩ := List.mem_map.mp hcall
      cases hupdate
      exact le_tilde (head_seedKey index) (by decide)
    · obtain ⟨index, heq⟩ | ⟨threadIndex, operation, -, heq⟩ :=
        update_of_runBenchmark hscripts hthread
      · cases heq
      · cases heq
        exact le_tilde (head_writeKey _) (by decide)

/-- However its calls are interleaved, a store that is a map has these contents. -/
theorem contents_of_conforms {order : List Call}
    (hscripts : runBenchmark mode preloadKeys operationsPerThread threadCount = some scripts)
    (horder : Interleaves scripts order) {results : List (MapResult Bytes Bytes)}
    {m : Bytes → Option Bytes}
    (h : ConformsRun (fun _ => none) ((preloadStore preloadKeys ++ order).map mapStoreCall)
      results m) : m = contents preloadKeys scripts := by
  have hclear : .clear ∉ (preloadStore preloadKeys ++ order).map mapStoreCall := by
    intro hmem
    obtain ⟨call, -, heq⟩ := List.mem_map.mp hmem
    cases call <;> cases heq
  have hupdate : (MapOp.update? ∘ mapStoreCall : Call → Option (Update Bytes Bytes)) =
      ConcurrentSkipList.Call.update := by
    funext call
    cases call <;> rfl
  rw [MapOp.applyAll_of_conforms hclear h, contents, List.filterMap_map, hupdate,
    List.filterMap_append, List.filterMap_append, Update.applyAll_append, Update.applyAll_append]
  -- the updates of the threads commute
  have hupdates := horder.perm.filterMap ConcurrentSkipList.Call.update
  exact Update.applyAll_congr (fun u hu v hv => updates_agree hscripts hu hv) hupdates.subset
    fun u hu => .inl (hupdates.mem_iff.mpr hu)

/-! ## Threads -/

section

variable {T : Type} [DecidableEq T] {r r' : Running T} {s s' : State Bytes Bytes T}
  {label : T × Choice Bytes Bytes} {script : T → List Call}

/-- A thread that is idle makes the next of its calls, and others go on with theirs. -/
theorem Running.Step.cases (h : Running.Step r label r') :
    (∃ call rest, r.list.thread label.1 = .idle ∧ r.left label.1 = call :: rest ∧
        State.Step r.list (label.1, .call call) r'.list ∧
        r'.left = Function.update r.left label.1 rest) ∨
      r.list.thread label.1 ≠ .idle ∧ State.Step r.list label r'.list ∧ r'.left = r.left := by
  unfold Running.Step Running.step at h
  cases hthread : r.list.thread label.1 with
  | idle =>
    cases hleft : r.left label.1 with
    | nil => simp [hthread, hleft] at h
    | cons call rest =>
      simp only [hthread, hleft, Option.bind_eq_bind, Option.bind_eq_some_iff] at h
      obtain ⟨list, hlist, heq⟩ := h
      cases heq
      exact .inl ⟨call, rest, rfl, rfl, hlist, rfl⟩
  | _ =>
    simp only [hthread, Option.bind_eq_bind, Option.bind_eq_some_iff] at h
    obtain ⟨list, hlist, heq⟩ := h
    cases heq
    exact .inr ⟨by simp, hlist, rfl⟩

/-- Only a thread that is idle makes a call. -/
theorem call_not_mem_emits {l : ConcurrentSkipList.Local Bytes Bytes} (hbusy : l ≠ .idle)
    (choice : Choice Bytes Bytes) (update : Update Bytes Bytes) :
    AtomicMap.Event.call update ∉ l.emits choice := by
  cases l with
  | idle => exact absurd rfl hbusy
  | returning call answer => simp [ConcurrentSkipList.Local.emits]
  | _ => simp [ConcurrentSkipList.Local.emits]

/-- The calls that can be seen of a run are those that its threads have made. -/
theorem emits_of_run (h : Run Running.Step (fun _ _ => True) r r') :
    ∃ (events : List (T × AtomicMap.Event Bytes Bytes)) (made : T → List Call),
      Emits State.Step State.emits r.list events r'.list ∧
      (∀ t, r.left t = made t ++ r'.left t) ∧
      ∀ t update, (t, .call update) ∈ events ↔ ∃ call ∈ made t, call.update = some update := by
  -- by induction on the run: a call that is made goes from what is left to what is made
  induction h with
  | refl => exact ⟨[], fun _ => [], .refl, by simp, by simp⟩
  | @tail u v label _ _ hstep ih =>
    obtain ⟨events, made, hemits, hmade, hcalls⟩ := ih
    obtain ⟨call, rest, hidle, hleft, hlist, hleft'⟩ | ⟨hbusy, hlist, hleft'⟩ := hstep.cases
    · refine ⟨_, Function.update made label.1 (made label.1 ++ [call]), .tail _ hemits hlist,
        fun t => ?_, fun t update => ?_⟩
      · rw [hmade t, hleft']
        by_cases ht : t = label.1
        · subst ht
          simp [hleft]
        · simp only [Function.update_of_ne ht]
      · have hnew : (t, .call update) ∈ State.emits u.list (label.1, .call call) ↔
            t = label.1 ∧ call.update = some update := by
          cases hupdate : call.update <;>
            simp [State.emits, ConcurrentSkipList.Local.emits, hidle, hupdate, eq_comm]
        rw [List.mem_append, hcalls, hnew]
        by_cases ht : t = label.1
        · subst ht
          simp [or_and_right, exists_or]
        · simp [ht]
    · refine ⟨_, made, .tail _ hemits hlist, fun t => by rw [hmade t, hleft'], fun t update => ?_⟩
      rw [List.mem_append, hcalls, or_iff_left]
      simp [State.emits, call_not_mem_emits hbusy]

/-- The contents of a skip list whose threads have made their calls, no two of which change one
    key in two ways. -/
theorem Completes.implements (h : Completes s script s') {a : AtomicMap.State Bytes Bytes T}
    (hs : s.Implements a) (hidle : s.Quiescent) {us : List (Update Bytes Bytes)}
    (hus : ∀ update, update ∈ us ↔ ∃ t, ∃ call ∈ script t, call.update = some update)
    (hagree : ∀ u ∈ us, ∀ v ∈ us, u.key = v.key → u = v) :
    ∃ a', s'.Implements a' ∧ a'.map = Update.applyAll a.map us := by
  obtain ⟨events, made, hemits, hmade, hcalls⟩ := emits_of_run h.run
  obtain ⟨a', ha', hs'⟩ := hemits.simulate hs fun hs hstep => hs.step hstep
  have hphase : ∀ {s : State Bytes Bytes T} {a : AtomicMap.State Bytes Bytes T},
      s.Implements a → s.Quiescent → ∀ t, a.phase t = .idle := by
    intro s a hs hidle t
    rw [hs.phase t, hidle t]
    rfl
  refine ⟨a', hs', AtomicMap.map_of_emits (hphase hs hidle) (hphase hs' h.quiescent) ha' ?_ hagree⟩
  intro update
  rw [hus]
  refine exists_congr fun t => ?_
  have hscript : script t = made t := (hmade t).trans (List.append_nil _)
  rw [hcalls, hscript]

/-- Whether the threads have made their calls after the steps `labels`, in a state with `p`. -/
def completes [Fintype T] (s : State Bytes Bytes T) (script : T → List Call)
    (labels : List (T × Choice Bytes Bytes)) (p : State Bytes Bytes T → Bool) : Bool :=
  Option.any (fun r => decide (r.list.Quiescent ∧ ∀ t, r.left t = []) && p r.list)
    (labels.foldlM (fun r label => if True then Running.step r label.1 label.2 else none)
      { list := s, left := script })

/-- The end of calls that have been computed. -/
theorem exists_completes [Fintype T] {labels : List (T × Choice Bytes Bytes)}
    {p : State Bytes Bytes T → Bool} (h : completes s script labels p = true) :
    ∃ s', Completes s script s' ∧ p s' = true := by
  obtain ⟨⟨s', left⟩, hrun, hr⟩ := Run.exists_of_any h
  obtain ⟨hdone, hp⟩ := Bool.and_eq_true_iff.mp hr
  obtain ⟨hquiescent, hleft⟩ := of_decide_eq_true hdone
  obtain rfl : left = fun _ => [] := funext hleft
  exact ⟨s', ⟨hrun, hquiescent⟩, hp⟩

/-- The skip list has gone through these steps. -/
theorem Completes.run_list (h : Completes s script s') :
    Run State.Step (fun _ _ => True) s s' := by
  obtain ⟨events, -, hemits, -⟩ := emits_of_run h.run
  exact hemits.run

end

/-- The updates that are made if the main thread is alone. -/
theorem mem_mainScript {threads : Nat} (calls : List Call) (update : Update Bytes Bytes) :
    update ∈ calls.filterMap ConcurrentSkipList.Call.update ↔
      ∃ t : Option (Fin threads), ∃ call ∈ mainScript calls t, call.update = some update := by
  rw [List.mem_filterMap]
  constructor
  · rintro ⟨call, hcall, hupdate⟩
    exact ⟨none, call, hcall, hupdate⟩
  · rintro ⟨_ | index, call, hcall, hupdate⟩
    · exact ⟨call, hcall, hupdate⟩
    · cases hcall

/-- The updates that are made while the main thread waits for the others. -/
theorem mem_workerScripts (scripts : List (List Call)) (update : Update Bytes Bytes) :
    update ∈ scripts.flatten.filterMap ConcurrentSkipList.Call.update ↔
      ∃ t, ∃ call ∈ workerScripts scripts t, call.update = some update := by
  rw [List.mem_filterMap]
  constructor
  · rintro ⟨call, hcall, hupdate⟩
    obtain ⟨script, hscript, hmem⟩ := List.mem_flatten.mp hcall
    obtain ⟨index, rfl⟩ := List.mem_iff_get.mp hscript
    exact ⟨some index, call, hmem, hupdate⟩
  · rintro ⟨_ | index, call, hcall, hupdate⟩
    · cases hcall
    · exact ⟨call, List.mem_flatten.mpr ⟨_, List.get_mem scripts index, hcall⟩, hupdate⟩

/-! ## Sizes -/

section

variable {maxLevel : Nat} {address : NodeId ↪ Nat}
  {loaded done : State Bytes Bytes (Option (Fin scripts.length))}

/-- The contents of the skip list when all threads of `RunBenchmark` have been joined. -/
theorem holds_contents
    (hscripts : runBenchmark mode preloadKeys operationsPerThread threadCount = some scripts)
    (hload : Completes (.new maxLevel address) (mainScript (preloadStore preloadKeys)) loaded)
    (hbench : Completes loaded (workerScripts scripts) done) :
    done.shared.heap.Holds (contents preloadKeys scripts) := by
  have hnew : (State.new maxLevel address :
      State Bytes Bytes (Option (Fin scripts.length))).Implements {} :=
    State.implements_new maxLevel address
  obtain ⟨a, ha, hmap⟩ := hload.implements hnew (fun _ => rfl) (mem_mainScript _)
    fun u hu v hv => preload_agree hu hv
  obtain ⟨a', ha', hmap'⟩ := hbench.implements ha hload.quiescent (mem_workerScripts scripts)
    fun u hu v hv => updates_agree hscripts hu hv
  have hcontents : a'.map = contents preloadKeys scripts := by
    rw [hmap', hmap, contents, List.filterMap_append, Update.applyAll_append]
    rfl
  exact hcontents ▸ ha'.holds

/-- The pairs of the scan of `KVStoreSize`, which the main thread makes when it is alone again. -/
theorem listsMap_kvStoreSize {pairs : List (Bytes × Bytes)}
    {states : List (State Bytes Bytes (Option (Fin scripts.length)))}
    (hscripts : runBenchmark mode preloadKeys operationsPerThread threadCount = some scripts)
    (hload : Completes (.new maxLevel address) (mainScript (preloadStore preloadKeys)) loaded)
    (hbench : Completes loaded (workerScripts scripts) done)
    (hscan : done.Performs (fun _ label => label.1 = none) none kvStoreSize states (.scan pairs)) :
    ListsMap (contents preloadKeys scripts) (fun _ => True) pairs := by
  have hrun := hload.run_list.trans hbench.run_list
  have hanswer : ConcurrentSkipList.Answered False states kvStoreSize (.scan pairs) :=
    hscan.answered hrun False.elim (State.reads_scan _ _)
  have hheap := hscan.heap_eq hrun (State.reads_scan _ _)
  have hholds : ∀ s ∈ states, s.shared.heap.Holds (contents preloadKeys scripts) := fun s hs =>
    hheap s hs ▸ holds_contents hscripts hload hbench
  obtain ⟨hresult, hkeys⟩ := hanswer
  have hmem : ∀ pair ∈ pairs, contents preloadKeys scripts pair.1 = some pair.2 := by
    intro pair hpair
    obtain ⟨s, hs, hpresent⟩ := hresult.present pair hpair
    exact (hholds s hs _ _).mpr hpresent
  refine ⟨List.pairwise_map.mp hresult.sorted, fun key value => ?_⟩
  rw [and_iff_left trivial]
  refine ⟨hmem (key, value), fun hvalue => ?_⟩
  -- a key that is there all the time is scanned
  have hkey := hkeys key (fun s hs => ⟨value, (hholds s hs _ _).mp hvalue⟩)
    (not_lt.mp (List.not_lt_nil key)) (le_tilde_of_contents hscripts hvalue)
  obtain ⟨⟨_, value'⟩, hpair, rfl⟩ := List.mem_map.mp hkey
  obtain rfl : value' = value := Option.some.inj ((hmem _ hpair).symm.trans hvalue)
  exact hpair

/-- The skip list and the ordered map that it is compared with have the same contents after the
    benchmark, however the threads of each are scheduled and whatever levels are drawn, and the
    sizes that are read from them agree. -/
theorem final_size_agree {order : List Call} {pairs : List (Bytes × Bytes)}
    {states : List (State Bytes Bytes (Option (Fin scripts.length)))}
    (hscripts : runBenchmark mode preloadKeys operationsPerThread threadCount = some scripts)
    (hload : Completes (.new maxLevel address) (mainScript (preloadStore preloadKeys)) loaded)
    (hbench : Completes loaded (workerScripts scripts) done)
    (hscan : done.Performs (fun _ label => label.1 = none) none kvStoreSize states (.scan pairs))
    (horder : Interleaves scripts order) :
    done.shared.heap.Holds (contents preloadKeys scripts) ∧
      (MapStore.new.run ((preloadStore preloadKeys ++ order).map mapStoreCall ++
        [mapStoreSize])).2.get = contents preloadKeys scripts ∧
      (MapStore.new.run ((preloadStore preloadKeys ++ order).map mapStoreCall ++
        [mapStoreSize])).1.getLast? = some (.count pairs.length) := by
  have hmap := MapStore.run_conforms (MapStore.new : MapStore Bytes Bytes)
    ((preloadStore preloadKeys ++ order).map mapStoreCall ++ [mapStoreSize])
  rw [MapStore.get_new] at hmap
  obtain ⟨front, result, m, hresults, hfront, hlast⟩ := hmap.concat
  obtain rfl := contents_of_conforms hscripts horder hfront
  cases result with
  | count n =>
    obtain ⟨⟨keys, hkeys, rfl⟩, hget⟩ := hlast
    -- both count the keys of the contents
    obtain ⟨keys', hkeys', hlength⟩ := (listsMap_kvStoreSize hscripts hload hbench hscan).card
    have heq : keys = keys' := Finset.ext fun key => (hkeys key).trans (hkeys' key).symm
    refine ⟨holds_contents hscripts hload hbench, hget, ?_⟩
    rw [hresults, hlength, heq]
    simp
  | flag | value | pairs | unit => exact hlast.elim

/-- Two threads that write one key each. -/
def twoScripts : List (List Call) :=
  [[.put (writeKey 0) (payload 0)], [.put (writeKey 1) (payload 0)]]

/-- The second thread begins its search before the first one has written its key, and finds the
    place of its own key behind it. -/
theorem final_size_agree_two :
    ∃ done : State Bytes Bytes (Option (Fin 2)),
      done.shared.heap.Holds (contents 1 twoScripts) ∧
      (MapStore.new.run [.put (seedKey 0) (seedValue 0), .put (writeKey 1) (payload 0),
        .put (writeKey 0) (payload 0), mapStoreSize]).1.getLast? = some (.count 3) := by
  -- one run of the main thread and two workers, found by computation
  have hcomputed : completes (.new 4 (.refl _)) (mainScript (preloadStore 1))
      (State.putSteps none (seedKey 0) (seedValue 0) 1) (fun loaded =>
        completes loaded (workerScripts twoScripts)
          ([(some (1 : Fin 2), .go), (some (1 : Fin 2), .go)] ++
            State.putSteps (some (0 : Fin 2)) (writeKey 0) (payload 0) 2 ++
            [(some (1 : Fin 2), .go)] ++
            (State.putSteps (some (1 : Fin 2)) (writeKey 1) (payload 0) 3).drop 2)
          fun done => done.performs (fun _ label => label.1 = none) none
            (List.replicate 30 (none, .go)) kvStoreSize
            (.scan [(writeKey 0, payload 0), (writeKey 1, payload 0), (seedKey 0, seedValue 0)])
            fun _ => true) = true := by
    decide +kernel
  obtain ⟨loaded, hload, hbench⟩ := exists_completes hcomputed
  obtain ⟨done, hbench, hscan⟩ := exists_completes hbench
  obtain ⟨states, hscan, -⟩ := State.exists_performs hscan
  have hscripts : runBenchmark .writeHeavy 1 1 2 = some twoScripts := by decide +kernel
  have horder : Interleaves twoScripts
      [.put (writeKey 1) (payload 0), .put (writeKey 0) (payload 0)] :=
    @Interleaves.cons _ [_] [] _ [] _ (@Interleaves.cons _ [] [[]] _ [] _ (.nil (by simp)))
  obtain ⟨hholds, -, hsize⟩ := final_size_agree hscripts hload hbench hscan horder
  exact ⟨done, hholds, hsize⟩

end

end Workload

end KvStore
