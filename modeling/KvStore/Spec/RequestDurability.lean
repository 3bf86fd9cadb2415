import KvStore.Spec.CommandRefinement

/-!
# Restarts cannot be observed

`restarts_invisible`: over the life of any number of processes, the responses to the requests
are those of one reference store that never ends. Every request whose response has been sent
has taken effect, and one in which a process has ended has taken effect or not at all.
-/

namespace KvStore.KVStore

/-- The responses that the reference store `m` gives when each interrupted request is applied
    to it or dropped, and the reference store in the end. -/
inductive Explains : MapStore Bytes Bytes → List Incident → List Bytes →
    MapStore Bytes Bytes → Prop where
  | nil {m : MapStore Bytes Bytes} : Explains m [] [] m
  | answered {m m₁ m₂ : MapStore Bytes Bytes} {tokens : List Bytes} {padding : Padding}
      {response : Bytes} {incidents : List Incident} {responses : List Bytes}
      (hexecute : CommandProcessor.execute MapStore.calls m tokens = (m₁, .ok response))
      (hrest : Explains m₁ incidents responses m₂) :
      Explains m (.answered tokens padding :: incidents) (response :: responses) m₂
  | restarted {m m₁ : MapStore Bytes Bytes} {coins : Nat → Nat → Bool}
      {incidents : List Incident} {responses : List Bytes}
      (hrest : Explains m incidents responses m₁) :
      Explains m (.restarted coins :: incidents) responses m₁
  | dropped {m m₁ : MapStore Bytes Bytes} {tokens : List Bytes} {padding : Padding}
      {cut : CutPoint} {coins : Nat → Nat → Bool} {incidents : List Incident}
      {responses : List Bytes} (hrest : Explains m incidents responses m₁) :
      Explains m (.interrupted tokens padding cut coins :: incidents) responses m₁
  | applied {m m₁ : MapStore Bytes Bytes} {tokens : List Bytes} {padding : Padding}
      {cut : CutPoint} {coins : Nat → Nat → Bool} {incidents : List Incident}
      {responses : List Bytes}
      (hrest : Explains (CommandProcessor.execute MapStore.calls m tokens).1 incidents
        responses m₁) :
      Explains m (.interrupted tokens padding cut coins :: incidents) responses m₁

/-- The tokens of the requests fit the header of a record. -/
def Incident.Fits (incident : Incident) : Prop :=
  ∀ token ∈ incident.tokens, token.length < 2 ^ 32

/-- A store that serves a reference store goes on to do so. -/
theorem Serves.serve {store : KVStore} {m : MapStore Bytes Bytes} (h : store.Serves m)
    {incidents : List Incident} (hfits : ∀ incident ∈ incidents, incident.Fits) :
    ∃ responses store' m', store.serve incidents = .ok (responses, store') ∧
      Explains m incidents responses m' ∧ store'.Serves m' := by
  -- by induction on the incidents, with the store and the map general
  induction incidents generalizing store m with
  | nil => exact ⟨[], store, m, rfl, .nil, h⟩
  | cons incident incidents ih =>
    have hincident := hfits incident List.mem_cons_self
    have hrest := fun i hi => hfits i (List.mem_cons_of_mem incident hi)
    -- a new process serves the map that the files hold
    have hstart {disk : Disk} {m₁ : MapStore Bytes Bytes} (hkeeps : disk.Keeps m₁)
        (coins : Nat → Nat → Bool) :
        ∃ store₁ responses store' m', construct store.options coins disk = .ok store₁ ∧
          store₁.serve incidents = .ok (responses, store') ∧
          Explains m₁ incidents responses m' ∧ store'.Serves m' := by
      obtain ⟨store₁, hconstruct, -, hserves⟩ := serves_of_construct h.walEnabled hkeeps coins
      obtain ⟨responses, store', m', hserve, hexplains, hserves'⟩ := ih hserves hrest
      exact ⟨store₁, responses, store', m', hconstruct, hserve, hexplains, hserves'⟩
    cases incident with
    | answered tokens padding =>
      have htokens : ∀ token ∈ tokens, token.length < 2 ^ 32 := hincident
      obtain ⟨hserves, hresponse⟩ := h.execute htokens padding
      obtain ⟨responses, store', m', hserve, hexplains, hserves'⟩ := ih hserves hrest
      have hexecute := CommandProcessor.execute_ok (neverThrow_calls padding) store tokens
      refine ⟨(CommandProcessor.reply (calls padding) store tokens).2 :: responses, store', m',
        ?_, .answered (Prod.ext rfl ?_) hexplains, hserves'⟩
      · rw [KVStore.serve, hexecute]
        show (KVStore.serve (CommandProcessor.execute (calls padding) store tokens).1 incidents >>= _) = _
        rw [hserve]
        rfl
      · exact hresponse.symm.trans (congrArg Prod.snd hexecute)
    | restarted coins =>
      obtain ⟨store₁, responses, store', m', hconstruct, hserve, hexplains, hserves'⟩ :=
        hstart h.keeps coins
      refine ⟨responses, store', m', ?_, .restarted hexplains, hserves'⟩
      rw [KVStore.serve, hconstruct]
      exact hserve
    | interrupted tokens padding cut coins =>
      have htokens : ∀ token ∈ tokens, token.length < 2 ^ 32 := hincident
      -- the files hold the map without the interrupted request or with it
      rcases h.diskUntil htokens padding cut with hkeeps | hkeeps
      · obtain ⟨store₁, responses, store', m', hconstruct, hserve, hexplains, hserves'⟩ :=
          hstart hkeeps coins
        refine ⟨responses, store', m', ?_, .dropped hexplains, hserves'⟩
        rw [KVStore.serve, hconstruct]
        exact hserve
      · obtain ⟨store₁, responses, store', m', hconstruct, hserve, hexplains, hserves'⟩ :=
          hstart hkeeps coins
        refine ⟨responses, store', m', ?_, .applied hexplains, hserves'⟩
        rw [KVStore.serve, hconstruct]
        exact hserve

/-- The empty directory. -/
theorem keeps_empty : Disk.Keeps {} MapStore.new :=
  ⟨_, _, stores_empty, MapStore.get_new.symm⟩

/-- A store that is constructed from files that hold the map of a reference store, whatever
    happens to it, throws nothing and responds as the reference store does. -/
theorem restarts_invisible {options : EngineOptions} (hwal : options.enableWal = true)
    {disk : Disk} {m : MapStore Bytes Bytes} (hkeeps : disk.Keeps m) (coins : Nat → Nat → Bool)
    {incidents : List Incident} (hfits : ∀ incident ∈ incidents, incident.Fits) :
    ∃ store responses store' m', construct options coins disk = .ok store ∧
      store.serve incidents = .ok (responses, store') ∧ Explains m incidents responses m' ∧
      store'.get = m'.get := by
  obtain ⟨store, hconstruct, -, hserves⟩ := serves_of_construct hwal hkeeps coins
  obtain ⟨responses, store', m', hserve, hexplains, hserves'⟩ := hserves.serve hfits
  exact ⟨store, responses, store', m', hconstruct, hserve, hexplains, hserves'.get_eq⟩

/-- A `PUT`, a `CHECKPOINT` in which the process ends behind the renaming, and a `GET`. -/
theorem restarts_invisible_three :
    ∃ store responses store' m', construct {} (fun _ _ => false) {} = .ok store ∧
      store.serve [.answered [ascii "PUT", ascii "k", ascii "v"] {},
        .interrupted [ascii "CHECKPOINT"] {} .renamed fun _ _ => true,
        .answered [ascii "GET", ascii "k"] {}] = .ok (responses, store') ∧
      Explains MapStore.new [.answered [ascii "PUT", ascii "k", ascii "v"] {},
        .interrupted [ascii "CHECKPOINT"] {} .renamed fun _ _ => true,
        .answered [ascii "GET", ascii "k"] {}] responses m' ∧ store'.get = m'.get := by
  refine restarts_invisible rfl keeps_empty _ ?_
  unfold Incident.Fits
  intro incident hincident
  fin_cases hincident <;> decide

end KvStore.KVStore
