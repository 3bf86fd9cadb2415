import KvStore.Spec.RequestDurability
import KvStore.Spec.SystemLink

/-!
# The clients see one atomic store

`clients_see_atomic_store`: whatever the clients of a system see, they could see if they all
used one reference store, each of their requests taking effect at one moment between the
typed line and its response. The network may cut the byte streams anywhere, connections may
break, and the process of the server may end and be started again between any two changes of
its files.
-/

namespace KvStore

/-- A reference store whose clients send requests. -/
abbrev AtomicStore (ι : Type) := AtomicObject.State (MapStore Bytes Bytes) (List Bytes) Bytes ι

/-- A client and what it sees. -/
abbrev ClientEvent (ι : Type) := ι × AtomicObject.Event (List Bytes) Bytes

/-- What the clients of a reference store can see on the way from one state to another. -/
abbrev AtomicStore.Shows {ι : Type} [DecidableEq ι] (a : AtomicStore ι)
    (events : List (ClientEvent ι)) (b : AtomicStore ι) : Prop :=
  Emits (AtomicObject.Step (CommandProcessor.reply MapStore.calls)) AtomicObject.emits a events b

namespace KVStore

variable {store : KVStore} {m : MapStore Bytes Bytes} {tokens : List Bytes}

/-- A request, executed on both stores. -/
theorem Serves.reply (h : store.Serves m) (hfits : ∀ token ∈ tokens, token.length < 2 ^ 32)
    (padding : Padding) :
    (CommandProcessor.reply (calls padding) store tokens).1.Serves
        (CommandProcessor.reply MapStore.calls m tokens).1 ∧
      (CommandProcessor.reply (calls padding) store tokens).2 =
        (CommandProcessor.reply MapStore.calls m tokens).2 := by
  obtain ⟨hserves, hresponse⟩ := h.execute hfits padding
  refine ⟨hserves, ?_⟩
  unfold CommandProcessor.reply
  rw [hresponse]

/-- The files after at most one request, when the process ends during an event. -/
theorem Serves.diskAfter (h : store.Serves m) {requests : List DecodedRequest}
    (hone : requests = [] ∨
      ∃ request : DecodedRequest, requests = [request] ∧
        ∀ token ∈ request.tokens, token.length < 2 ^ 32)
    (executed : Nat) (padding : Padding) (cut : CutPoint) :
    (store.diskAfter requests executed padding cut).Keeps m ∨
      ∃ request : DecodedRequest, requests = [request] ∧
        (store.diskAfter requests executed padding cut).Keeps
          (CommandProcessor.reply MapStore.calls m request.tokens).1 := by
  unfold KVStore.diskAfter
  rcases hone with rfl | ⟨request, rfl, hfits⟩
  · refine .inl ?_
    rw [List.take_nil]
    exact h.keeps
  · cases executed with
    | zero =>
      -- the process ends in the middle of the request
      rcases h.diskUntil hfits padding cut with hkeeps | hkeeps
      · exact .inl hkeeps
      · exact .inr ⟨request, rfl, hkeeps⟩
    | succ executed =>
      refine .inr ⟨request, rfl, ?_⟩
      simp only [List.take_succ_cons, List.take_nil, List.foldl_cons, List.foldl_nil,
        List.getElem?_cons_succ, List.getElem?_nil]
      exact (h.execute hfits padding).1.keeps

end KVStore

namespace System

open AtomicObject Connection

variable {ι : Type} [DecidableEq ι]

/-- What is seen of a client that has taken a line. -/
def request (i : ι) (client : ClientState) : List (ClientEvent ι) :=
  (client.request?.map fun tokens => (i, .call tokens)).toList

/-- What is seen of a client that gives up. -/
def failure (i : ι) (client : ClientState) : List (ClientEvent ι) :=
  (client.request?.map fun tokens => (i, .fail tokens)).toList

/-- What the clients see of a move. -/
def emits (s : System ι) : Move ι → List (ClientEvent ι)
  | .type i line => request i (Client.takeLine line.text [])
  | .finish i =>
    match (s.links i).client with
    | .reading tokens buffer =>
      ((find buffer 0).map fun pos => (i, .answer tokens (substr buffer 0 (pos + 2)))).toList
    | _ => []
  | .hangUp i | .kill i => failure i (s.links i).client
  | _ => []

/-- A system, and what its clients see of a reference store. -/
structure Simulates (s : System ι) (a : AtomicStore ι) : Prop where
  serves : s.server.store.Serves a.object
  plain : a.object.Plain
  backlog : ∀ i, (s.links i).backlog = true → s.server.connections i = none
  linked : ∀ i, Linked (s.links i) (s.server.connections i) (a.phase i)

variable {s t : System ι} {a b : AtomicStore ι} {i : ι}

/-- A move that has to do with one link. -/
theorem Simulates.frame (h : Simulates s a) (hserves : t.server.store.Serves b.object)
    (hplain : b.object.Plain) (hlinks : ∀ j ≠ i, t.links j = s.links j)
    (hconnections : ∀ j ≠ i, t.server.connections j = s.server.connections j)
    (hphase : ∀ j ≠ i, b.phase j = a.phase j)
    (hbacklog : (t.links i).backlog = true → t.server.connections i = none)
    (hlinked : Linked (t.links i) (t.server.connections i) (b.phase i)) : Simulates t b := by
  refine ⟨hserves, hplain, fun j hj => ?_, fun j => ?_⟩
  · by_cases hji : j = i
    · subst hji
      exact hbacklog hj
    · rw [hlinks j hji] at hj
      rw [hconnections j hji]
      exact h.backlog j hj
  · by_cases hji : j = i
    · subst hji
      exact hlinked
    · rw [hlinks j hji, hconnections j hji, hphase j hji]
      exact h.linked j

/-- A move of a client. -/
theorem Simulates.client (h : Simulates s a) {link : Link}
    (hbacklog : link.backlog = (s.links i).backlog) {phase : Phase (List Bytes) Bytes}
    (hlinked : Linked link (s.server.connections i) phase) :
    Simulates (s.withLink i link) (a.withPhase i phase) := by
  refine h.frame (i := i) h.serves h.plain ?_ (fun _ _ => rfl) ?_ ?_ ?_
  · exact fun j hj => links_withLink_of_ne hj
  · exact fun j hj => phase_withPhase_of_ne hj
  · intro hj
    refine h.backlog i ?_
    rwa [← hbacklog, ← links_withLink_self s i link]
  · simpa using hlinked

/-- Only the state of the client changes. -/
theorem Simulates.withClient (h : Simulates s a) {client : ClientState}
    {phase : Phase (List Bytes) Bytes}
    (hlinked : Linked { s.links i with client } (s.server.connections i) phase) :
    Simulates (s.withClient i client) (a.withPhase i phase) :=
  h.client (show ({ s.links i with client } : Link).backlog = _ from rfl) hlinked

/-- The phase that a client has anyway. -/
@[simp] theorem withPhase_phase (a : AtomicStore ι) (i : ι) : a.withPhase i (a.phase i) = a := by
  simp [State.withPhase]

/-- One step of the reference store. -/
theorem shows_single {label : ι × Action (List Bytes)} {events : List (ClientEvent ι)}
    (hstep : Step (CommandProcessor.reply MapStore.calls) a label b)
    (hevents : AtomicObject.emits a label = events) : a.Shows events b :=
  hevents ▸ .single hstep

/-! ## The moves of the server -/

/-- A call takes effect. -/
theorem Simulates.commit {tokens : List Bytes} (hcalled : a.phase i = .called tokens) :
    a.Shows []
      { a.withPhase i (.done tokens (CommandProcessor.reply MapStore.calls a.object tokens).2) with
        object := (CommandProcessor.reply MapStore.calls a.object tokens).1 } := by
  exact shows_single (.commit hcalled) rfl

/-- A call that has been given up takes effect. -/
theorem Simulates.commitOrphaned {tokens : List Bytes} (horphaned : a.phase i = .orphaned tokens) :
    a.Shows []
      { a.withPhase i .idle with
        object := (CommandProcessor.reply MapStore.calls a.object tokens).1 } := by
  exact shows_single (.commitOrphaned horphaned) rfl

/-- The server handles an event. -/
theorem Simulates.handle (h : Simulates s a) {event : ReadyEvent ι} {padding : Padding}
    (hdelivers : s.Delivers event) {written : Bytes} {server : Reactor ι KVStore}
    (hhandle : s.server.handleConnectionEvent (CommandProcessor.execute (KVStore.calls padding))
      event = (written, .ok server)) :
    ∃ b, a.Shows [] b ∧
      Simulates ({ s with server }.withLink event.connection
        ((s.links event.connection).afterEvent (s.eventTrace event).received.length written))
        b := by
  have hlinked := h.linked event.connection
  obtain ⟨hchunks, hpre⟩ := hdelivers
  unfold Reactor.handleConnectionEvent at hhandle
  cases hconnection : s.server.connections event.connection with
  | none =>
    -- the connection has been closed before
    rw [hconnection] at hhandle hlinked
    cases hhandle
    have htrace : s.eventTrace event = { ending := .closed } := by rw [eventTrace, hconnection]
    refine ⟨a, .refl, ?_⟩
    have hlink : (s.links event.connection).afterEvent (s.eventTrace event).received.length [] =
        s.links event.connection := by
      rw [htrace]
      simp [Link.afterEvent]
    rw [hlink, withLink, Function.update_eq_self]
    exact h
  | some c =>
    have htrace : s.eventTrace event = c.eventTrace event := by rw [eventTrace, hconnection]
    rw [htrace] at hpre ⊢
    rw [hconnection] at hhandle hlinked
    have htotal : CommandProcessor.execute (KVStore.calls padding) =
        total (CommandProcessor.reply (KVStore.calls padding)) :=
      funext fun store => funext fun tokens =>
        CommandProcessor.execute_ok (KVStore.neverThrow_calls padding) store tokens
    obtain ⟨written', result, heq, hhandled⟩ :=
      handleEvent_cases (CommandProcessor.reply (KVStore.calls padding)) s.server.store c event
    rw [htotal] at hhandle
    simp only [heq] at hhandle
    -- the connection is kept or closed
    have hserver : written' = written ∧ server =
        { store := executeAll (CommandProcessor.reply (KVStore.calls padding)) s.server.store
            (c.eventTrace event).requests
          connections := Function.update s.server.connections event.connection
            result.connection? } := by
      rcases hhandled.cases with ⟨next, rfl, -⟩ | ⟨rfl, -⟩
      · cases hhandle
        exact ⟨rfl, rfl⟩
      · cases hhandle
        exact ⟨rfl, rfl⟩
    obtain ⟨rfl, rfl⟩ := hserver
    have hbacklog : (s.links event.connection).backlog = false := by
      cases hbacklog : (s.links event.connection).backlog with
      | false => rfl
      | true => cases (h.backlog _ hbacklog).symm.trans hconnection
    have hcases := hlinked.handle hbacklog hchunks hpre hhandled
    -- it is enough to know the store and this link afterwards
    have hframe {b : AtomicStore ι}
        (hserves : (executeAll (CommandProcessor.reply (KVStore.calls padding)) s.server.store
          (c.eventTrace event).requests).Serves b.object) (hplain : b.object.Plain)
        (hphase : ∀ j ≠ event.connection, b.phase j = a.phase j)
        (hlinked' : Linked ((s.links event.connection).afterEvent
          (c.eventTrace event).received.length written') result.connection?
          (b.phase event.connection)) :
        Simulates ({ s with server :=
          { store := executeAll (CommandProcessor.reply (KVStore.calls padding)) s.server.store
              (c.eventTrace event).requests
            connections := Function.update s.server.connections event.connection
              result.connection? } }.withLink event.connection
          ((s.links event.connection).afterEvent (c.eventTrace event).received.length
            written')) b := by
      refine h.frame (i := event.connection) hserves hplain ?_ ?_ hphase ?_ ?_
      · exact fun j hj => links_withLink_of_ne hj
      · exact fun j hj => Function.update_of_ne hj _ _
      · intro hj
        rw [links_withLink_self] at hj
        exact absurd (hbacklog.symm.trans hj) Bool.false_ne_true
      · simpa using hlinked'
    -- at most one request is executed, and then its call is open or has been given up
    rcases hcases with ⟨hrequests, hlinked'⟩ | ⟨tokens, hrequests, hsend, hcases⟩
    · refine ⟨a, .refl, hframe ?_ h.plain (fun _ _ => rfl) hlinked'⟩
      rw [hrequests]
      exact h.serves
    · obtain ⟨hserves, hresponse⟩ := h.serves.reply hsend.fits padding
      have hserves' : (executeAll (CommandProcessor.reply (KVStore.calls padding)) s.server.store
          (c.eventTrace event).requests).Serves
            (CommandProcessor.reply MapStore.calls a.object tokens).1 := by
        rw [hrequests]
        exact hserves
      have hplain := h.plain.reply hsend.plain
      have hline := h.plain.isLine_reply tokens
      rw [hresponse] at hcases
      rcases hcases with ⟨hcalled, hlinked'⟩ | ⟨horphaned, hlinked'⟩
      · refine ⟨_, Simulates.commit hcalled, hframe hserves' hplain ?_ ?_⟩
        · exact fun j hj => phase_withPhase_of_ne hj
        · simpa using hlinked' hline
      · refine ⟨_, Simulates.commitOrphaned horphaned, hframe hserves' hplain ?_ ?_⟩
        · exact fun j hj => phase_withPhase_of_ne hj
        · simpa using hlinked'

/-- The process of the server ends and is started again. -/
theorem Simulates.crash (h : Simulates s a) {event : ReadyEvent ι} (hdelivers : s.Delivers event)
    {executed : Nat} {padding : Padding} {cut : CutPoint} {coins : Nat → Nat → Bool}
    {store : KVStore}
    (hconstruct : KVStore.construct s.server.store.options coins
      (s.server.store.diskAfter (s.eventTrace event).requests executed padding cut) = .ok store) :
    ∃ b, a.Shows [] b ∧
      Simulates { server := { store, connections := fun _ => none },
                  links := fun i => (s.links i).reset } b := by
  obtain ⟨hchunks, hpre⟩ := hdelivers
  -- the links that have nothing to do with the event
  have hframe {b : AtomicStore ι} (hserves : store.Serves b.object) (hplain : b.object.Plain)
      (hlinked : ∀ i, Linked (s.links i).reset none (b.phase i)) :
      Simulates { server := { store, connections := fun _ => none },
                  links := fun i => (s.links i).reset } b :=
    ⟨hserves, hplain, fun _ _ => rfl, hlinked⟩
  -- the event executes at most one request, the one that is under way on this link
  have hone : (s.eventTrace event).requests = [] ∨ ∃ c request,
      s.server.connections event.connection = some c ∧
        (c.eventTrace event).requests = [request] ∧
        (s.eventTrace event).requests = [request] ∧ Sendable request.tokens ∧
        ((a.phase event.connection = .called request.tokens ∧ ∀ response, IsLine response →
            Linked (s.links event.connection).reset none (.done request.tokens response)) ∨
          (a.phase event.connection = .orphaned request.tokens ∧
            Linked (s.links event.connection).reset none .idle)) := by
    have hlinked := h.linked event.connection
    unfold eventTrace at hpre ⊢
    cases hconnection : s.server.connections event.connection with
    | none => exact .inl rfl
    | some c =>
      rw [hconnection] at hpre hlinked
      simp only
      cases hrequests : (c.eventTrace event).requests with
      | nil => exact .inl rfl
      | cons request requests =>
        obtain ⟨rfl, hsend, hcases⟩ := hlinked.resetExecuted hchunks hpre hrequests
        exact .inr ⟨c, request, rfl, hrequests, rfl, hsend, hcases⟩
  have hfits : (s.eventTrace event).requests = [] ∨ ∃ request : DecodedRequest,
      (s.eventTrace event).requests = [request] ∧
        ∀ token ∈ request.tokens, token.length < 2 ^ 32 := by
    rcases hone with hnone | ⟨c, request, -, -, hrequests, hsend, -⟩
    · exact .inl hnone
    · exact .inr ⟨request, hrequests, hsend.fits⟩
  rcases h.serves.diskAfter hfits executed padding cut with
    hkeeps | ⟨request, hrequests, hkeeps⟩
  · -- nothing has been executed that is still known
    obtain ⟨store', hconstruct', -, hserves⟩ :=
      KVStore.serves_of_construct h.serves.walEnabled hkeeps coins
    obtain rfl := Except.ok.inj (hconstruct'.symm.trans hconstruct)
    exact ⟨a, .refl, hframe hserves h.plain fun i => (h.linked i).reset⟩
  · obtain ⟨store', hconstruct', -, hserves⟩ :=
      KVStore.serves_of_construct h.serves.walEnabled hkeeps coins
    obtain rfl := Except.ok.inj (hconstruct'.symm.trans hconstruct)
    -- the request takes effect before the process ends
    rcases hone with hnone | ⟨c, request', -, -, hrequests', hsend, hcases⟩
    · cases hnone.symm.trans hrequests
    · cases hrequests.symm.trans hrequests'
      have hline := h.plain.isLine_reply request.tokens
      rcases hcases with ⟨hcalled, hlinked⟩ | ⟨horphaned, hlinked⟩
      · refine ⟨_, Simulates.commit hcalled, hframe hserves (h.plain.reply hsend.plain) ?_⟩
        intro i
        by_cases hi : i = event.connection
        · subst hi
          simpa using hlinked _ hline
        · simpa [hi] using (h.linked i).reset
      · refine ⟨_, Simulates.commitOrphaned horphaned,
          hframe hserves (h.plain.reply hsend.plain) ?_⟩
        intro i
        by_cases hi : i = event.connection
        · subst hi
          simpa using hlinked
        · simpa [hi] using (h.linked i).reset

/-! ## The moves of the clients -/

/-- A client ends, and gives its call up. -/
theorem Simulates.leave (h : Simulates s a) (i : ι) :
    ∃ b, a.Shows (failure i (s.links i).client) b ∧ Simulates (s.withClient i .away) b := by
  have hlinked := h.linked i
  have hleave := hlinked.leave
  -- what is seen is a failure exactly if there is a call
  have hfail {phase : Phase (List Bytes) Bytes} (tokens : List Bytes)
      (hstep : Step (CommandProcessor.reply MapStore.calls) a (i, .fail) (a.withPhase i phase))
      (hemits : AtomicObject.emits a (i, Action.fail) = [(i, .fail tokens)])
      (hclient : (s.links i).client.request? = some tokens)
      (hlinked' : Linked { s.links i with client := .away } (s.server.connections i) phase) :
      ∃ b, a.Shows (failure i (s.links i).client) b ∧ Simulates (s.withClient i .away) b := by
    refine ⟨_, ?_, h.withClient hlinked'⟩
    rw [failure, hclient]
    exact shows_single hstep hemits
  have hsilent (hclient : (s.links i).client.request? = none)
      (hphase : KvStore.leave (a.phase i) = a.phase i) :
      ∃ b, a.Shows (failure i (s.links i).client) b ∧ Simulates (s.withClient i .away) b := by
    refine ⟨a, ?_, ?_⟩
    · rw [failure, hclient]
      exact .refl
    · have hsim := h.withClient hleave
      rwa [hphase, withPhase_phase] at hsim
  generalize hphase : a.phase i = phase at hlinked
  rw [hphase] at hleave hsilent
  cases hlinked with
  | away hclient | orphaned hclient | prompt hclient =>
    exact hsilent (by rw [hclient]; rfl) rfl
  | @writing tokens _ hclient | @reading tokens hclient =>
    exact hfail tokens (.fail hphase) (by simp [AtomicObject.emits, hphase])
      (by rw [hclient]; rfl) hleave
  | @answered tokens _ _ hclient =>
    exact hfail tokens (.failDone hphase) (by simp [AtomicObject.emits, hphase])
      (by rw [hclient]; rfl) hleave

/-- A line is typed in. -/
theorem Simulates.type (h : Simulates s a) {line : TypedLine} {buffer : Bytes}
    (hclient : (s.links i).client = .prompt buffer) :
    ∃ b, a.Shows (s.emits (.type i line)) b ∧
      Simulates (s.withClient i (Client.takeLine line.text buffer)) b := by
  obtain ⟨rfl, hidle, hquiet, hout⟩ := (h.linked i).of_prompt hclient
  have hsilent {client : ClientState}
      (hlinked : Linked { s.links i with client } (s.server.connections i) .idle) :
      Simulates (s.withClient i client) a := by
    have hsim := h.withClient hlinked
    rwa [← hidle, withPhase_phase] at hsim
  show ∃ b, a.Shows (request i (Client.takeLine line.text [])) b ∧ _
  -- only a line that holds a request becomes a call
  cases hparse : Client.parseInteractiveCommand line.text with
  | error error =>
    have htake : Client.takeLine line.text [] = .away := by rw [Client.takeLine, hparse]
    rw [htake]
    exact ⟨a, .refl, hsilent (.away rfl hquiet)⟩
  | ok tokens =>
    have hsend := sendable_of_typed line hparse
    cases tokens with
    | nil =>
      -- a blank line is skipped
      have htake : Client.takeLine line.text [] = .prompt [] := by rw [Client.takeLine, hparse]
      rw [htake]
      exact ⟨a, .refl, hsilent (.prompt rfl hquiet hout)⟩
    | cons first args =>
      have htake : Client.takeLine line.text [] =
          .writing (first :: args) (encodeResp (first :: args)) [] := by
        rw [Client.takeLine, hparse]
      rw [htake]
      exact ⟨_, shows_single (.call (first :: args) hidle) rfl,
        h.withClient (linked_type hquiet hout hsend)⟩

/-- Every move can be answered by steps of the atomic object that show the same. -/
theorem Simulates.step {move : Move ι} (h : Simulates s a) (hstep : s.step move = some t) :
    ∃ b, a.Shows (s.emits move) b ∧ Simulates t b := by
  -- a move of a client that nobody sees
  have hsilent {i : ι} {link : Link} (hbacklog : link.backlog = (s.links i).backlog)
      (hlinked : Linked link (s.server.connections i) (a.phase i)) :
      Simulates (s.withLink i link) a := by
    have hsim := h.client (i := i) hbacklog hlinked
    rwa [withPhase_phase] at hsim
  cases move with
  | connect i =>
    simp only [System.step] at hstep
    -- a client connects only if nothing is left of its last connection
    split at hstep
    · rename_i hclient hconnection
      split at hstep
      · cases hstep
      · obtain rfl := Option.some.inj hstep
        -- a call that was given up on this connection will not take effect any more
        have hidle : ∃ b, a.Shows [] b ∧ b = a.withPhase i .idle := by
          have hlinked := h.linked i
          generalize hphase : a.phase i = phase at hlinked
          cases hlinked with
          | away | prompt => exact ⟨a, .refl, by rw [← hphase, withPhase_phase]⟩
          | orphaned => exact ⟨_, shows_single (.drop hphase) rfl, rfl⟩
          | writing hclient' | reading hclient' | answered hclient' =>
            cases hclient.symm.trans hclient'
        obtain ⟨b, hrun, rfl⟩ := hidle
        refine ⟨_, hrun, h.frame (i := i) h.serves h.plain ?_ (fun _ _ => rfl) ?_ ?_ ?_⟩
        · exact fun j hj => links_withLink_of_ne hj
        · exact fun j hj => phase_withPhase_of_ne hj
        · exact fun _ => hconnection
        · rw [server_withLink, hconnection]
          simpa using linked_connect
    · cases hstep
  | accept i =>
    simp only [System.step] at hstep
    split at hstep
    · rename_i hbacklog
      obtain rfl := Option.some.inj hstep
      have hlinked := h.linked i
      rw [h.backlog i hbacklog] at hlinked
      refine ⟨a, .refl, h.frame (i := i) h.serves h.plain ?_ ?_ (fun _ _ => rfl) ?_ ?_⟩
      · exact fun j hj => links_withLink_of_ne hj
      · exact fun j hj => Function.update_of_ne hj _ _
      · intro hj
        rw [links_withLink_self] at hj
        cases hj
      · simpa [Reactor.accept] using hlinked.accept hbacklog
    · cases hstep
  | type i line =>
    simp only [System.step] at hstep
    split at hstep
    · rename_i buffer hclient
      obtain rfl := Option.some.inj hstep
      exact h.type hclient
    · cases hstep
  | send i count =>
    simp only [System.step] at hstep
    split at hstep
    · rename_i tokens rest buffer hclient
      obtain rfl := Option.some.inj hstep
      exact ⟨a, .refl, hsilent rfl ((h.linked i).send hclient count)⟩
    · cases hstep
  | handle event padding =>
    simp only [System.step] at hstep
    split at hstep
    · rename_i hdelivers
      split at hstep
      · cases hstep
      · rename_i written server hhandle
        obtain rfl := Option.some.inj hstep
        exact h.handle hdelivers hhandle
    · cases hstep
  | receive i count =>
    simp only [System.step] at hstep
    split at hstep
    · rename_i tokens buffer hclient
      split at hstep
      · rename_i hreads
        obtain rfl := Option.some.inj hstep
        exact ⟨a, .refl, hsilent rfl ((h.linked i).receive hclient hreads.2.1 hreads.2.2)⟩
      · cases hstep
    · cases hstep
  | finish i =>
    simp only [System.step] at hstep
    split at hstep
    · rename_i tokens buffer hclient
      obtain ⟨pos, hfind, rfl⟩ := Option.map_eq_some_iff.mp hstep
      obtain ⟨hdone, hlinked⟩ := (h.linked i).finish hclient hfind
      -- the call has taken effect before, so it can be answered
      refine ⟨_, shows_single (.answer hdone) ?_, h.withClient hlinked⟩
      simp [AtomicObject.emits, emits, hclient, hfind, hdone]
    · cases hstep
  | hangUp i =>
    simp only [System.step] at hstep
    split at hstep
    · split at hstep
      · obtain rfl := Option.some.inj hstep
        exact h.leave i
      · cases hstep
    · cases hstep
  | kill i =>
    obtain rfl := Option.some.inj hstep
    exact h.leave i
  | crash event executed padding cut coins =>
    simp only [System.step] at hstep
    split at hstep
    · rename_i hdelivers
      split at hstep
      · cases hstep
      · rename_i store hconstruct
        obtain rfl := Option.some.inj hstep
        exact h.crash hdelivers hconstruct
    · cases hstep

/-! ## Whole runs -/

/-- Every run can be answered by a run of the reference store that shows the same. -/
theorem simulates_of_run {options : EngineOptions} (hwal : options.enableWal = true)
    {disk : Disk} {m : MapStore Bytes Bytes} (hkeeps : disk.Keeps m) (hplain : m.Plain)
    {coins : Nat → Nat → Bool} {store : KVStore}
    (hconstruct : KVStore.construct options coins disk = .ok store)
    {events : List (ClientEvent ι)}
    (hrun : Emits (fun (s : System ι) move t => s.step move = some t) emits (start store) events
      s) :
    ∃ a : AtomicStore ι, AtomicStore.Shows { object := m } events a ∧ Simulates s a := by
  obtain ⟨store₁, hconstruct₁, -, hserves⟩ := KVStore.serves_of_construct hwal hkeeps coins
  obtain rfl := Except.ok.inj (hconstruct₁.symm.trans hconstruct)
  have hstart : Simulates (start store₁ : System ι) { object := m } :=
    ⟨hserves, hplain, fun _ _ => rfl, fun _ => linked_new⟩
  exact hrun.simulate hstart fun h hstep => h.step hstep

/-- In every run of a system, the clients see what they could see of one reference store. At
    the end the server holds the map of this store, and so does every server that is started
    on its files. -/
theorem clients_see_atomic_store {options : EngineOptions} (hwal : options.enableWal = true)
    {disk : Disk} {m : MapStore Bytes Bytes} (hkeeps : disk.Keeps m) (hplain : m.Plain)
    {coins : Nat → Nat → Bool} {store : KVStore}
    (hconstruct : KVStore.construct options coins disk = .ok store)
    {events : List (ClientEvent ι)}
    (hrun : Emits (fun (s : System ι) move t => s.step move = some t) emits (start store) events
      s) :
    ∃ a : AtomicStore ι, AtomicStore.Shows { object := m } events a ∧
      s.server.store.get = a.object.get ∧
      ∀ coins', ∃ store', KVStore.construct s.server.store.options coins' s.server.store.disk =
        .ok store' ∧ store'.get = a.object.get := by
  obtain ⟨a, hemits, hsim⟩ := simulates_of_run hwal hkeeps hplain hconstruct hrun
  refine ⟨a, hemits, hsim.serves.get_eq, fun coins' => ?_⟩
  obtain ⟨store', hconstruct', -, hserves'⟩ :=
    KVStore.serves_of_construct hsim.serves.walEnabled hsim.serves.keeps coins'
  exact ⟨store', hconstruct', hserves'.get_eq⟩

/-- Lines that two clients type in. -/
def putLine : TypedLine := { text := ascii "PUT k v", oneLine := by decide, short := by decide }

def getLine : TypedLine := { text := ascii "get k", oneLine := by decide, short := by decide }

/-- A line is typed in, and its request and its response arrive in two parts each. -/
def exchange (i : Bool) (line : TypedLine) (tokens : List Bytes) (size : Nat) : List (Move Bool) :=
  [.type i line, .send i 7, .send i 100,
    .handle { connection := i, events := { epollIn := true }
              reads := [.bytes ((encodeResp tokens).take 9)] } {},
    .handle { connection := i, events := { epollIn := true }
              reads := [.bytes ((encodeResp tokens).drop 9)], writes := [.wrote 3, .wrote 100] } {},
    .receive i 1, .receive i (size - 1), .finish i]

/-- A client puts a pair, the server ends and is started again, and another client asks for
    the key. -/
def putCrashGet : List (Move Bool) :=
  [.connect false, .accept false] ++
    exchange false putLine [ascii "PUT", ascii "k", ascii "v"] 8 ++
    [.crash { connection := false, events := {} } 0 {} .before fun _ _ => true,
      .connect true, .accept true] ++
    exchange true getLine [ascii "get", ascii "k"] 9

/-- One client puts a key, the other one gets its value. -/
theorem clients_see_atomic_store_two :
    ∃ (s : System Bool) (a : AtomicStore Bool),
      AtomicStore.Shows { object := MapStore.new }
        [(false, .call [ascii "PUT", ascii "k", ascii "v"]),
          (false, .answer [ascii "PUT", ascii "k", ascii "v"] (ascii "OK PUT\r\n")),
          (true, .call [ascii "get", ascii "k"]),
          (true, .answer [ascii "get", ascii "k"] (ascii "VALUE v\r\n"))] a ∧
      s.server.store.get = a.object.get ∧
      ∀ coins', ∃ store', KVStore.construct s.server.store.options coins' s.server.store.disk =
        .ok store' ∧ store'.get = a.object.get := by
  have hcomputed : (putCrashGet.foldlM (fun (x : List (ClientEvent Bool) ×
        System Bool) move => (x.2.step move).map fun t => (x.1 ++ emits x.2 move, t))
      ([], start KVStore.fresh)).any (fun x => decide (x.1 =
        [(false, .call [ascii "PUT", ascii "k", ascii "v"]),
          (false, .answer [ascii "PUT", ascii "k", ascii "v"] (ascii "OK PUT\r\n")),
          (true, .call [ascii "get", ascii "k"]),
          (true, .answer [ascii "get", ascii "k"] (ascii "VALUE v\r\n"))])) = true := by
    decide +kernel
  obtain ⟨events, s, hrun, hevents⟩ := Emits.exists_of_any hcomputed
  obtain rfl := of_decide_eq_true hevents
  exact ⟨s, clients_see_atomic_store rfl KVStore.keeps_empty MapStore.plain_new
    (KVStore.construct_empty _) hrun⟩

end System

end KvStore
