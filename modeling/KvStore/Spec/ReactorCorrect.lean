import KvStore.Spec.EventTrace
import KvStore.Spec.CommandExecution
import KvStore.ForStd.Transition

/-!
# The reactor answers in order

A `History` is a server together with what has happened on its connections: the bytes read
and written on each, and one sequence of all requests that have been executed. Its steps are
the events that the server handles, in any order and with any outcomes of `read` and `write`.
`answers_in_order` says that the requests of each connection are executed and answered
exactly once and in order.
-/

namespace KvStore

namespace Reactor

open Connection

/-- A server, and what has happened so far: which connections have been accepted, the bytes
    read from and written to each, and the requests that have been executed. -/
structure History (ι σ : Type) where
  reactor : Reactor ι σ
  accepted : ι → Bool := fun _ => false
  received : ι → Bytes := fun _ => []
  sent : ι → Bytes := fun _ => []
  executed : List (ι × DecodedRequest) := []

namespace History

variable {ι σ : Type} [DecidableEq ι]

/-- A server without connections. -/
def begin (store : σ) : History ι σ where
  reactor := { store, connections := fun _ => none }

/-- What the server does. -/
inductive Label (ι : Type) where
  | accept (connection : ι)
  | handle (event : ReadyEvent ι)

/-- What is read while an event is handled. -/
def trace (s : History ι σ) (event : ReadyEvent ι) : ReadTrace :=
  match s.reactor.connections event.connection with
  | none => { ending := .closed }
  | some connection => connection.eventTrace event

/-- A connection is accepted, or an event is handled. -/
inductive Step (execute : σ → List Bytes → σ × Except String Bytes) :
    History ι σ → Label ι → History ι σ → Prop where
  | accept {s : History ι σ} {i : ι} (hnew : s.accepted i = false) :
      Step execute s (.accept i)
        { s with reactor := s.reactor.accept i, accepted := Function.update s.accepted i true }
  | handle {s : History ι σ} {event : ReadyEvent ι} {written : Bytes} {reactor : Reactor ι σ}
      (hhandle : s.reactor.handleConnectionEvent execute event = (written, .ok reactor)) :
      Step execute s (.handle event)
        { s with
          reactor
          received := Function.update s.received event.connection
            (s.received event.connection ++ (s.trace event).received)
          sent := Function.update s.sent event.connection (s.sent event.connection ++ written)
          executed := s.executed ++ (s.trace event).requests.map (event.connection, ·) }

/-- A step that no exception leaves is a step of a server whose commands do not throw. -/
theorem Step.of_agrees {execute : σ → List Bytes → σ × Except String Bytes}
    {run : σ → List Bytes → σ × Bytes} (h : Agrees execute run) {s t : History ι σ}
    {label : Label ι} (hstep : Step execute s label t) : Step (total run) s label t := by
  cases hstep with
  | accept hnew => exact .accept hnew
  | @handle event written reactor hhandle =>
    refine .handle ?_
    unfold handleConnectionEvent at hhandle ⊢
    cases hconnection : s.reactor.connections event.connection with
    | none =>
      rw [hconnection] at hhandle
      exact hhandle
    | some connection =>
      rw [hconnection] at hhandle
      rcases hevent : connection.handleEvent execute s.reactor.store event with
        ⟨store, written', result⟩
      simp only [hevent] at hhandle
      -- the step has been taken, so nothing was thrown
      have hthrown : ∀ error, result ≠ .thrown error := by
        rintro error rfl
        cases hhandle
      simp only [h.handleEvent_eq hthrown hevent]
      exact hhandle

/-! ## Sequences of executed requests -/

/-- The requests of one connection. -/
def requestsOf (i : ι) (executed : List (ι × DecodedRequest)) : List DecodedRequest :=
  (executed.filter fun entry => entry.1 = i).map Prod.snd

section Replies

variable (run : σ → List Bytes → σ × Bytes)

/-- The responses to the requests of one connection, when all are executed one by one. -/
def repliesTo (i : ι) (store : σ) : List (ι × DecodedRequest) → Bytes
  | [] => []
  | (j, request) :: executed =>
    (if j = i then (run store request.tokens).2 else []) ++
      repliesTo i (run store request.tokens).1 executed

/-- The requests of a connection in two parts of a run. -/
theorem requestsOf_append (i : ι) (executed executed' : List (ι × DecodedRequest)) :
    requestsOf i (executed ++ executed') = requestsOf i executed ++ requestsOf i executed' := by
  simp [requestsOf]

/-- The requests of a connection that only one has made. -/
theorem requestsOf_map (i j : ι) (requests : List DecodedRequest) :
    requestsOf i (requests.map (j, ·)) = if j = i then requests else [] := by
  unfold requestsOf
  split
  · rename_i hij
    simp [List.filter_map, Function.comp_def, hij]
  · rename_i hij
    simp [List.filter_map, Function.comp_def, hij]

/-- The replies to a connection in two parts of a run. -/
theorem repliesTo_append (i : ι) (store : σ) (executed executed' : List (ι × DecodedRequest)) :
    repliesTo run i store (executed ++ executed') =
      repliesTo run i store executed ++
        repliesTo run i (executeAll run store (executed.map Prod.snd)) executed' := by
  induction executed generalizing store with
  | nil => rfl
  | cons entry executed ih =>
    rw [List.cons_append, repliesTo, ih, repliesTo, List.append_assoc]
    rfl

/-- The replies to a connection when only one has made requests. -/
theorem repliesTo_map (i j : ι) (store : σ) (requests : List DecodedRequest) :
    repliesTo run i store (requests.map (j, ·)) =
      if j = i then responses run store requests else [] := by
  induction requests generalizing store with
  | nil => simp [repliesTo, responses]
  | cons request requests ih =>
    rw [List.map_cons, repliesTo, ih]
    split <;> simp [responses]

/-- A connection without requests gets no responses. -/
theorem repliesTo_eq_nil {i : ι} {executed : List (ι × DecodedRequest)}
    (h : requestsOf i executed = []) (store : σ) : repliesTo run i store executed = [] := by
  induction executed generalizing store with
  | nil => rfl
  | cons entry executed ih =>
    unfold requestsOf at h
    by_cases hi : entry.1 = i
    · simp [hi] at h
    · rw [List.filter_cons_of_neg (by simpa using hi)] at h
      rw [repliesTo, if_neg hi, ih h, List.nil_append]

end Replies

/-! ## The invariant -/

/-- What comes in on each connection is a beginning of what its client sends, in chunks that
    fit the buffer. -/
def Ok (streams : ι → ClientStream) (s : History ι σ) : Label ι → Prop
  | .accept _ => True
  | .handle event =>
    (∀ chunk, .bytes chunk ∈ event.reads → chunk.length ≤ readSize) ∧
      s.received event.connection ++ (s.trace event).received <+:
        (streams event.connection).bytes

variable (run : σ → List Bytes → σ × Bytes) (streams : ι → ClientStream) (start : σ)

/-- An open connection: the requests that are complete have been executed, what is behind them
    is in the codec, and the responses have been written or are buffered. -/
structure Opened (s : History ι σ) (i : ι) (connection : Connection) : Prop where
  split : ∃ front rest, (streams i).Split (s.received i) front rest connection.codec.buffer ∧
    requestsOf i s.executed = front.map EncodedRequest.request
  output : s.sent i ++ connection.writeBuffer = repliesTo run i start s.executed
  quit : connection.closeAfterWrite = (requestsOf i s.executed).any isQuit

/-- The invariant. -/
structure Inv (s : History ι σ) : Prop where
  store : s.reactor.store = executeAll run start (s.executed.map Prod.snd)
  fresh : ∀ i, s.accepted i = false → s.reactor.connections i = none ∧ s.received i = [] ∧
    s.sent i = [] ∧ requestsOf i s.executed = []
  opened : ∀ i connection, s.reactor.connections i = some connection →
    Opened run streams start s i connection
  closed : ∀ i, s.reactor.connections i = none → s.sent i <+: repliesTo run i start s.executed

variable {run streams start} {s t : History ι σ}

/-- What one event reads from an open connection. -/
theorem Opened.eventTrace {event : ReadyEvent ι} {connection : Connection}
    (h : Opened run streams start s event.connection connection)
    (hconnection : s.reactor.connections event.connection = some connection)
    (hok : s.Ok streams (.handle event)) :
    ∃ front rest torn,
      (streams event.connection).Split
        (s.received event.connection ++ (s.trace event).received) front rest torn ∧
      ((s.trace event).ending ≠ .malformed ∧
          requestsOf event.connection s.executed ++ (s.trace event).requests =
            front.map EncodedRequest.request ∧
          (∀ codec, (s.trace event).ending = .waits codec → codec.buffer = torn) ∨
        (s.trace event).ending = .malformed ∧ rest = [] ∧
          (∃ error, tryExtractResp torn = .error error) ∧
          requestsOf event.connection s.executed ++ (s.trace event).requests <+:
            front.map EncodedRequest.request) := by
  obtain ⟨front, rest, hsplit, hrequests⟩ := h.split
  have htrace : s.trace event = connection.eventTrace event := by rw [trace, hconnection]
  obtain ⟨hchunks, hpre⟩ := hok
  rw [htrace] at hpre ⊢
  unfold Connection.eventTrace at hpre ⊢
  split at hpre
  · -- the requests of the chunks are those of the stream that come next
    rename_i hreads
    rw [if_pos hreads]
    obtain ⟨middle, rest', torn, -, hsplit', hcases⟩ := readTrace_eq hsplit hchunks hpre
    refine ⟨front ++ middle, rest', torn, hsplit', ?_⟩
    rw [hrequests, List.map_append, List.append_cancel_left_eq, List.prefix_append_right_inj]
    exact hcases
  · rename_i hreads
    rw [if_neg hreads]
    -- nothing is read
    refine ⟨front, rest, connection.codec.buffer, by rwa [List.append_nil], .inl ⟨nofun, ?_, ?_⟩⟩
    · rw [hrequests, List.append_nil]
    · intro codec hcodec
      cases hcodec
      rfl

/-- A step on one connection leaves the others as they are. -/
private theorem Opened.frame {i : ι} {connection : Connection}
    (h : Opened run streams start s i connection) (hreceived : t.received i = s.received i)
    (hsent : t.sent i = s.sent i) (hrequests : requestsOf i t.executed = requestsOf i s.executed)
    (hreplies : repliesTo run i start t.executed = repliesTo run i start s.executed) :
    Opened run streams start t i connection where
  split := by
    rw [hreceived, hrequests]
    exact h.split
  output := by rw [hsent, hreplies, h.output]
  quit := by rw [hrequests, h.quit]

/-- A step on one connection keeps the invariant if it keeps what the invariant says of this
    connection. -/
private theorem Inv.frame {i : ι} (h : Inv run streams start s)
    (haccepted : t.accepted = s.accepted) (hi : s.accepted i = true)
    (hconnections : ∀ j ≠ i, t.reactor.connections j = s.reactor.connections j)
    (hreceived : ∀ j ≠ i, t.received j = s.received j) (hsent : ∀ j ≠ i, t.sent j = s.sent j)
    (hrequests : ∀ j ≠ i, requestsOf j t.executed = requestsOf j s.executed)
    (hreplies : ∀ j ≠ i, repliesTo run j start t.executed = repliesTo run j start s.executed)
    (hstore : t.reactor.store = executeAll run start (t.executed.map Prod.snd))
    (hopened : ∀ connection, t.reactor.connections i = some connection →
      Opened run streams start t i connection)
    (hclosed : t.reactor.connections i = none → t.sent i <+: repliesTo run i start t.executed) :
    Inv run streams start t where
  store := hstore
  fresh j hj := by
    rw [haccepted] at hj
    -- the connection `i` has been accepted, so `j` is another one
    have hne : j ≠ i := fun heq => by simp [heq, hi] at hj
    rw [hconnections j hne, hreceived j hne, hsent j hne, hrequests j hne]
    exact h.fresh j hj
  opened j connection hj := by
    -- what was sent, received and requested on another connection stays
    by_cases heq : j = i
    · subst heq
      exact hopened connection hj
    · rw [hconnections j heq] at hj
      exact (h.opened j connection hj).frame (hreceived j heq) (hsent j heq) (hrequests j heq)
        (hreplies j heq)
  closed j hj := by
    by_cases heq : j = i
    · subst heq
      exact hclosed hj
    · rw [hconnections j heq] at hj
      rw [hsent j heq, hreplies j heq]
      exact h.closed j hj

/-! ## Steps -/

omit [DecidableEq ι] in
/-- The trace of an event is that of its connection. -/
theorem trace_eq {event : ReadyEvent ι} {connection : Connection}
    (hconnection : s.reactor.connections event.connection = some connection) :
    s.trace event = connection.eventTrace event := by
  rw [trace, hconnection]

/-- An event on a connection that is not in the map changes nothing. -/
theorem Step.eq_of_none {event : ReadyEvent ι}
    (hconnection : s.reactor.connections event.connection = none)
    (hstep : Step (total run) s (.handle event) t) : t = s := by
  cases hstep with
  | @handle _ written reactor hhandle =>
    have htrace : s.trace event = { ending := .closed } := by rw [trace, hconnection]
    unfold handleConnectionEvent at hhandle
    rw [hconnection] at hhandle
    cases hhandle
    simp only [htrace, List.append_nil, List.map_nil, Function.update_eq_self]

/-- What handling an event on an open connection does. -/
structure Handles (run : σ → List Bytes → σ × Bytes) (s : History ι σ) (event : ReadyEvent ι)
    (connection : Connection) (written : Bytes) (result : ReadResult) (t : History ι σ) :
    Prop where
  handled : Handled connection event (connection.writeBuffer ++
    responses run s.reactor.store (s.trace event).requests) written result
  store : t.reactor.store = executeAll run s.reactor.store (s.trace event).requests
  connections : t.reactor.connections =
    Function.update s.reactor.connections event.connection result.connection?
  accepted : t.accepted = s.accepted
  received : t.received = Function.update s.received event.connection
    (s.received event.connection ++ (s.trace event).received)
  sent : t.sent = Function.update s.sent event.connection (s.sent event.connection ++ written)
  executed : t.executed = s.executed ++ (s.trace event).requests.map (event.connection, ·)

/-- The steps that handle an event on an open connection. -/
theorem Step.handles {event : ReadyEvent ι} {connection : Connection}
    (hconnection : s.reactor.connections event.connection = some connection)
    (hstep : Step (total run) s (.handle event) t) :
    ∃ written result, Handles run s event connection written result t := by
  cases hstep with
  | @handle _ written reactor hhandle =>
    obtain ⟨written', result, heq, hhandled⟩ :=
      handleEvent_cases run s.reactor.store connection event
    rw [← trace_eq hconnection] at heq hhandled
    unfold handleConnectionEvent at hhandle
    simp only [hconnection, heq] at hhandle
    obtain ⟨next, rfl, -⟩ | ⟨rfl, -⟩ := hhandled.cases
    · cases hhandle
      exact ⟨_, _, hhandled, rfl, rfl, rfl, rfl, rfl, rfl⟩
    · cases hhandle
      exact ⟨_, _, hhandled, rfl, rfl, rfl, rfl, rfl, rfl⟩

namespace Handles

variable {event : ReadyEvent ι} {connection : Connection} {written : Bytes} {result : ReadResult}

/-- An event executes requests of its own connection only. -/
theorem requestsOf_eq (h : Handles run s event connection written result t) (i : ι) :
    requestsOf i t.executed = requestsOf i s.executed ++
      if event.connection = i then (s.trace event).requests else [] := by
  rw [h.executed, requestsOf_append, requestsOf_map]

/-- An event brings replies to its own connection only. -/
theorem repliesTo_eq (h : Handles run s event connection written result t)
    (hinv : Inv run streams start s) (i : ι) :
    repliesTo run i start t.executed = repliesTo run i start s.executed ++
      if event.connection = i then
        responses run s.reactor.store (s.trace event).requests else [] := by
  rw [h.executed, repliesTo_append, repliesTo_map, hinv.store]

/-- What the connection has written before, and what it had to write. -/
theorem output_eq (h : Handles run s event connection written result t)
    (hinv : Inv run streams start s)
    (hconnection : s.reactor.connections event.connection = some connection) :
    s.sent event.connection ++ (connection.writeBuffer ++
        responses run s.reactor.store (s.trace event).requests) =
      repliesTo run event.connection start t.executed := by
  rw [h.repliesTo_eq hinv, if_pos rfl, ← List.append_assoc,
    (hinv.opened _ _ hconnection).output]

end Handles

/-- Only a connection that has been accepted is open. -/
theorem Inv.accepted_of_opened (h : Inv run streams start s) {i : ι} {connection : Connection}
    (hconnection : s.reactor.connections i = some connection) : s.accepted i = true := by
  by_contra hnew
  rw [(h.fresh i (by simpa using hnew)).1] at hconnection
  cases hconnection

/-- Accepting a connection keeps the invariant. -/
private theorem Inv.accept (h : Inv run streams start s) {i : ι} (hnew : s.accepted i = false) :
    Inv run streams start
      { s with reactor := s.reactor.accept i, accepted := Function.update s.accepted i true } := by
  obtain ⟨hnone, hreceived, hsent, hrequests⟩ := h.fresh i hnew
  refine ⟨h.store, fun j hj => ?_, fun j connection hj => ?_, fun j hj => ?_⟩
  · have hne : j ≠ i := fun heq => by
      rw [heq] at hj
      simp at hj
    simp only [Reactor.accept, Function.update_of_ne hne] at hj ⊢
    exact h.fresh j hj
  · by_cases heq : j = i
    · subst heq
      -- nothing has come in or gone out on the new connection
      simp only [Reactor.accept, Function.update_self, Option.some.injEq] at hj
      subst hj
      refine ⟨⟨[], (streams j).requests, ?_, hrequests⟩, ?_, ?_⟩
      · show (streams j).Split (s.received j) [] _ []
        rw [hreceived]
        exact (streams j).split_nil
      · show s.sent j ++ [] = _
        rw [hsent, repliesTo_eq_nil run hrequests]
        rfl
      · show false = _
        rw [hrequests]
        rfl
    · simp only [Reactor.accept, Function.update_of_ne heq] at hj
      exact (h.opened j connection hj).frame rfl rfl rfl rfl
  · by_cases heq : j = i
    · subst heq
      simp [Reactor.accept] at hj
    · simp only [Reactor.accept, Function.update_of_ne heq] at hj
      exact h.closed j hj

/-- Every step keeps the invariant. -/
theorem Inv.step (h : Inv run streams start s) {label : Label ι} (hok : s.Ok streams label)
    (hstep : Step (total run) s label t) : Inv run streams start t := by
  cases label with
  | accept i =>
    cases hstep with
    | accept hnew => exact h.accept hnew
  | handle event =>
    cases hconnection : s.reactor.connections event.connection with
    | none =>
      rw [hstep.eq_of_none hconnection]
      exact h
    | some connection =>
      have hopened := h.opened _ _ hconnection
      obtain ⟨front, rest, torn, hsplit, hcases⟩ := hopened.eventTrace hconnection hok
      obtain ⟨written, result, hhandles⟩ := hstep.handles hconnection
      have houtput := hhandles.output_eq h hconnection
      have hwritten : t.sent event.connection = s.sent event.connection ++ written := by
        rw [hhandles.sent, Function.update_self]
      have hnext : t.reactor.connections event.connection = result.connection? := by
        rw [hhandles.connections, Function.update_self]
      refine h.frame hhandles.accepted (h.accepted_of_opened hconnection) ?_ ?_ ?_ ?_ ?_ ?_ ?_ ?_
      · exact fun j hj => by rw [hhandles.connections, Function.update_of_ne hj]
      · exact fun j hj => by rw [hhandles.received, Function.update_of_ne hj]
      · exact fun j hj => by rw [hhandles.sent, Function.update_of_ne hj]
      · exact fun j hj => by rw [hhandles.requestsOf_eq, if_neg hj.symm, List.append_nil]
      · exact fun j hj => by rw [hhandles.repliesTo_eq h, if_neg hj.symm, List.append_nil]
      · rw [hhandles.store, h.store, hhandles.executed, List.map_append, executeAll_append,
          List.map_map]
        simp [Function.comp_def]
      · -- the connection stays open
        intro next hsome
        rw [hnext] at hsome
        -- the trace waits for more bytes, since a malformed stream closes the connection
        obtain ⟨next', rfl, hwaits, hbuffer, hclose⟩ | ⟨rfl, -⟩ := hhandles.handled.cases
        · obtain rfl := Option.some.inj hsome
          rw [← trace_eq hconnection] at hwaits
          obtain ⟨-, hfront, hcodec⟩ | ⟨hmalformed, -⟩ := hcases
          · refine ⟨⟨front, rest, ?_, ?_⟩, ?_, ?_⟩
            · rw [hhandles.received, Function.update_self, hcodec _ hwaits]
              exact hsplit
            · rw [hhandles.requestsOf_eq, if_pos rfl]
              exact hfront
            · rw [hwritten, List.append_assoc, ← hbuffer, houtput]
            · rw [hclose, hhandles.requestsOf_eq, if_pos rfl, List.any_append, ← hopened.quit,
                trace_eq hconnection]
              rfl
          · cases hwaits.symm.trans hmalformed
        · cases hsome
      · -- the connection is closed
        intro hnone
        rw [hnext] at hnone
        obtain ⟨next, rfl, -⟩ | ⟨-, hpre⟩ := hhandles.handled.cases
        · cases hnone
        · rw [hwritten, ← houtput, List.prefix_append_right_inj]
          exact hpre

/-- Every request has been executed and answered exactly once and in order. -/
structure InOrder (run : σ → List Bytes → σ × Bytes) (streams : ι → ClientStream) (start : σ)
    (s : History ι σ) : Prop where
  /-- One sequence of requests has been executed on the store. -/
  store : s.reactor.store = executeAll run start (s.executed.map Prod.snd)
  /-- Of each open connection it has the requests that are complete in the bytes read so far,
      and the codec holds what is behind them. -/
  requests : ∀ i connection, s.reactor.connections i = some connection →
    ∃ front rest, (streams i).requests = front ++ rest ∧
      s.received i = front.flatMap EncodedRequest.text ++ connection.codec.buffer ∧
      Torn EncodedRequest.text rest connection.codec.buffer ∧
      requestsOf i s.executed = front.map EncodedRequest.request
  /-- What has been written and what is buffered are the responses. -/
  output : ∀ i connection, s.reactor.connections i = some connection →
    s.sent i ++ connection.writeBuffer = repliesTo run i start s.executed
  /-- On a connection that has been closed, a beginning of the responses has been written. -/
  closed : ∀ i, s.reactor.connections i = none → s.sent i <+: repliesTo run i start s.executed

/-- At the start no connection is there, and nothing has been executed. -/
theorem inv_begin : Inv run streams start (begin start) where
  store := rfl
  fresh _ _ := ⟨rfl, rfl, rfl, rfl⟩
  opened _ _ hconnection := by cases hconnection
  closed _ _ := List.prefix_rfl

/-- Every state of the server meets the invariant. -/
theorem inv_of_run (hrun : Run (Step (total run)) (Ok streams) (begin start) s) :
    Inv run streams start s :=
  hrun.invariant inv_begin fun h hok hstep => h.step hok hstep

/-- Every state of the server of a store meets the invariant. -/
theorem inv_of_run_execute {calls : StoreCalls σ}
    (hrun : Run (Step (CommandProcessor.execute calls)) (Ok streams) (begin start) s) :
    Inv (CommandProcessor.reply calls) streams start s :=
  inv_of_run (hrun.mono fun hstep => hstep.of_agrees CommandProcessor.reply_of_ok)

/-- The server answers every request exactly once and in order, when the clients send
    well-formed requests. -/
theorem answers_in_order {calls : StoreCalls σ} (hwell : ∀ i, (streams i).malformed = [])
    (hrun : Run (Step (CommandProcessor.execute calls)) (Ok streams) (begin start) s) :
    s.InOrder (CommandProcessor.reply calls) streams start := by
  have hinv := inv_of_run_execute hrun
  refine ⟨hinv.store, fun i connection hconnection => ?_,
    fun i connection hconnection => (hinv.opened i connection hconnection).output, hinv.closed⟩
  obtain ⟨front, rest, hsplit, hrequests⟩ := (hinv.opened i connection hconnection).split
  refine ⟨front, rest, hsplit.requests, hsplit.received, ?_, hrequests⟩
  rcases hsplit.torn with htorn | ⟨rfl, hpre⟩
  · exact htorn
  · rw [hwell] at hpre
    exact List.prefix_nil.mp hpre

/-- No exception leaves the server when the calls that write to the store do not throw. -/
theorem exists_step {calls : StoreCalls σ} (hcalls : calls.NeverThrow) (s : History ι σ)
    (event : ReadyEvent ι) : ∃ t, Step (CommandProcessor.execute calls) s (.handle event) t := by
  have htotal : CommandProcessor.execute calls = total (CommandProcessor.reply calls) :=
    funext fun store => funext fun tokens => CommandProcessor.execute_ok hcalls store tokens
  have hok : ∃ written reactor, s.reactor.handleConnectionEvent
      (CommandProcessor.execute calls) event = (written, .ok reactor) := by
    rw [htotal]
    unfold handleConnectionEvent
    split
    · exact ⟨_, _, rfl⟩
    · rename_i connection hconnection
      obtain ⟨written, result, heq, hhandled⟩ :=
        handleEvent_cases (CommandProcessor.reply calls) s.reactor.store connection event
      simp only [heq]
      -- the connection stays open or is closed
      obtain ⟨next, rfl, -⟩ | ⟨rfl, -⟩ := hhandled.cases
      · exact ⟨_, _, rfl⟩
      · exact ⟨_, _, rfl⟩
  obtain ⟨written, reactor, hhandle⟩ := hok
  exact ⟨_, .handle hhandle⟩

/-- One `PING`. -/
def pingStream : ClientStream where
  requests := [.ofTokens [ascii "PING"]]
  refused := .inl rfl
  bounded := by decide
  short := by decide

/-- A `PING` that comes in two chunks, and of whose response two bytes are written. -/
def pingEvent : ReadyEvent Unit where
  connection := ()
  events := { epollIn := true }
  reads := [.bytes (encodeResp [ascii "PING"] |>.take 7), .interrupted,
    .bytes (encodeResp [ascii "PING"] |>.drop 7), .again]
  writes := [.wrote 2, .again]

/-- A server with one connection. -/
def connected (start : σ) : History Unit σ :=
  { begin start with
    reactor := (begin start).reactor.accept ()
    accepted := Function.update (fun _ => false) () true }

/-- One connection is accepted. -/
theorem step_connected (execute : σ → List Bytes → σ × Except String Bytes) (start : σ) :
    Step execute (begin start) (.accept ()) (connected start) :=
  .accept rfl

/-- A run of one event on the connection. -/
theorem run_connected {execute : σ → List Bytes → σ × Except String Bytes} {start : σ}
    {ok : History Unit σ → Label Unit → Prop} {event : ReadyEvent Unit} {s : History Unit σ}
    (haccept : ok (begin start) (.accept ())) (hok : ok (connected start) (.handle event))
    (hstep : Step execute (connected start) (.handle event) s) :
    Run (Step execute) ok (begin start) s :=
  (Run.refl.tail _ haccept (step_connected execute start)).tail _ hok hstep

/-- The step in which the `PING` is executed. -/
theorem step_ping (calls : StoreCalls σ) (start : σ) :
    (connected start).Ok (fun _ => pingStream) (.handle pingEvent) ∧
      ∃ s, Step (CommandProcessor.execute calls) (connected start) (.handle pingEvent) s ∧
        s.received () = encodeResp [ascii "PING"] ∧ s.sent () = ascii "PO" ∧
        s.executed = [((), ⟨[ascii "PING"]⟩)] ∧
        ∃ connection, s.reactor.connections () = some connection ∧
          connection.writeBuffer = ascii "NG\r\n" := by
  have hread : (readTrace {} pingEvent.reads).received = encodeResp [ascii "PING"] := by decide
  refine ⟨⟨?_, ?_⟩, _, .handle rfl, ?_, rfl, rfl, _, rfl, rfl⟩
  · intro chunk hchunk
    simp only [pingEvent, List.mem_cons, ReadOutcome.bytes.injEq, reduceCtorEq, List.not_mem_nil,
      or_false, false_or] at hchunk
    obtain rfl | rfl := hchunk <;> decide
  · show [] ++ (readTrace {} pingEvent.reads).received <+: _
    rw [hread]
    decide
  · show [] ++ (readTrace {} pingEvent.reads).received = _
    exact hread

/-- The server of a `KVStore`, after that. -/
theorem answers_in_order_ping :
    ∃ s : History Unit KVStore, s.received () = encodeResp [ascii "PING"] ∧
      s.sent () = ascii "PO" ∧
      s.InOrder (CommandProcessor.reply (KVStore.calls {})) (fun _ => pingStream)
        KVStore.fresh := by
  obtain ⟨hok, s, hstep, hreceived, hsent, -⟩ := step_ping (KVStore.calls {}) KVStore.fresh
  exact ⟨s, hreceived, hsent, answers_in_order (fun _ => rfl) (run_connected trivial hok hstep)⟩

end History

end Reactor

end KvStore
