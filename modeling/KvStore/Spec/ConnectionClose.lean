import KvStore.Spec.ReactorCorrect

/-!
# When the server closes a connection

A connection is closed when the peer has closed it, or when everything has been written after
a `QUIT` (`closes_of_quiet`). When the peer has closed, what is left to write is dropped.
After a `QUIT` the requests that come in are still executed, so `quit_is_last` needs that none
comes in.
-/

namespace KvStore

/-- The socket reports no error. -/
structure ReadyEvent.Quiet {ι : Type} (event : ReadyEvent ι) : Prop where
  noErr : event.events.epollErr = false
  noHup : event.events.epollHup = false
  reads : .failed ∉ event.reads
  writes : .failed ∉ event.writes ++ event.laterWrites

/-- The socket reports no error, and the peer has not closed. -/
structure ReadyEvent.Steady {ι : Type} (event : ReadyEvent ι) : Prop where
  quiet : event.Quiet
  noRdhup : event.events.epollRdhup = false
  noClose : .closed ∉ event.reads

/-- A condition on the events that are handled. -/
def Reactor.History.Label.Handles {ι : Type} (p : ReadyEvent ι → Prop) : Label ι → Prop
  | .accept _ => True
  | .handle event => p event

namespace Connection

/-- The reading loop ends with the connection only because of what `read` returns. -/
theorem mem_of_readTrace (codec : RequestCodec) (outcomes : List ReadOutcome) :
    ((readTrace codec outcomes).ending = .failed → .failed ∈ outcomes) ∧
      ((readTrace codec outcomes).ending = .closed → .closed ∈ outcomes) := by
  induction outcomes generalizing codec with
  | nil => simp [readTrace]
  | cons outcome outcomes ih =>
    cases outcome with
    | again => simp [readTrace]
    | failed => simp [readTrace]
    | closed => simp [readTrace]
    | interrupted => exact (ih codec).imp (List.mem_cons_of_mem _ ∘ ·) (List.mem_cons_of_mem _ ∘ ·)
    | bytes chunk =>
      rw [readTrace]
      split
      · simp
      · rename_i codec _
        exact (ih codec).imp (List.mem_cons_of_mem _ ∘ ·) (List.mem_cons_of_mem _ ∘ ·)

/-- Requests have no responses only if there are none. -/
theorem responses_eq_nil {σ : Type} {run : σ → List Bytes → σ × Bytes}
    (hrun : ∀ store tokens, (run store tokens).2 ≠ []) {store : σ}
    {requests : List DecodedRequest} : responses run store requests = [] ↔ requests = [] := by
  cases requests with
  | nil => simp [responses]
  | cons request requests => simp [responses, hrun]

end Connection

namespace Reactor.History

open Connection

variable {ι σ : Type} [DecidableEq ι] {run : σ → List Bytes → σ × Bytes}
  {streams : ι → ClientStream} {start : σ} {s t : History ι σ} {event : ReadyEvent ι}
  {connection : Connection}

/-- The requests that are complete in the bytes read from a connection have been executed. -/
def Executed (streams : ι → ClientStream) (i : ι) (s : History ι σ) : Prop :=
  ∃ front rest torn, (streams i).Split (s.received i) front rest torn ∧
    requestsOf i s.executed = front.map EncodedRequest.request

/-- These requests have been executed, and all their responses have been written. -/
def Acknowledged (run : σ → List Bytes → σ × Bytes) (streams : ι → ClientStream) (start : σ)
    (i : ι) (s : History ι σ) : Prop :=
  s.Executed streams i ∧ s.sent i = repliesTo run i start s.executed

/-- The event tells that the peer has closed. -/
def PeerClosed (s : History ι σ) (event : ReadyEvent ι) : Prop :=
  event.events.epollRdhup = true ∨ (s.trace event).ending = .closed

/-- After an event, the complete requests have been executed, unless `ExtractRequests` has
    thrown. -/
theorem Handles.executed_all {written : Bytes} {result : ReadResult}
    (h : Handles run s event connection written result t) (hinv : Inv run streams start s)
    (hconnection : s.reactor.connections event.connection = some connection)
    (hok : s.Ok streams (.handle event)) (hmalformed : (s.trace event).ending ≠ .malformed) :
    t.Executed streams event.connection := by
  obtain ⟨front, rest, torn, hsplit, hcases⟩ :=
    (hinv.opened _ _ hconnection).eventTrace hconnection hok
  obtain ⟨-, hfront, -⟩ | ⟨hending, -⟩ := hcases
  · refine ⟨front, rest, torn, ?_, ?_⟩
    · rw [h.received, Function.update_self]
      exact hsplit
    · rw [h.requestsOf_eq, if_pos rfl]
      exact hfront
  · exact absurd hending hmalformed

/-- How the server closes a connection whose socket reports no error, when no frame is
    malformed. If the peer has closed, nothing more is written: the responses have been
    written only if none was left to write. Otherwise it is closed after a `QUIT`, and all
    responses have been written. -/
theorem closes_of_quiet {calls : StoreCalls σ}
    (hrun : Run (Step (CommandProcessor.execute calls)) (Ok streams) (begin start) s)
    (hok : s.Ok streams (.handle event))
    (hstep : Step (CommandProcessor.execute calls) s (.handle event) t) (hquiet : event.Quiet)
    (hconnection : s.reactor.connections event.connection = some connection)
    (hclosed : t.reactor.connections event.connection = none)
    (hmalformed : (s.trace event).ending ≠ .malformed) :
    t.Executed streams event.connection ∧
      (s.PeerClosed event → t.sent event.connection = s.sent event.connection ∧
        (t.Acknowledged (CommandProcessor.reply calls) streams start event.connection ↔
          connection.writeBuffer = [] ∧ (s.trace event).requests = [])) ∧
      (¬ s.PeerClosed event → (requestsOf event.connection t.executed).any isQuit = true ∧
        t.Acknowledged (CommandProcessor.reply calls) streams start event.connection) := by
  have hinv := inv_of_run_execute hrun
  obtain ⟨written, result, hhandles⟩ :=
    (hstep.of_agrees CommandProcessor.reply_of_ok).handles hconnection
  have hexecuted := hhandles.executed_all hinv hconnection hok hmalformed
  have houtput := hhandles.output_eq hinv hconnection
  have hsent : t.sent event.connection = s.sent event.connection ++ written := by
    rw [hhandles.sent, Function.update_self]
  -- the connection is closed without a call of `write`
  have hdropped (hpeer : s.PeerClosed event) (hnil : written = []) :
      t.sent event.connection = s.sent event.connection ∧
        (t.Acknowledged (CommandProcessor.reply calls) streams start event.connection ↔
          connection.writeBuffer = [] ∧ (s.trace event).requests = []) := by
    rw [hnil, List.append_nil] at hsent
    refine ⟨hsent, ?_⟩
    rw [Acknowledged, and_iff_right hexecuted, hsent, ← houtput, List.self_eq_append_right,
      List.append_eq_nil_iff, responses_eq_nil CommandProcessor.reply_ne_nil]
  have hhandled := hhandles.handled
  have hnone : result.connection? = none := by
    rw [← hclosed, hhandles.connections, Function.update_self]
  refine ⟨hexecuted, ?_⟩
  -- the connection is closed because the peer has gone, or because `QUIT` is answered
  cases hhandled with
  | hungUp hhung =>
    have hpeer : s.PeerClosed event := .inl (by
      simpa [hungUp, hquiet.noErr, hquiet.noHup] using hhung)
    exact ⟨fun hpeer => hdropped hpeer rfl, fun hnot => absurd hpeer hnot⟩
  | stopped hstopped =>
    rw [← trace_eq hconnection] at hstopped
    have hpeer : s.PeerClosed event := by
      right
      cases hending : (s.trace event).ending with
      | closed => rfl
      | waits codec => exact absurd hending (hstopped codec)
      | malformed => exact absurd hending hmalformed
      | failed =>
        rw [trace_eq hconnection, eventTrace] at hending
        split at hending
        · exact absurd ((mem_of_readTrace _ _).1 hending) hquiet.reads
        · cases hending
    exact ⟨fun hpeer => hdropped hpeer rfl, fun hnot => absurd hpeer hnot⟩
  | opened => cases hnone
  | finished hhung hwaits hquit =>
    rw [← trace_eq hconnection] at hwaits
    refine ⟨fun hpeer => ?_, fun _ => ⟨?_, hexecuted, ?_⟩⟩
    · -- the peer has not closed
      obtain ⟨codec, hwaits⟩ := hwaits
      rcases hpeer with hrdhup | hending
      · simp [hungUp, hrdhup] at hhung
      · cases hwaits.symm.trans hending
    · rw [hhandles.requestsOf_eq, if_pos rfl, List.any_append,
        ← (hinv.opened _ _ hconnection).quit, trace_eq hconnection]
      exact hquit
    · rw [hsent, houtput]
  | failed hfailed => exact absurd hfailed hquiet.writes

/-- The peer closes. -/
def rdhupEvent : ReadyEvent Unit where
  connection := ()
  events := { epollIn := true, epollRdhup := true }

/-- A `PING` is answered in part, and then the peer closes. -/
private theorem exists_run_rdhup (calls : StoreCalls σ) (start : σ) :
    ∃ s t : History Unit σ,
      Run (Step (CommandProcessor.execute calls))
        (fun s label => s.Ok (fun _ => pingStream) label ∧ label.Handles ReadyEvent.Quiet)
        (begin start) s ∧
      (s.Ok (fun _ => pingStream) (.handle rdhupEvent) ∧ rdhupEvent.Quiet) ∧
      Step (CommandProcessor.execute calls) s (.handle rdhupEvent) t ∧
      (∃ connection, s.reactor.connections () = some connection ∧
        connection.writeBuffer = ascii "NG\r\n") ∧
      (t.accepted () = true ∧ t.reactor.connections () = none ∧ t.sent () = ascii "PO" ∧
        t.executed = [((), ⟨[ascii "PING"]⟩)]) := by
  obtain ⟨hok, s, hstep, hreceived, hsent, hexecuted, connection, hconnection, hbuffer⟩ :=
    step_ping calls start
  have hquiet : pingEvent.Quiet := ⟨rfl, rfl, by simp [pingEvent], by simp [pingEvent]⟩
  have hrun : Run (Step (CommandProcessor.execute calls))
      (fun s label => s.Ok (fun _ => pingStream) label ∧ label.Handles ReadyEvent.Quiet)
      (begin start) s :=
    run_connected ⟨trivial, trivial⟩ ⟨hok, hquiet⟩ hstep
  have hhandle : s.reactor.handleConnectionEvent (CommandProcessor.execute calls) rdhupEvent =
      ([], .ok { s.reactor with
        connections := Function.update s.reactor.connections () none }) := by
    unfold handleConnectionEvent
    rw [show s.reactor.connections rdhupEvent.connection = some connection from hconnection]
    rfl
  have haccepted : s.accepted () = true := by
    have hinv := inv_of_run_execute (hrun.weaken fun _ h => h.1)
    exact hinv.accepted_of_opened hconnection
  -- `EPOLLRDHUP` closes before `ReadFromConnection`, so the event reads nothing.
  have htrace : (s.trace rdhupEvent).received = [] := by
    rw [trace_eq hconnection]
    rfl
  have hpre : s.received () <+: pingStream.bytes := by
    rw [hreceived]
    decide
  have hquiet : rdhupEvent.Quiet := ⟨rfl, rfl, by simp [rdhupEvent], by simp [rdhupEvent]⟩
  have hchunks : ∀ chunk, .bytes chunk ∈ rdhupEvent.reads → chunk.length ≤ readSize := by
    simp [rdhupEvent]
  refine ⟨s, _, hrun, ⟨⟨hchunks, ?_⟩, hquiet⟩, .handle hhandle,
    ⟨connection, hconnection, hbuffer⟩, haccepted, ?_, ?_, ?_⟩
  · rw [htrace, List.append_nil]
    exact hpre
  · show Function.update s.reactor.connections () none () = none
    exact Function.update_self _ _ _
  · show Function.update s.sent () (s.sent () ++ []) () = _
    rw [Function.update_self, List.append_nil, hsent]
  · show s.executed ++ (s.trace rdhupEvent).requests.map _ = _
    rw [trace_eq hconnection, hexecuted]
    rfl

/-- The server of a `KVStore` has executed the `PING`, and writes nothing more. -/
theorem closes_of_quiet_ping :
    ∃ s t : History Unit KVStore, t.Executed (fun _ => pingStream) () ∧
      t.sent () = s.sent () ∧
      (t.Acknowledged (CommandProcessor.reply (KVStore.calls {})) (fun _ => pingStream)
          KVStore.fresh () ↔
        ascii "NG\r\n" = [] ∧ (s.trace rdhupEvent).requests = []) := by
  obtain ⟨s, t, hrun, ⟨hok, hquiet⟩, hstep, ⟨connection, hconnection, hbuffer⟩, -, hnone, -⟩ :=
    exists_run_rdhup (KVStore.calls {}) KVStore.fresh
  have hmalformed : (s.trace rdhupEvent).ending ≠ .malformed := by
    rw [trace_eq hconnection]
    exact nofun
  obtain ⟨hexecuted, hpeer, -⟩ := closes_of_quiet (hrun.weaken fun _ h => h.1) hok hstep hquiet
    hconnection hnone hmalformed
  rw [← hbuffer]
  exact ⟨s, t, hexecuted, hpeer (.inl rfl)⟩

/-- A client sends a `PING` and closes its side of the connection before the whole response
    could be written. The server closes the connection and drops the rest. -/
theorem rdhup_drops_response :
    ∃ s : History Unit KVStore,
      Run (Step (CommandProcessor.execute (KVStore.calls {})))
        (fun s label => s.Ok (fun _ => pingStream) label ∧ label.Handles ReadyEvent.Quiet)
        (begin KVStore.fresh) s ∧
      s.accepted () = true ∧ s.reactor.connections () = none ∧
      ¬ s.Acknowledged (CommandProcessor.reply (KVStore.calls {})) (fun _ => pingStream)
        KVStore.fresh () := by
  obtain ⟨s, t, hrun, hok, hstep, -, haccepted, hnone, hsent, hexecuted⟩ :=
    exists_run_rdhup (KVStore.calls {}) KVStore.fresh
  refine ⟨t, hrun.tail _ hok hstep, haccepted, hnone, fun hacknowledged => ?_⟩
  have hreplies := hacknowledged.2
  rw [hsent, hexecuted] at hreplies
  change ascii "PO" = ascii "PONG\r\n" at hreplies
  exact absurd hreplies (by decide)

/-! ## After a `QUIT` -/

/-- The connection `i` sees no error and no end of the stream, and what it has read by the end
    of an event does not reach the end of the request behind the requests `upTo`. -/
def NothingBehind (i : ι) (upTo after : List EncodedRequest) (s : History ι σ) :
    Label ι → Prop
  | .accept _ => True
  | .handle event =>
    event.connection = i → s.reactor.connections i ≠ none →
      event.Steady ∧
      ∀ next rest, after = next :: rest →
        (s.received i ++ (s.trace event).received).length <
          ((upTo ++ [next]).flatMap EncodedRequest.text).length

/-- The connection `i` executes the requests `upTo` and no others. It is closed when their
    responses have been written, and not before. -/
structure StopsAfter (run : σ → List Bytes → σ × Bytes) (start : σ) (i : ι)
    (upTo : List EncodedRequest) (s : History ι σ) : Prop where
  executed : requestsOf i s.executed <+: upTo.map EncodedRequest.request
  sent : s.sent i <+: repliesTo run i start s.executed
  closed : s.accepted i = true → s.reactor.connections i = none →
    requestsOf i s.executed = upTo.map EncodedRequest.request ∧
      s.sent i = repliesTo run i start s.executed
  opened : ∀ connection, s.reactor.connections i = some connection →
    requestsOf i s.executed = upTo.map EncodedRequest.request →
      s.sent i ≠ repliesTo run i start s.executed

/-- The invariant behind `StopsAfter`. -/
private structure QuitInv (run : σ → List Bytes → σ × Bytes) (streams : ι → ClientStream)
    (start : σ) (i : ι) (upTo : List EncodedRequest) (s : History ι σ) : Prop where
  inv : Inv run streams start s
  executed : requestsOf i s.executed <+: upTo.map EncodedRequest.request
  /-- A connection that is going to be closed waits until it can write. -/
  waits : ∀ connection, s.reactor.connections i = some connection →
    connection.closeAfterWrite = true → connection.writeBuffer ≠ []
  closed : s.accepted i = true → s.reactor.connections i = none →
    requestsOf i s.executed = upTo.map EncodedRequest.request ∧
      s.sent i = repliesTo run i start s.executed

section

variable {i : ι} {before after : List EncodedRequest} {quit : EncodedRequest}

/-- A `QUIT` is the last of the requests. -/
private theorem eq_of_any_isQuit (hbefore : ∀ request ∈ before, isQuit request.request = false)
    {requests : List DecodedRequest}
    (hpre : requests <+: (before ++ [quit]).map EncodedRequest.request)
    (hany : requests.any isQuit = true) :
    requests = (before ++ [quit]).map EncodedRequest.request := by
  rw [List.map_append, List.map_singleton] at hpre ⊢
  rcases List.prefix_concat_iff.mp hpre with heq | hpre
  · exact heq
  · obtain ⟨request, hmem, hquit⟩ := List.any_eq_true.mp hany
    obtain ⟨encoded, hencoded, rfl⟩ := List.mem_map.mp (hpre.subset hmem)
    rw [hbefore encoded hencoded] at hquit
    cases hquit

/-- Requests that end before the end of the request behind `upTo` lie within `upTo`. -/
private theorem prefix_of_length {upTo front rest : List EncodedRequest}
    (happend : front ++ rest = upTo ++ after)
    (hless : ∀ next rest, after = next :: rest →
      (front.flatMap EncodedRequest.text).length <
        ((upTo ++ [next]).flatMap EncodedRequest.text).length) :
    front <+: upTo := by
  rcases List.append_eq_append_iff.mp happend with ⟨more, hupTo, -⟩ | ⟨more, hfront, hafter⟩
  · exact ⟨more, hupTo.symm⟩
  · cases more with
    | nil => exact ⟨[], by rw [hfront]; simp⟩
    | cons next more =>
      have hlt := hless next _ hafter
      simp [hfront] at hlt

/-- A well-formed stream is read until nothing more comes in. -/
private theorem exists_waits (hwell : (streams event.connection).malformed = [])
    (hinv : Inv run streams start s) (hok : s.Ok streams (.handle event))
    (hconnection : s.reactor.connections event.connection = some connection)
    (hquiet : event.Quiet) (hreads : .closed ∉ event.reads) :
    ∃ codec, (s.trace event).ending = .waits codec := by
  obtain ⟨front, rest, torn, hsplit, hcases⟩ :=
    (hinv.opened _ _ hconnection).eventTrace hconnection hok
  have htrace := trace_eq hconnection
  cases hending : (s.trace event).ending with
  | waits codec => exact ⟨codec, rfl⟩
  | closed =>
    -- the peer has not closed, so `read` does not return zero
    rw [htrace, eventTrace] at hending
    split at hending
    · exact absurd ((mem_of_readTrace _ _).2 hending) hreads
    · cases hending
  | failed =>
    rw [htrace, eventTrace] at hending
    split at hending
    · exact absurd ((mem_of_readTrace _ _).1 hending) hquiet.reads
    · cases hending
  | malformed =>
    obtain ⟨hne, -⟩ | ⟨-, rfl, ⟨error, herror⟩, -⟩ := hcases
    · exact absurd hending hne
    · -- nothing lies behind the requests
      have hnil : torn = [] := by
        rcases hsplit.torn with htorn | ⟨-, hpre⟩
        · exact htorn
        · rw [hwell] at hpre
          exact List.prefix_nil.mp hpre
      rw [hnil] at herror
      cases herror

/-- An event on the connection keeps the invariant. -/
private theorem QuitInv.handle (h : QuitInv run streams start i (before ++ [quit]) s)
    (hstream : (streams i).requests = before ++ quit :: after)
    (hwell : (streams i).malformed = [])
    (hbefore : ∀ request ∈ before, isQuit request.request = false)
    (hreply : ∀ store tokens, (run store tokens).2 ≠ []) (hevent : event.connection = i)
    (hok : s.Ok streams (.handle event))
    (hnothing : s.NothingBehind i (before ++ [quit]) after (.handle event))
    (hconnection : s.reactor.connections i = some connection)
    (hstep : Step (total run) s (.handle event) t) :
    QuitInv run streams start i (before ++ [quit]) t := by
  subst hevent
  obtain ⟨⟨hquiet, hrdhup, hreads⟩, hlength⟩ := hnothing rfl (by rw [hconnection]; exact nofun)
  obtain ⟨codec, hwaits⟩ := exists_waits hwell h.inv hok hconnection hquiet hreads
  obtain ⟨written, result, hhandles⟩ := hstep.handles hconnection
  have hopened := h.inv.opened _ _ hconnection
  have houtput := hhandles.output_eq h.inv hconnection
  -- all requests that are executed come no later than the `QUIT`
  have hexecuted : requestsOf event.connection t.executed <+:
      (before ++ [quit]).map EncodedRequest.request := by
    obtain ⟨front, rest, torn, hsplit, hcases⟩ := hopened.eventTrace hconnection hok
    obtain ⟨-, hfront, -⟩ | ⟨hmalformed, -⟩ := hcases
    · have happend : front ++ rest = (before ++ [quit]) ++ after := by
        rw [← hsplit.requests, hstream, List.append_assoc]
        rfl
      rw [hhandles.requestsOf_eq, if_pos rfl, hfront]
      refine (prefix_of_length happend fun next rest' hafter => ?_).map _
      have hlt := hlength next rest' hafter
      rw [hsplit.received, List.length_append] at hlt
      omega
    · cases hwaits.symm.trans hmalformed
  -- the connection wants to close once a `QUIT` has been executed
  have hquits : (requestsOf event.connection t.executed).any isQuit = connection.quits event := by
    rw [hhandles.requestsOf_eq, if_pos rfl, List.any_append, ← hopened.quit,
      trace_eq hconnection]
    rfl
  have hsent : t.sent event.connection = s.sent event.connection ++ written := by
    rw [hhandles.sent, Function.update_self]
  have hnext : t.reactor.connections event.connection = result.connection? := by
    rw [hhandles.connections, Function.update_self]
  have hinv := h.inv.step hok hstep
  -- the event leaves the connection open, or all has been written
  cases hhandles.handled with
  | hungUp hhung => simp [hungUp, hquiet.noErr, hquiet.noHup, hrdhup] at hhung
  | stopped hstopped => exact absurd (trace_eq hconnection ▸ hwaits) (hstopped codec)
  | failed hfailed => exact absurd hfailed hquiet.writes
  | @opened _ next hwaits houtput' hclose hidle =>
    refine ⟨hinv, hexecuted, fun next' hsome hquit hnil => ?_, fun _ hnone => ?_⟩
    · -- if nothing is left to write, nothing was to be written, and no request was executed
      obtain rfl := Option.some.inj (hnext.symm.trans hsome)
      obtain ⟨hbuffer, hresponses⟩ := List.append_eq_nil_iff.mp (hidle hquit hnil)
      have hrequests := (responses_eq_nil hreply).mp hresponses
      rw [hclose, quits, ← trace_eq hconnection, hrequests] at hquit
      exact h.waits _ hconnection (by simpa using hquit) hbuffer
    · cases hnext.symm.trans hnone
  | finished hhung hwaits hquit =>
    refine ⟨hinv, hexecuted, fun next' hsome => ?_, fun _ _ => ⟨?_, ?_⟩⟩
    · cases hnext.symm.trans hsome
    · exact eq_of_any_isQuit hbefore hexecuted (hquits.trans hquit)
    · rw [hsent, houtput]

/-- Every step keeps the invariant. -/
private theorem QuitInv.step (h : QuitInv run streams start i (before ++ [quit]) s)
    (hstream : (streams i).requests = before ++ quit :: after)
    (hwell : (streams i).malformed = [])
    (hbefore : ∀ request ∈ before, isQuit request.request = false)
    (hreply : ∀ store tokens, (run store tokens).2 ≠ []) {label : Label ι}
    (hok : s.Ok streams label) (hnothing : s.NothingBehind i (before ++ [quit]) after label)
    (hstep : Step (total run) s label t) : QuitInv run streams start i (before ++ [quit]) t := by
  have hinv := h.inv.step hok hstep
  cases label with
  | accept j =>
    cases hstep with
    | accept hnew =>
      refine ⟨hinv, h.executed, fun connection hsome hclose => ?_, fun haccepted hnone => ?_⟩
      · by_cases hij : i = j
        · subst hij
          simp only [Reactor.accept, Function.update_self, Option.some.injEq] at hsome
          subst hsome
          cases hclose
        · simp only [Reactor.accept, Function.update_of_ne hij] at hsome
          exact h.waits _ hsome hclose
      · by_cases hij : i = j
        · subst hij
          simp [Reactor.accept] at hnone
        · simp only [Reactor.accept, Function.update_of_ne hij] at haccepted hnone
          exact h.closed haccepted hnone
  | handle event =>
    cases hconnection : s.reactor.connections event.connection with
    | none =>
      rw [hstep.eq_of_none hconnection]
      exact h
    | some connection =>
      by_cases hevent : event.connection = i
      · rw [hevent] at hconnection
        exact h.handle hstream hwell hbefore hreply hevent hok hnothing hconnection hstep
      · -- another connection
        obtain ⟨written, result, hhandles⟩ := hstep.handles hconnection
        have hrequests : requestsOf i t.executed = requestsOf i s.executed := by
          rw [hhandles.requestsOf_eq, if_neg hevent, List.append_nil]
        have hconnections : t.reactor.connections i = s.reactor.connections i := by
          rw [hhandles.connections, Function.update_of_ne (Ne.symm hevent)]
        refine ⟨hinv, ?_, ?_, ?_⟩
        · rw [hrequests]
          exact h.executed
        · rw [hconnections]
          exact h.waits
        · rw [hhandles.accepted, hconnections, hrequests, hhandles.repliesTo_eq h.inv,
            if_neg hevent, List.append_nil, hhandles.sent, Function.update_of_ne (Ne.symm hevent)]
          exact h.closed

/-- A `QUIT` is the last request that its connection executes, and its response is the last
    that is written, in every run in which no request behind it comes in before the connection
    is closed. -/
theorem quit_is_last {calls : StoreCalls σ}
    (hstream : (streams i).requests = before ++ quit :: after)
    (hwell : (streams i).malformed = [])
    (hbefore : ∀ request ∈ before, isQuit request.request = false)
    (hquit : isQuit quit.request = true)
    (hrun : Run (Step (CommandProcessor.execute calls))
      (fun s label => s.Ok streams label ∧ s.NothingBehind i (before ++ [quit]) after label)
      (begin start) s) :
    s.StopsAfter (CommandProcessor.reply calls) start i (before ++ [quit]) := by
  have hinv : QuitInv (CommandProcessor.reply calls) streams start i (before ++ [quit]) s :=
    hrun.invariant
      { inv := inv_begin
        executed := List.nil_prefix
        waits := fun _ hconnection => by cases hconnection
        closed := fun haccepted => by cases haccepted }
      fun h hok hstep => h.step hstream hwell hbefore CommandProcessor.reply_ne_nil hok.1 hok.2
        (hstep.of_agrees CommandProcessor.reply_of_ok)
  -- what was sent is a beginning of the responses
  refine ⟨hinv.executed, ?_, hinv.closed, fun connection hconnection hall hsent => ?_⟩
  · cases hconnection : s.reactor.connections i with
    | none => exact hinv.inv.closed i hconnection
    | some connection =>
      exact ⟨connection.writeBuffer, (hinv.inv.opened i connection hconnection).output⟩
  · -- after the `QUIT`, what is left to write is not empty
    have hopened := hinv.inv.opened i connection hconnection
    have hclose : connection.closeAfterWrite = true := by
      rw [hopened.quit, hall]
      simp [hquit]
    have houtput := hopened.output
    rw [← hsent, List.append_right_eq_self] at houtput
    exact hinv.waits connection hconnection hclose houtput

end

/-- The requests of `quitStream` fit into a string. -/
private theorem quitStream_bounded :
    ∀ request ∈ [EncodedRequest.ofTokens [ascii "QUIT"], .ofTokens [ascii "PING"]],
      request.text.length + readSize ≤ maxSize := by
  decide

/-- A `QUIT` and a `PING`. -/
def quitStream : ClientStream where
  requests := [.ofTokens [ascii "QUIT"], .ofTokens [ascii "PING"]]
  refused := pingStream.refused
  bounded := quitStream_bounded
  short := pingStream.short

/-- A chunk is read, and everything can be written. -/
def chunkEvent (chunk : Bytes) : ReadyEvent Unit where
  connection := ()
  events := { epollIn := true }
  reads := [.bytes chunk, .again]
  writes := [.wrote 100]

private theorem steady_chunkEvent (chunk : Bytes) : (chunkEvent chunk).Steady :=
  ⟨⟨rfl, rfl, by simp [chunkEvent], by simp [chunkEvent]⟩, rfl, by simp [chunkEvent]⟩

/-- The reading of one chunk of the stream that holds the `QUIT`. -/
private theorem ok_chunkEvent {chunk : Bytes} {start : σ} (hlength : chunk.length ≤ readSize)
    (hpre : (readTrace {} (chunkEvent chunk).reads).received <+: quitStream.bytes) :
    (connected start).Ok (fun _ => quitStream) (.handle (chunkEvent chunk)) := by
  refine ⟨fun chunk' hchunk' => ?_, hpre⟩
  simp only [chunkEvent, List.mem_cons, ReadOutcome.bytes.injEq, reduceCtorEq, List.not_mem_nil,
    or_false] at hchunk'
  rw [hchunk']
  exact hlength

/-- Both requests, or only the first, come in in one chunk. -/
private theorem step_quit (calls : StoreCalls σ) (start : σ) :
    (∃ s, Step (CommandProcessor.execute calls) (connected start)
      (.handle (chunkEvent (encodeResp [ascii "QUIT"]))) s ∧ s.sent () = ascii "BYE\r\n") ∧
    ∃ s, Step (CommandProcessor.execute calls) (connected start)
        (.handle (chunkEvent (encodeResp [ascii "QUIT"] ++ encodeResp [ascii "PING"]))) s ∧
      s.sent () = ascii "BYE\r\nPONG\r\n" ∧
      s.executed = [((), ⟨[ascii "QUIT"]⟩), ((), ⟨[ascii "PING"]⟩)] :=
  ⟨⟨_, .handle rfl, rfl⟩, _, .handle rfl, rfl, rfl⟩

/-- The `QUIT` comes in alone. -/
theorem quit_is_last_alone :
    ∃ s : History Unit KVStore, s.sent () = ascii "BYE\r\n" ∧
      s.StopsAfter (CommandProcessor.reply (KVStore.calls {}))
        KVStore.fresh () [.ofTokens [ascii "QUIT"]] := by
  let event := chunkEvent (encodeResp [ascii "QUIT"])
  have hread : (readTrace {} event.reads).received = encodeResp [ascii "QUIT"] := by decide
  obtain ⟨s, hstep, hsent⟩ := (step_quit (KVStore.calls {})
    KVStore.fresh).1
  -- the chunk ends with the `QUIT`, so it is shorter than the `PING` would need
  have hnothing : (connected KVStore.fresh).NothingBehind () ([] ++ [.ofTokens [ascii "QUIT"]])
      [.ofTokens [ascii "PING"]] (.handle event) := by
    refine fun _ _ => ⟨steady_chunkEvent _, fun next rest hafter => ?_⟩
    obtain ⟨rfl, -⟩ := List.cons.inj hafter
    show (readTrace {} event.reads).received.length < _
    rw [hread]
    decide
  have hok : (connected KVStore.fresh).Ok (fun _ => quitStream) (.handle event) :=
    ok_chunkEvent (by decide) (by decide)
  have hrun : Run (Step (CommandProcessor.execute (KVStore.calls {})))
      (fun s label => s.Ok (fun _ => quitStream) label ∧
        s.NothingBehind () ([] ++ [.ofTokens [ascii "QUIT"]]) [.ofTokens [ascii "PING"]] label)
      (begin KVStore.fresh) s :=
    run_connected ⟨trivial, trivial⟩ ⟨hok, hnothing⟩ hstep
  exact ⟨s, hsent, quit_is_last rfl rfl (by simp) (by decide) hrun⟩

/-- A `QUIT` and a `PING` come in together: both are executed and answered. -/
theorem pipelined_ping_answered :
    ∃ s : History Unit KVStore,
      Run (Step (CommandProcessor.execute (KVStore.calls {})))
        (fun s label => s.Ok (fun _ => quitStream) label ∧ label.Handles ReadyEvent.Steady)
        (begin KVStore.fresh) s ∧
      s.sent () = ascii "BYE\r\nPONG\r\n" ∧
      ¬ s.StopsAfter (CommandProcessor.reply (KVStore.calls {}))
        KVStore.fresh () [.ofTokens [ascii "QUIT"]] := by
  obtain ⟨s, hstep, hsent, hexecuted⟩ := (step_quit (KVStore.calls {})
    KVStore.fresh).2
  refine ⟨s, run_connected ⟨trivial, trivial⟩ ⟨ok_chunkEvent ?_ ?_, steady_chunkEvent _⟩ hstep,
    hsent, fun hstops => ?_⟩
  · decide
  · decide
  · have hpre := hstops.executed
    rw [hexecuted] at hpre
    exact absurd hpre (by decide)

end Reactor.History

end KvStore
