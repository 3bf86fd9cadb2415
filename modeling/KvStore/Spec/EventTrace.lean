import KvStore.Spec.ReadLoopCorrect

/-!
# What one event does to a connection

`readTrace` is what the calls of `read` bring in, apart from the store: the requests that the
codec takes out of the bytes, and how the reading ends. `readLoop_eq` says that the reading
loop executes these requests, and `handleEvent_cases` what `HandleConnectionEvent` does with
their responses, in each of the ways in which it can end.
-/

namespace KvStore.Connection

/-- The connection, while it is in the map. -/
def ReadResult.connection? : ReadResult → Option Connection
  | .opened connection => some connection
  | _ => none

/-! ## Reading -/

/-- How the reading loop ends. -/
inductive ReadEnding where
  /-- There is nothing more to read, and the codec keeps what is not complete. -/
  | waits (codec : RequestCodec)
  /-- The peer has closed. -/
  | closed
  /-- `read` has failed. -/
  | failed
  /-- `ExtractRequests` has thrown. -/
  | malformed

/-- What the reading loop reads: the requests that the codec returns, and all the bytes. -/
structure ReadTrace where
  requests : List DecodedRequest := []
  received : Bytes := []
  ending : ReadEnding

/-- The reading loop without the execution of the requests. -/
def readTrace (codec : RequestCodec) : List ReadOutcome → ReadTrace
  | [] | .again :: _ => { ending := .waits codec }
  | .interrupted :: outcomes => readTrace codec outcomes
  | .failed :: _ => { ending := .failed }
  | .closed :: _ => { ending := .closed }
  | .bytes chunk :: outcomes =>
    match (codec.append chunk).extractRequests with
    | (.error _, _) => { received := chunk, ending := .malformed }
    | (.ok requests, codec) =>
      let trace := readTrace codec outcomes
      { requests := requests ++ trace.requests
        received := chunk ++ trace.received
        ending := trace.ending }

section Total

variable {σ : Type} (run : σ → List Bytes → σ × Bytes)

/-- The responses to requests that are executed one after another. -/
def responses (store : σ) : List DecodedRequest → Bytes
  | [] => []
  | request :: requests =>
    (run store request.tokens).2 ++ responses (run store request.tokens).1 requests

/-- Executing two runs of requests. -/
theorem executeAll_append (store : σ) (requests requests' : List DecodedRequest) :
    executeAll run store (requests ++ requests') =
      executeAll run (executeAll run store requests) requests' :=
  List.foldl_append

/-- The responses to two runs of requests. -/
theorem responses_append (store : σ) (requests requests' : List DecodedRequest) :
    responses run store (requests ++ requests') =
      responses run store requests ++ responses run (executeAll run store requests) requests' := by
  induction requests generalizing store with
  | nil => rfl
  | cons request requests ih =>
    rw [List.cons_append, responses, ih, responses, List.append_assoc]
    rfl

/-- A connection on which requests have been answered. -/
def answered (connection : Connection) (requests : List DecodedRequest) (output : Bytes) :
    Connection :=
  { connection with
    writeBuffer := connection.writeBuffer ++ output
    closeAfterWrite := connection.closeAfterWrite || requests.any isQuit }

/-- The requests of a chunk are executed in order, and their responses are buffered. -/
theorem answer_eq (store : σ) (connection : Connection) (requests : List DecodedRequest) :
    answer (total run) store connection requests =
      (executeAll run store requests,
        .ok (connection.answered requests (responses run store requests))) := by
  induction requests generalizing store connection with
  | nil => simp [answer, executeAll, answered, responses]
  | cons request requests ih =>
    rw [answer]
    simp only [total, ih]
    simp [answered, responses, executeAll, Bool.or_assoc]

/-- What the reading loop makes of its trace. -/
def readResult (store : σ) (connection : Connection) (trace : ReadTrace) : ReadResult :=
  match trace.ending with
  | .waits codec =>
    .opened { connection.answered trace.requests (responses run store trace.requests) with codec }
  | _ => .closed

/-- The reading loop executes the requests of its trace. -/
theorem readLoop_eq (store : σ) (connection : Connection) (outcomes : List ReadOutcome) :
    readLoop (total run) store connection outcomes =
      (executeAll run store (readTrace connection.codec outcomes).requests,
        readResult run store connection (readTrace connection.codec outcomes)) := by
  -- by induction on the calls of `read`
  induction outcomes generalizing store connection with
  | nil => simp [readLoop, readLoopWith, readTrace, executeAll, readResult, answered, responses]
  | cons outcome outcomes ih =>
    cases outcome with
    | again => simp [readLoop, readLoopWith, readTrace, executeAll, readResult, answered, responses]
    | closed => rfl
    | failed => rfl
    | interrupted => exact ih store connection
    | bytes chunk =>
      rw [readLoop_bytes, readTrace]
      rcases (connection.codec.append chunk).extractRequests with ⟨result, codec⟩
      cases result with
      | error error => rfl
      | ok requests =>
        simp only [answer_eq, ih]
        -- the connection in between has the codec of the rest of the trace
        show (executeAll run _ (readTrace codec outcomes).requests,
          readResult run _ _ (readTrace codec outcomes)) = _
        rw [executeAll_append]
        unfold readResult
        cases (readTrace codec outcomes).ending with
        | waits codec' =>
          simp only [answered, responses_append, List.any_append, List.append_assoc,
            Bool.or_assoc]
        | _ => rfl

end Total

/-! ## Streams of requests -/

/-- What a client sends: well-formed requests, and possibly a frame that is refused behind
    them. All fit a `std::string` together with what one call of `read` brings in. -/
structure ClientStream where
  requests : List EncodedRequest
  malformed : Bytes := []
  refused : malformed = [] ∨ ∃ error, tryExtractResp malformed = .error error
  bounded : ∀ request ∈ requests, request.text.length + readSize ≤ maxSize
  short : malformed.length + readSize < maxSize

namespace ClientStream

/-- The bytes that the client sends. -/
def bytes (stream : ClientStream) : Bytes :=
  stream.requests.flatMap EncodedRequest.text ++ stream.malformed

/-- What has come in: the requests `front` are complete, the requests `rest` are not, and the
    bytes `torn` lie behind the complete ones. -/
structure Split (stream : ClientStream) (received : Bytes) (front rest : List EncodedRequest)
    (torn : Bytes) : Prop where
  requests : stream.requests = front ++ rest
  received : received = front.flatMap EncodedRequest.text ++ torn
  torn : Torn EncodedRequest.text rest torn ∨ rest = [] ∧ torn <+: stream.malformed

variable {stream : ClientStream} {received torn : Bytes} {front rest : List EncodedRequest}

/-- The codec is a decoder of the requests of a stream. -/
theorem reads : Decoder.Reads tryExtractResp EncodedRequest.text EncodedRequest.request maxSize :=
  reads_tryExtractResp EncodedRequest.frame

/-- Before anything has come in. -/
theorem split_nil (stream : ClientStream) : stream.Split [] [] stream.requests [] := by
  refine ⟨rfl, rfl, ?_⟩
  cases hrequests : stream.requests with
  | nil => exact .inr ⟨rfl, List.nil_prefix⟩
  | cons request requests =>
    refine .inl ⟨List.nil_prefix, ?_⟩
    exact List.length_pos_iff.mpr (reads.ne_nil request)

/-- What is not complete yet leaves room for another chunk. -/
private theorem Split.length_lt (h : stream.Split received front rest torn) {chunk : Bytes}
    (hchunk : chunk.length ≤ readSize) : (torn ++ chunk).length < maxSize := by
  rw [List.length_append]
  rcases h.torn with htorn | ⟨-, hpre⟩
  · cases rest with
    | nil =>
      have hsize : readSize < maxSize := by decide
      rw [show torn = [] from htorn, List.length_nil]
      omega
    | cons request rest =>
      have hbounded := stream.bounded request (by rw [h.requests]; simp)
      have hless := htorn.2
      omega
  · have hle := hpre.length_le
    have hshort := stream.short
    omega

/-- The next chunk: the requests that it completes are returned, unless what is behind them is
    refused already. -/
private theorem Split.chunk (h : stream.Split received front rest torn) {chunk : Bytes}
    (hchunk : chunk.length ≤ readSize) (hpre : received ++ chunk <+: stream.bytes) :
    ∃ middle rest' torn', rest = middle ++ rest' ∧
      stream.Split (received ++ chunk) (front ++ middle) rest' torn' ∧
      ((({ buffer := torn } : RequestCodec).append chunk).extractRequests =
          (.ok (middle.map EncodedRequest.request), { buffer := torn' }) ∨
        rest' = [] ∧ (∃ error, tryExtractResp torn' = .error error) ∧
          ∃ error, (({ buffer := torn } : RequestCodec).append chunk).extractRequests =
            (.error error, { buffer := torn' })) := by
  -- the bytes that have not been received are the rest of the stream
  have hbytes : stream.bytes =
      front.flatMap EncodedRequest.text ++ (rest.flatMap EncodedRequest.text ++ stream.malformed) := by
    rw [bytes, h.requests, List.flatMap_append, List.append_assoc]
  rw [hbytes, h.received, List.append_assoc, List.prefix_append_right_inj] at hpre
  have hframes : ∀ request ∈ rest, request.text.length < maxSize := by
    intro request hrequest
    have hbounded := stream.bounded request
      (by rw [h.requests]; exact List.mem_append_right _ hrequest)
    unfold readSize at hbounded
    omega
  have htail : stream.malformed = [] ∨ stream.malformed.length < maxSize ∧
      ∃ error, tryExtractResp stream.malformed = .error error := by
    have hshort := stream.short
    exact stream.refused.imp id fun herror => ⟨by omega, herror⟩
  obtain ⟨middle, rest', torn', rfl, hmiddle, htorn, hdrain⟩ :=
    reads.drain_chunk stable_tryExtractResp hframes htail (h.length_lt hchunk) hpre
  refine ⟨middle, rest', torn', rfl, ⟨?_, ?_, htorn⟩, ?_⟩
  · rw [h.requests, List.append_assoc]
  · rw [h.received, List.append_assoc, hmiddle, List.flatMap_append, List.append_assoc]
  · rw [RequestCodec.extractRequests_eq]
    simp only [RequestCodec.append]
    -- the chunk ends inside a request, or it holds the malformed frame
    rcases hdrain with ⟨-, hdrain⟩ | ⟨error, herror, hdrain⟩ <;> rw [hdrain]
    · exact .inl rfl
    · refine .inr ⟨?_, ⟨error, herror⟩, error, rfl⟩
      -- a torn request is not refused
      rcases htorn with htorn | ⟨hnil, -⟩
      · cases rest' with
        | nil => rfl
        | cons request rest' =>
          cases (reads.torn request torn' (hframes request (by simp)) htorn.1 htorn.2).symm.trans
            herror
      · exact hnil

end ClientStream

/-- What the reading loop makes of a part of a stream: it returns the requests that are
    complete and keeps what is behind them, unless that is refused. -/
theorem readTrace_eq {stream : ClientStream} {received : Bytes} {front rest : List EncodedRequest}
    {codec : RequestCodec} (h : stream.Split received front rest codec.buffer)
    {outcomes : List ReadOutcome}
    (hchunks : ∀ chunk, .bytes chunk ∈ outcomes → chunk.length ≤ readSize)
    (hpre : received ++ (readTrace codec outcomes).received <+: stream.bytes) :
    ∃ middle rest' torn, rest = middle ++ rest' ∧
      stream.Split (received ++ (readTrace codec outcomes).received) (front ++ middle) rest' torn ∧
      ((readTrace codec outcomes).ending ≠ .malformed ∧
          (readTrace codec outcomes).requests = middle.map EncodedRequest.request ∧
          (∀ codec', (readTrace codec outcomes).ending = .waits codec' → codec'.buffer = torn) ∨
        (readTrace codec outcomes).ending = .malformed ∧ rest' = [] ∧
          (∃ error, tryExtractResp torn = .error error) ∧
          (readTrace codec outcomes).requests <+: middle.map EncodedRequest.request) := by
  -- by induction on the calls of `read`
  induction outcomes generalizing received front rest codec with
  | nil =>
    refine ⟨[], rest, codec.buffer, rfl, by simpa [readTrace] using h, .inl ⟨nofun, rfl, ?_⟩⟩
    intro codec' heq
    cases heq
    rfl
  | cons outcome outcomes ih =>
    have hchunks' : ∀ chunk, .bytes chunk ∈ outcomes → chunk.length ≤ readSize :=
      fun chunk hmem => hchunks chunk (List.mem_cons_of_mem _ hmem)
    cases outcome with
    | again =>
      refine ⟨[], rest, codec.buffer, rfl, by simpa [readTrace] using h, .inl ⟨nofun, rfl, ?_⟩⟩
      intro codec' heq
      cases heq
      rfl
    | closed =>
      exact ⟨[], rest, codec.buffer, rfl, by simpa [readTrace] using h, .inl ⟨nofun, rfl, nofun⟩⟩
    | failed =>
      exact ⟨[], rest, codec.buffer, rfl, by simpa [readTrace] using h, .inl ⟨nofun, rfl, nofun⟩⟩
    | interrupted => exact ih h hchunks' hpre
    | bytes chunk =>
      have hchunk := hchunks chunk List.mem_cons_self
      have hfirst : received ++ chunk <+: stream.bytes := by
        refine List.IsPrefix.trans ?_ hpre
        rw [readTrace, List.prefix_append_right_inj]
        split
        · exact List.prefix_rfl
        · exact List.prefix_append _ _
      obtain ⟨middle, rest', torn', rfl, hsplit, hextract⟩ := h.chunk hchunk hfirst
      rcases hextract with hextract | ⟨hnil, hrefused, error, hextract⟩
      · -- the requests of the chunk are returned, and the loop goes on
        have htrace : readTrace codec (.bytes chunk :: outcomes) =
            { requests := middle.map EncodedRequest.request ++
                (readTrace { buffer := torn' } outcomes).requests
              received := chunk ++ (readTrace { buffer := torn' } outcomes).received
              ending := (readTrace { buffer := torn' } outcomes).ending } := by
          rw [readTrace]
          simp only [hextract]
        rw [htrace] at hpre ⊢
        simp only at hpre ⊢
        rw [← List.append_assoc] at hpre ⊢
        obtain ⟨middle', rest'', torn'', rfl, hsplit', hcases⟩ := ih hsplit hchunks' hpre
        refine ⟨middle ++ middle', rest'', torn'', (List.append_assoc _ _ _).symm, ?_, ?_⟩
        · rwa [List.append_assoc front] at hsplit'
        · rw [List.map_append, List.append_cancel_left_eq, List.prefix_append_right_inj]
          exact hcases
      · -- the requests of the chunk are lost
        have htrace : readTrace codec (.bytes chunk :: outcomes) =
            { received := chunk, ending := .malformed } := by
          rw [readTrace]
          simp only [hextract]
        rw [htrace]
        exact ⟨middle, rest', torn', rfl, hsplit, .inr ⟨rfl, hnil, hrefused, List.nil_prefix⟩⟩

/-! ## Writing -/

/-- An empty buffer is not written. -/
theorem writeToConnection_of_nil {connection : Connection} (h : connection.writeBuffer = [])
    (outcomes : List SendOutcome) :
    connection.writeToConnection outcomes = ([], connection.finishWriting) := by
  cases outcomes <;> simp [writeToConnection, h]

/-- `WriteToConnection` writes a beginning of the buffer. It waits with the rest, or finishes
    when there is none, or `write` fails. -/
theorem writeToConnection_cases (connection : Connection) (outcomes : List SendOutcome) :
    ∃ written left, connection.writeBuffer = written ++ left ∧
      ((left ≠ [] ∧ connection.writeToConnection outcomes =
          (written, ({ connection with writeBuffer := left } : Connection).awaitWritable)) ∨
        (left = [] ∧ connection.writeToConnection outcomes =
          (written, ({ connection with writeBuffer := [] } : Connection).finishWriting)) ∨
        (SendOutcome.failed ∈ outcomes ∧
          connection.writeToConnection outcomes = (written, .closed))) := by
  -- by induction on the calls of `send`
  induction outcomes generalizing connection with
  | nil =>
    by_cases hnil : connection.writeBuffer = []
    · refine ⟨[], [], hnil, .inr (.inl ⟨rfl, ?_⟩)⟩
      rw [writeToConnection_of_nil hnil, ← hnil]
    · exact ⟨[], _, rfl, .inl ⟨hnil, by simp [writeToConnection, hnil]⟩⟩
  | cons outcome outcomes ih =>
    by_cases hnil : connection.writeBuffer = []
    · refine ⟨[], [], hnil, .inr (.inl ⟨rfl, ?_⟩)⟩
      rw [writeToConnection_of_nil hnil, ← hnil]
    · cases outcome with
      | again => exact ⟨[], _, rfl, .inl ⟨hnil, by simp [writeToConnection, hnil]⟩⟩
      | failed =>
        exact ⟨[], _, rfl, .inr (.inr ⟨List.mem_cons_self, by simp [writeToConnection, hnil]⟩)⟩
      | interrupted =>
        obtain ⟨written, left, hbuffer, hcases⟩ := ih connection
        have heq : connection.writeToConnection (.interrupted :: outcomes) =
            connection.writeToConnection outcomes := by simp [writeToConnection, hnil]
        rw [heq]
        refine ⟨written, left, hbuffer, hcases.imp id (Or.imp id (And.imp ?_ id))⟩
        exact List.mem_cons_of_mem _
      | wrote count =>
        -- the rest of the buffer is written by the calls that follow
        obtain ⟨written, left, hbuffer, hcases⟩ :=
          ih { connection with writeBuffer := connection.writeBuffer.drop count }
        have heq : connection.writeToConnection (.wrote count :: outcomes) =
            (connection.writeBuffer.take count ++
              (writeToConnection { connection with
                writeBuffer := connection.writeBuffer.drop count } outcomes).1,
              (writeToConnection { connection with
                writeBuffer := connection.writeBuffer.drop count } outcomes).2) := by
          simp [writeToConnection, hnil]
        have hbytes : connection.writeBuffer =
            connection.writeBuffer.take count ++ written ++ left := by
          rw [List.append_assoc, ← hbuffer, List.take_append_drop]
        rw [heq]
        refine ⟨connection.writeBuffer.take count ++ written, left, hbytes, ?_⟩
        rcases hcases with ⟨hleft, heq⟩ | ⟨hleft, heq⟩ | ⟨hfailed, heq⟩
        · exact .inl ⟨hleft, by rw [heq]⟩
        · exact .inr (.inl ⟨hleft, by rw [heq]⟩)
        · exact .inr (.inr ⟨List.mem_cons_of_mem _ hfailed, by rw [heq]⟩)

/-! ## Events -/

/-- The events for which `HandleConnectionEvent` closes the connection at once. -/
def hungUp (events : Events) : Bool := events.epollErr || events.epollHup || events.epollRdhup

section

variable {ι : Type} (connection : Connection) (event : ReadyEvent ι)

/-- What is read while an event is handled. -/
def eventTrace : ReadTrace :=
  if hungUp event.events = false ∧ event.events.epollIn = true then
    readTrace connection.codec event.reads
  else { ending := .waits connection.codec }

/-- A `QUIT` has been executed by the end of the event. -/
def quits : Bool :=
  connection.closeAfterWrite || (connection.eventTrace event).requests.any isQuit

/-- How `HandleConnectionEvent` ends, when `output` is what was left to write before the event
    and the responses to the requests that it reads: the bytes that are written, and what
    becomes of the connection. -/
inductive Handled (output : Bytes) : Bytes → ReadResult → Prop where
  /-- The peer has hung up. -/
  | hungUp (hhung : hungUp event.events = true) : Handled output [] .closed
  /-- The reading ends with the connection. -/
  | stopped (hstopped : ∀ codec, (connection.eventTrace event).ending ≠ .waits codec) :
      Handled output [] .closed
  /-- The connection stays open. -/
  | opened {written : Bytes} {next : Connection}
      (hwaits : (connection.eventTrace event).ending = .waits next.codec)
      (houtput : output = written ++ next.writeBuffer)
      (hclose : next.closeAfterWrite = connection.quits event)
      (hidle : next.closeAfterWrite = true → next.writeBuffer = [] → output = []) :
      Handled output written (.opened next)
  /-- Everything has been written after a `QUIT`. -/
  | finished (hhung : hungUp event.events = false)
      (hwaits : ∃ codec, (connection.eventTrace event).ending = .waits codec)
      (hquit : connection.quits event = true) : Handled output output .closed
  /-- `write` has failed. -/
  | failed {written left : Bytes} (hfailed : .failed ∈ event.writes ++ event.laterWrites)
      (houtput : output = written ++ left) : Handled output written .closed

variable {connection event}

/-- The connection stays open with what is left to write, or it is closed and a beginning of
    the output is written. -/
theorem Handled.cases {output written : Bytes} {result : ReadResult}
    (h : Handled connection event output written result) :
    (∃ next, result = .opened next ∧
      (connection.eventTrace event).ending = .waits next.codec ∧
      output = written ++ next.writeBuffer ∧
      next.closeAfterWrite = connection.quits event) ∨
    result = .closed ∧ written <+: output := by
  cases h with
  | hungUp => exact .inr ⟨rfl, List.nil_prefix⟩
  | stopped => exact .inr ⟨rfl, List.nil_prefix⟩
  | opened hwaits houtput hclose => exact .inl ⟨_, rfl, hwaits, houtput, hclose⟩
  | finished => exact .inr ⟨rfl, List.prefix_rfl⟩
  | @failed _ left _ houtput => exact .inr ⟨rfl, left, houtput.symm⟩

/-- A call of `WriteToConnection` on what an event has left in the buffer so far. -/
private theorem Handled.write (before : Bytes) {next : Connection} {output : Bytes}
    {outcomes : List SendOutcome} (hhung : Connection.hungUp event.events = false)
    (hwaits : (connection.eventTrace event).ending = .waits next.codec)
    (houtput : output = before ++ next.writeBuffer)
    (hclose : next.closeAfterWrite = connection.quits event)
    (hsub : ∀ outcome ∈ outcomes, outcome ∈ event.writes ++ event.laterWrites) :
    Handled connection event output (before ++ (next.writeToConnection outcomes).1)
      (next.writeToConnection outcomes).2 := by
  obtain ⟨written, left, hbuffer, hcases⟩ := next.writeToConnection_cases outcomes
  rw [hbuffer, ← List.append_assoc] at houtput
  rcases hcases with ⟨hleft, heq⟩ | ⟨hleft, heq⟩ | ⟨hfailed, heq⟩ <;> rw [heq]
  · -- the socket takes no more bytes
    unfold awaitWritable setConnectionInterest
    split
    · exact .opened hwaits houtput hclose fun _ hnil => absurd hnil hleft
    · exact .opened hwaits houtput hclose fun _ hnil => absurd hnil hleft
  · -- everything is written
    rw [hleft, List.append_nil] at houtput
    unfold finishWriting
    split
    · rename_i hquit
      rw [← houtput]
      exact .finished hhung ⟨_, hwaits⟩ (hclose.symm.trans hquit)
    · rename_i hquit
      unfold setConnectionInterest
      split
      · exact .opened hwaits (houtput.trans (List.append_nil _).symm) hclose
          fun h => absurd h hquit
      · exact .opened hwaits (houtput.trans (List.append_nil _).symm) hclose
          fun h => absurd h hquit
  · exact .failed (hsub _ hfailed) houtput

/-- What one event does to a connection. -/
theorem handleEvent_cases {σ : Type} (run : σ → List Bytes → σ × Bytes) (store : σ)
    (connection : Connection) (event : ReadyEvent ι) :
    ∃ written result,
      connection.handleEvent (total run) store event =
        (executeAll run store (connection.eventTrace event).requests, written, result) ∧
      Handled connection event (connection.writeBuffer ++
        responses run store (connection.eventTrace event).requests) written result := by
  by_cases hhung : hungUp event.events = true
  · -- the connection is closed at once
    have htrace : connection.eventTrace event = { ending := .waits connection.codec } :=
      if_neg (by simp [hhung])
    refine ⟨[], .closed, ?_, .hungUp hhung⟩
    unfold hungUp at hhung
    rw [handleEvent, if_pos hhung, htrace]
    rfl
  · have hhung' : hungUp event.events = false := by simpa using hhung
    -- the store, the bytes written and the result after `ReadFromConnection`
    have hread : ∃ written result,
        (if event.events.epollIn then
            connection.readFromConnection (total run) store event.reads event.writes
          else (store, [], .opened connection)) =
          (executeAll run store (connection.eventTrace event).requests, written, result) ∧
        Handled connection event (connection.writeBuffer ++
          responses run store (connection.eventTrace event).requests) written result := by
      by_cases hin : event.events.epollIn = true
      · have htrace : connection.eventTrace event = readTrace connection.codec event.reads :=
          if_pos ⟨hhung', hin⟩
        rw [if_pos hin, htrace, readFromConnection, readLoop_eq]
        unfold readResult
        cases hending : (readTrace connection.codec event.reads).ending with
        | waits codec =>
          have hwaits : (connection.eventTrace event).ending = .waits codec := htrace ▸ hending
          have hclose : (connection.closeAfterWrite ||
              (readTrace connection.codec event.reads).requests.any isQuit) =
              connection.quits event := by rw [quits, htrace]
          by_cases hnil : (connection.answered (readTrace connection.codec event.reads).requests
              (responses run store (readTrace connection.codec event.reads).requests)).writeBuffer =
                []
          · exact ⟨_, _, if_pos hnil, .opened hwaits rfl hclose fun _ _ => hnil⟩
          · exact ⟨_, _, if_neg hnil, Handled.write [] hhung' hwaits rfl hclose
              fun _ => List.mem_append_left _⟩
        | _ => exact ⟨_, _, rfl, .stopped fun codec => by rw [htrace, hending]; exact nofun⟩
      · have htrace : connection.eventTrace event = { ending := .waits connection.codec } :=
          if_neg fun h => hin h.2
        rw [if_neg hin, htrace]
        refine ⟨[], .opened connection, rfl, .opened (by rw [htrace]) ?_ ?_ ?_⟩
        · exact (List.append_nil _).trans (List.nil_append _).symm
        · simp [quits, htrace]
        · exact fun _ hnil => (List.append_nil _).trans hnil
    obtain ⟨written, result, heq, hhandled⟩ := hread
    unfold hungUp at hhung
    rw [handleEvent, if_neg hhung]
    simp only [heq]
    cases hhandled with
    | @opened _ next hwaits houtput hclose hidle =>
      -- `EPOLLOUT` is looked at only if the connection is still open
      simp only
      split
      · exact ⟨_, _, rfl, .write _ hhung' hwaits houtput hclose fun _ => List.mem_append_right _⟩
      · exact ⟨_, _, rfl, .opened hwaits houtput hclose hidle⟩
    | hungUp h => exact absurd h (by simp [hhung'])
    | stopped hstopped => exact ⟨_, _, rfl, .stopped hstopped⟩
    | finished _ hwaits hquit => exact ⟨_, _, rfl, .finished hhung' hwaits hquit⟩
    | failed hfailed houtput => exact ⟨_, _, rfl, .failed hfailed houtput⟩

end

/-! ## Commands that throw -/

section Throwing

variable {σ : Type} {execute : σ → List Bytes → σ × Except String Bytes}
  {run : σ → List Bytes → σ × Bytes}

/-- `run` is `execute` where this does not throw. -/
def Agrees (execute : σ → List Bytes → σ × Except String Bytes)
    (run : σ → List Bytes → σ × Bytes) : Prop :=
  ∀ {store tokens store' response}, execute store tokens = (store', .ok response) →
    run store tokens = (store', response)

/-- The requests of a chunk that are all executed without an exception. -/
theorem Agrees.answer_eq (h : Agrees execute run) {store store' : σ}
    {connection connection' : Connection} {requests : List DecodedRequest}
    (hanswer : answer execute store connection requests = (store', .ok connection')) :
    answer (total run) store connection requests = (store', .ok connection') := by
  induction requests generalizing store connection with
  | nil => exact hanswer
  | cons request requests ih =>
    rw [answer] at hanswer ⊢
    split at hanswer
    · cases hanswer
    · rename_i store₁ response hexecute
      simp only [total, h hexecute]
      exact ih hanswer

/-- A reading loop that no exception leaves. -/
theorem Agrees.readLoop_eq (h : Agrees execute run) {store store' : σ}
    {connection : Connection} {outcomes : List ReadOutcome} {result : ReadResult}
    (hresult : ∀ error, result ≠ .thrown error)
    (hloop : readLoop execute store connection outcomes = (store', result)) :
    readLoop (total run) store connection outcomes = (store', result) := by
  induction outcomes generalizing store connection with
  | nil => exact hloop
  | cons outcome outcomes ih =>
    cases outcome with
    | interrupted => exact ih hloop
    | bytes chunk =>
      rw [readLoop_bytes] at hloop ⊢
      split at hloop
      · exact hloop
      · split at hloop
        · -- a command has thrown, which `hresult` excludes
          cases hloop
          exact absurd rfl (hresult _)
        · rename_i hanswer
          simp only [h.answer_eq hanswer]
          exact ih hloop
    | _ => exact hloop

/-- An event that no exception leaves. -/
theorem Agrees.handleEvent_eq (h : Agrees execute run) {ι : Type} {store store' : σ}
    {connection : Connection} {event : ReadyEvent ι} {written : Bytes} {result : ReadResult}
    (hresult : ∀ error, result ≠ .thrown error)
    (hhandle : connection.handleEvent execute store event = (store', written, result)) :
    connection.handleEvent (total run) store event = (store', written, result) := by
  -- reading gives the same, unless a command throws
  have hread {store₁ : σ} {written₁ : Bytes} {result₁ : ReadResult}
      (hresult₁ : ∀ error, result₁ ≠ .thrown error)
      (heq : connection.readFromConnection execute store event.reads event.writes =
        (store₁, written₁, result₁)) :
      connection.readFromConnection (total run) store event.reads event.writes =
        (store₁, written₁, result₁) := by
    unfold readFromConnection at heq ⊢
    rcases hloop : readLoop execute store connection event.reads with ⟨store₂, result₂⟩
    rw [hloop] at heq
    have hthrown : ∀ error, result₂ ≠ .thrown error := by
      rintro error rfl
      cases heq
      exact hresult₁ error rfl
    rw [h.readLoop_eq hthrown hloop]
    exact heq
  -- only the branch of `EPOLLIN` executes requests; the others are the same on both sides
  unfold handleEvent at hhandle ⊢
  split at hhandle
  · rename_i hhung
    rw [if_pos hhung]
    exact hhandle
  · rename_i hhung
    rw [if_neg hhung]
    by_cases hin : event.events.epollIn = true
    · rw [if_pos hin] at hhandle ⊢
      rcases hfrom : connection.readFromConnection execute store event.reads event.writes with
        ⟨store₁, written₁, result₁⟩
      rw [hfrom] at hhandle
      rw [hread ?_ hfrom]
      · exact hhandle
      · rintro error rfl
        cases hhandle
        exact hresult error rfl
    · rw [if_neg hin] at hhandle ⊢
      exact hhandle

end Throwing

end KvStore.Connection
