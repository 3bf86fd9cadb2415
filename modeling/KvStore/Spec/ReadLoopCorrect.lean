import KvStore.Native.Server
import KvStore.Spec.RequestCodecCorrect
import Mathlib.Data.Set.List

/-!
# What the reading loop executes

`executesExactly_iff` is about streams of well-formed requests with a malformed frame behind
them. When `ExtractRequests` throws, the requests that it has taken off the buffer in the
same call are not returned, so the loop executes all requests only if they come in before
the chunk that makes `ExtractRequests` throw. It throws as well when there is no room for the
tokens that the first line of a frame declares.
-/

namespace KvStore

/-- A request together with a well-formed text of it. -/
structure EncodedRequest where
  request : DecodedRequest
  text : Bytes
  frame : Frame request.tokens text

/-- What `EncodeResp` makes of tokens. -/
def EncodedRequest.ofTokens (tokens : List Bytes) : EncodedRequest where
  request := { tokens }
  text := encodeResp tokens
  frame := frame_encodeResp tokens

namespace Connection

section

variable {σ : Type} (execute : σ → List Bytes → σ × Bytes)
  (reserve : Nat → Option String)

/-- Commands that do not throw. -/
def total (store : σ) (tokens : List Bytes) : σ × Except String Bytes :=
  ((execute store tokens).1, .ok (execute store tokens).2)

/-- The store after some requests. -/
def executeAll (store : σ) (requests : List DecodedRequest) : σ :=
  requests.foldl (fun store request => (execute store request.tokens).1) store

/-- All requests of a chunk are executed. -/
theorem answer_total (store : σ) (connection : Connection) (requests : List DecodedRequest) :
    ∃ answered, answer (total execute) store connection requests =
        (executeAll execute store requests, .ok answered) ∧
      answered.codec = connection.codec := by
  induction requests generalizing store connection with
  | nil => exact ⟨connection, rfl, rfl⟩
  | cons request requests ih =>
    obtain ⟨answered, hanswer, hcodec⟩ := ih (execute store request.tokens).1
      { connection with
        closeAfterWrite := connection.closeAfterWrite || isQuit request
        writeBuffer := connection.writeBuffer ++ (execute store request.tokens).2 }
    exact ⟨answered, hanswer, hcodec⟩

/-- The loop executes what the codec returns, and closes the connection when it throws. -/
theorem readLoopWith_total (store : σ) (connection : Connection) (chunks : List Bytes) :
    (readLoopWith (total execute) reserve store connection (chunks.map .bytes)).1 =
        executeAll execute store (connection.codec.feedWith reserve chunks).1.flatten ∧
      ((readLoopWith (total execute) reserve store connection (chunks.map .bytes)).2 = .closed ↔
        ∃ error, (connection.codec.feedWith reserve chunks).2 = .error error) := by
  induction chunks generalizing store connection with
  | nil => exact ⟨rfl, nofun, nofun⟩
  | cons chunk chunks ih =>
    rw [List.map_cons, readLoopWith, RequestCodec.feedWith]
    rcases (connection.codec.append chunk).extractRequestsWith reserve with ⟨result, codec⟩
    cases result with
    -- the codec throws: the connection is closed and nothing more is executed
    | error error => exact ⟨rfl, fun _ => ⟨error, rfl⟩, fun _ => rfl⟩
    | ok requests =>
      obtain ⟨answered, hanswer, hcodec⟩ :=
        answer_total execute store { connection with codec } requests
      simp only [hanswer]
      obtain ⟨hstore, hclosed⟩ := ih (executeAll execute store requests) answered
      rw [hcodec] at hstore hclosed
      refine ⟨?_, hclosed⟩
      rw [hstore, List.flatten_cons, executeAll, executeAll, executeAll, List.foldl_append]

end

/-- The loop executes these requests, in order and no others, and closes the connection,
    whatever the store and its commands are, as long as they do not throw. -/
def ExecutesExactly (reserve : Nat → Option String) (chunks : List Bytes)
    (requests : List DecodedRequest) : Prop :=
  ∀ (σ : Type) (execute : σ → List Bytes → σ × Bytes) (store : σ),
    readLoopWith (total execute) reserve store {} (chunks.map .bytes) =
      (executeAll execute store requests, .closed)

/-- The commands that only record what is executed. -/
def recording (executed : List DecodedRequest) (tokens : List Bytes) :
    List DecodedRequest × Bytes :=
  (executed ++ [⟨tokens⟩], [])

/-- What is recorded is what has been executed. -/
theorem executeAll_recording (executed requests : List DecodedRequest) :
    executeAll recording executed requests = executed ++ requests := by
  induction requests generalizing executed with
  | nil => exact (List.append_nil executed).symm
  | cons request requests ih =>
    show executeAll recording (executed ++ [request]) requests = _
    rw [ih, List.append_assoc]
    rfl

/-- What the loop executes is what the codec returns. -/
theorem executesExactly_iff_feedWith (reserve : Nat → Option String) (chunks : List Bytes)
    (requests : List DecodedRequest) :
    ExecutesExactly reserve chunks requests ↔
      (RequestCodec.feedWith reserve {} chunks).1.flatten = requests ∧
        ∃ error, (RequestCodec.feedWith reserve {} chunks).2 = .error error := by
  constructor
  · -- a store that records what is executed tells the requests apart
    intro h
    obtain ⟨hstore, hclosed⟩ := readLoopWith_total recording reserve [] {} chunks
    rw [h _ recording [], executeAll_recording, executeAll_recording] at hstore
    exact ⟨hstore.symm, hclosed.mp (congrArg Prod.snd (h _ recording []))⟩
  · rintro ⟨rfl, herror⟩ σ execute store
    obtain ⟨hstore, hclosed⟩ := readLoopWith_total execute reserve store {} chunks
    exact Prod.ext hstore (hclosed.mpr herror)

/-- For requests with a malformed frame behind them: the loop executes exactly the requests if
    and only if after some chunk they are all there and what is there of the malformed frame
    by then does not make `TryExtractResp` throw. -/
theorem executesExactly_iff {reserve : Nat → Option String} {requests : List EncodedRequest}
    {malformed : Bytes} {error : String} {chunks : List Bytes}
    (hroom : ∀ request ∈ requests, reserve request.request.tokens.length = none)
    (hmalformed : tryExtractRespWith reserve malformed = .error error)
    (hlength : (requests.flatMap EncodedRequest.text ++ malformed).length < maxSize)
    (hchunks : chunks.flatten = requests.flatMap EncodedRequest.text ++ malformed) :
    ExecutesExactly reserve chunks (requests.map EncodedRequest.request) ↔
      ∃ front back, chunks = front ++ back ∧
        (requests.flatMap EncodedRequest.text).length ≤ front.flatten.length ∧
        tryExtractRespWith reserve
          (front.flatten.drop (requests.flatMap EncodedRequest.text).length) = .ok none := by
  -- the requests as values that carry the room for their tokens
  lift requests to List {x : EncodedRequest // reserve x.request.tokens.length = none} using hroom
  simp only [List.flatMap_map, List.map_map] at hlength hchunks ⊢
  have hreads : Decoder.Reads (tryExtractRespWith reserve)
      (fun x : {x : EncodedRequest // reserve x.request.tokens.length = none} => x.1.text)
      (fun x => x.1.request) maxSize :=
    reads_tryExtractRespWith (fun x => x.1.frame) fun x => x.2
  obtain ⟨⟨error', herror'⟩, hiff⟩ := hreads.feed_malformed_iff stable_tryExtractRespWith hlength
    hreads.nil ((List.nil_append _).trans hchunks) hmalformed
  have hthrows : ∃ error, (RequestCodec.feedWith reserve {} chunks).2 = .error error := by
    rw [RequestCodec.feedWith_eq, herror']
    exact ⟨error', rfl⟩
  rw [executesExactly_iff_feedWith, and_iff_left hthrows, RequestCodec.feedWith_eq]
  exact hiff

/-- The text of a request with the one token `PING`. -/
def pingText : Bytes := encodeResp [[80, 73, 78, 71]]

/-- A first line that declares `SIZE_MAX` tokens. -/
def minusOneTokens : Bytes := "*-1\r\n".toList.map Char.toUInt8

/-- What a vector of strings of 32 bytes throws for more of them than its `max_size`. -/
def vectorReserve (count : Nat) : Option String :=
  if 2 ^ 58 ≤ count then some "vector::reserve" else none

/-- A `PING` in one chunk, and in the next a first line that no vector has room for. -/
theorem executesExactly_iff_ping :
    ExecutesExactly vectorReserve [pingText, minusOneTokens] [⟨[[80, 73, 78, 71]]⟩] ↔
      ∃ front back, [pingText, minusOneTokens] = front ++ back ∧
        pingText.length ≤ front.flatten.length ∧
        tryExtractRespWith vectorReserve (front.flatten.drop pingText.length) = .ok none := by
  have hroom : ∀ request ∈ [EncodedRequest.ofTokens [[80, 73, 78, 71]]],
      vectorReserve request.request.tokens.length = none := by decide
  have hmalformed :
      tryExtractRespWith vectorReserve minusOneTokens = .error "vector::reserve" := by decide
  have h := @executesExactly_iff vectorReserve [.ofTokens [[80, 73, 78, 71]]] minusOneTokens _
    [pingText, minusOneTokens] hroom hmalformed (by decide) (by decide)
  exact h

/-- A malformed frame in the chunk of the `PING`: the `PING` is not executed, whether no request
    starts with the byte behind it or there is no room for the tokens that are declared. -/
theorem ping_dropped :
    (tryExtractRespWith vectorReserve [33] = .error "RESP request must start with '*'" ∧
      ExecutesExactly vectorReserve [pingText, [33]] [⟨[[80, 73, 78, 71]]⟩] ∧
      ¬ ExecutesExactly vectorReserve [pingText ++ [33]] [⟨[[80, 73, 78, 71]]⟩]) ∧
    tryExtractRespWith vectorReserve minusOneTokens = .error "vector::reserve" ∧
      ExecutesExactly vectorReserve [pingText, minusOneTokens] [⟨[[80, 73, 78, 71]]⟩] ∧
      ¬ ExecutesExactly vectorReserve [pingText ++ minusOneTokens] [⟨[[80, 73, 78, 71]]⟩] := by
  have hdropped {malformed : Bytes}
      (h : readLoopWith (total recording) vectorReserve [] {} [.bytes (pingText ++ malformed)] =
        ([], .closed)) :
      ¬ ExecutesExactly vectorReserve [pingText ++ malformed] [⟨[[80, 73, 78, 71]]⟩] := by
    intro hexact
    cases (congrArg Prod.fst (hexact _ recording [])).symm.trans (congrArg Prod.fst h)
  exact ⟨⟨by decide, fun _ _ _ => rfl, hdropped rfl⟩, by decide, fun _ _ _ => rfl, hdropped rfl⟩

end Connection

end KvStore
