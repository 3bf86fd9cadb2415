import KvStore.ForStd.Decoder
import KvStore.Spec.Frame

/-!
# Requests that arrive in chunks

However the encodings of requests are cut, `ExtractRequests` returns after each chunk the
requests that are complete by then (`feed_encodeResp`).
-/

namespace KvStore

/-- What `EncodeResp` writes is a frame. -/
theorem frame_encodeResp (tokens : List Bytes) : Frame tokens (encodeResp tokens) := by
  have hitems : Items tokens (tokens.flatMap encodeToken) := by
    induction tokens with
    | nil => exact .nil
    | cons token tokens ih => exact .cons (denotes_toDecimal token.length) ih
  exact .mk (denotes_toDecimal tokens.length) hitems

section

variable {reserve : Nat → Option String}

/-- `TryExtractResp` as a decoder of texts that are frames, if there is room for the tokens. -/
theorem reads_tryExtractRespWith {α : Type} {text : α → Bytes} {request : α → DecodedRequest}
    (h : ∀ x, Frame (request x).tokens (text x))
    (hroom : ∀ x, reserve (request x).tokens.length = none) :
    Decoder.Reads (tryExtractRespWith reserve) text request maxSize where
  nil := rfl
  ne_nil x hnil := by
    have hframe := h x
    rw [hnil] at hframe
    cases hframe
  whole x rest hlength := (h x).tryExtractRespWith_eq (hroom x) rest hlength
  torn x _ hlength hpre hless := (h x).tryExtractRespWith_torn (hroom x) hlength hpre hless

/-- A judgement of `TryExtractResp` stands, whatever bytes follow. -/
theorem stable_tryExtractRespWith : Decoder.Stable (tryExtractRespWith reserve) maxSize where
  error _ hlength herror := ⟨_, (tryExtractRespWith_append hlength).1 _ herror⟩
  some _ hlength hsome := by
    obtain ⟨request', hrequest'⟩ := (tryExtractRespWith_append hlength).2 _ _ hsome
    exact ⟨_, hrequest'⟩

/-- `TryExtractResp` with room for any number of tokens. -/
theorem reads_tryExtractResp {α : Type} {text : α → Bytes} {request : α → DecodedRequest}
    (h : ∀ x, Frame (request x).tokens (text x)) :
    Decoder.Reads tryExtractResp text request maxSize :=
  reads_tryExtractRespWith h fun _ => rfl

/-- What is taken from a buffer does not depend on what comes behind it. -/
theorem stable_tryExtractResp : Decoder.Stable tryExtractResp maxSize :=
  stable_tryExtractRespWith

end

namespace RequestCodec

section

variable (reserve : Nat → Option String)

/-- The loop of `ExtractRequests` takes off the buffer what the decoder drains. -/
theorem extractLoop_eq (fuel : Nat) (buffer : Bytes) (requests : List DecodedRequest) :
    extractLoop reserve fuel buffer requests =
      ((Decoder.drain (tryExtractRespWith reserve) fuel buffer).1.map (requests ++ ·),
        { buffer := (Decoder.drain (tryExtractRespWith reserve) fuel buffer).2 }) := by
  induction fuel generalizing buffer requests with
  | zero => simp [extractLoop, Decoder.drain, Except.map]
  | succ fuel ih =>
    rw [extractLoop, Decoder.drain]
    by_cases hnil : buffer = []
    · -- the loop ends at an empty buffer, where `TryExtractResp` would find no request
      subst hnil
      simp [tryExtractRespWith, readRequest, Except.map]
    · rw [if_neg hnil]
      cases hdecode : tryExtractRespWith reserve buffer with
      | error error => rfl
      | ok frame =>
        cases frame with
        | none => simp [Except.map]
        | some frame =>
          simp only [ih]
          cases (Decoder.drain (tryExtractRespWith reserve) fuel frame.2).1 <;> simp [Except.map]

/-- `ExtractRequests` takes frames off the buffer as long as there are whole ones. -/
theorem extractRequestsWith_eq (codec : RequestCodec) :
    codec.extractRequestsWith reserve =
      ((Decoder.drain (tryExtractRespWith reserve) codec.buffer.length codec.buffer).1,
        { buffer :=
          (Decoder.drain (tryExtractRespWith reserve) codec.buffer.length codec.buffer).2 }) := by
  rw [extractRequestsWith, extractLoop_eq]
  cases (Decoder.drain (tryExtractRespWith reserve) codec.buffer.length codec.buffer).1 <;> rfl

/-- `ExtractRequests` with room for any number of tokens. -/
theorem extractRequests_eq (codec : RequestCodec) :
    codec.extractRequests =
      ((Decoder.drain tryExtractResp codec.buffer.length codec.buffer).1,
        { buffer := (Decoder.drain tryExtractResp codec.buffer.length codec.buffer).2 }) :=
  extractRequestsWith_eq _ codec

/-- `Append` and `ExtractRequests` for one chunk after the other: the lists that are returned,
    and the codec in the end or what `ExtractRequests` throws. -/
def feedWith (codec : RequestCodec) :
    List Bytes → List (List DecodedRequest) × Except String RequestCodec
  | [] => ([], .ok codec)
  | chunk :: chunks =>
    match (codec.append chunk).extractRequestsWith reserve with
    | (.error error, _) => ([], .error error)
    | (.ok requests, codec) =>
      let (lists, result) := feedWith codec chunks
      (requests :: lists, result)

/-- What is returned after each chunk is what the decoder takes. -/
theorem feedWith_eq (codec : RequestCodec) (chunks : List Bytes) :
    codec.feedWith reserve chunks =
      ((Decoder.feed (tryExtractRespWith reserve) codec.buffer chunks).1,
        (Decoder.feed (tryExtractRespWith reserve) codec.buffer chunks).2.map
          RequestCodec.mk) := by
  induction chunks generalizing codec with
  | nil => rfl
  | cons chunk chunks ih =>
    rw [feedWith, Decoder.feed, extractRequestsWith_eq]
    simp only [append]
    rcases Decoder.drain (tryExtractRespWith reserve) (codec.buffer ++ chunk).length
      (codec.buffer ++ chunk) with ⟨result, left⟩
    cases result with
    | error error => rfl
    | ok requests => simp only [ih]

end

/-- `Append` and `ExtractRequests` for one chunk after the other, with room for any number of
    tokens. -/
def feed : RequestCodec → List Bytes → List (List DecodedRequest) × Except String RequestCodec :=
  feedWith fun _ => none

/-- However the encodings of requests are cut into chunks, nothing is thrown, all requests
    are returned in order, those that are complete by then after each chunk, and nothing is
    left in the buffer. -/
theorem feed_encodeResp {requests : List DecodedRequest} {chunks : List Bytes}
    (hlength : (requests.flatMap fun request => encodeResp request.tokens).length < maxSize)
    (hchunks : chunks.flatten = requests.flatMap fun request => encodeResp request.tokens) :
    ∃ lists, feed {} chunks = (lists, .ok {}) ∧ lists.length = chunks.length ∧
      lists.flatten = requests ∧
      ∀ n, (lists.take n).flatten = takeFrames (fun request => encodeResp request.tokens)
        (chunks.take n).flatten.length requests := by
  have hreads : Decoder.Reads tryExtractResp
      (fun request : DecodedRequest => encodeResp request.tokens) id maxSize :=
    reads_tryExtractResp fun request => frame_encodeResp request.tokens
  obtain ⟨lists, hfeed, hcount, hlists, htake⟩ := hreads.feed_stream hlength hchunks
  simp only [List.map_id] at hlists htake
  have hfeed' : Decoder.feed (tryExtractRespWith fun _ => none) [] chunks = (lists, .ok []) :=
    hfeed
  exact ⟨lists, by rw [feed, feedWith_eq, hfeed']; rfl, hcount, hlists, htake⟩

/-- Two requests, the second without tokens, cut inside a token and between the requests. -/
theorem feed_encodeResp_two :
    ∃ lists, feed {} [encodeResp [[80, 73, 78, 71]] |>.take 10,
        encodeResp [[80, 73, 78, 71]] |>.drop 10, encodeResp []] = (lists, .ok {}) ∧
      lists.length = 3 ∧ lists.flatten = [⟨[[80, 73, 78, 71]]⟩, ⟨[]⟩] ∧
      ∀ n, (lists.take n).flatten = takeFrames (fun request => encodeResp request.tokens)
        ([encodeResp [[80, 73, 78, 71]] |>.take 10, encodeResp [[80, 73, 78, 71]] |>.drop 10,
          encodeResp []].take n).flatten.length [⟨[[80, 73, 78, 71]]⟩, ⟨[]⟩] :=
  feed_encodeResp (by decide) (by decide)

end RequestCodec

end KvStore
