import KvStore.Native.System
import KvStore.Spec.CommandRefinement
import KvStore.Spec.ResponseLines

/-!
# One request at a time

What a client sends for a typed line is a request that the server can read and log
(`sendable_of_takeLine`). While only a beginning of it has come in the server executes
nothing, and when all of it has come in the server executes it once (`eventTrace_request`).
Its response is a line as long as no stored string holds a line feed, and requests that are
typed in store none (`Plain.execute`).
-/

namespace KvStore

/-! ## Lines that are typed in -/

namespace Client

/-- Trimming only removes bytes. -/
theorem trim_sublist (text : Bytes) : (trim text).Sublist text := by
  have hfront := (List.dropWhile_suffix isBlank (l := text)).sublist
  refine List.Sublist.trans ?_ hfront
  have hback := (List.dropWhile_suffix isBlank (l := (text.dropWhile isBlank).reverse)).sublist
  rw [← List.reverse_sublist, trim, List.reverse_reverse]
  exact hback

/-- A token and the rest of the stream are parts of the stream. -/
theorem extract_sublist (stream : Bytes) :
    ((extract stream).1 ++ (extract stream).2).Sublist stream := by
  rw [extract, List.takeWhile_append_dropWhile]
  exact (List.dropWhile_suffix isspace).sublist

/-- The words are parts of the stream. -/
theorem extractAll_sublist (fuel : Nat) (stream : Bytes) :
    (extractAll fuel stream).flatten.Sublist stream := by
  induction fuel generalizing stream with
  | zero => exact List.nil_sublist _
  | succ fuel ih =>
    have hextract := extract_sublist stream
    rw [extractAll]
    split
    · exact List.nil_sublist _
    · rename_i token rest _ heq
      rw [heq] at hextract
      exact ((List.Sublist.refl token).append (ih rest)).trans hextract

/-- There are no more words than bytes in them. -/
theorem length_extractAll_le (fuel : Nat) (stream : Bytes) :
    (extractAll fuel stream).length ≤ (extractAll fuel stream).flatten.length := by
  induction fuel generalizing stream with
  | zero => exact Nat.le_refl _
  | succ fuel ih =>
    rw [extractAll]
    split
    · exact Nat.le_refl _
    · rename_i token rest hne heq
      -- every token has a character
      have hpos : 0 < token.length := List.length_pos_iff.mpr fun hnil => hne hnil
      have hrest := ih rest
      rw [List.flatten_cons, List.length_append, List.length_cons]
      omega

/-- The tokens of a line are parts of it, and there are no more of them than characters and one
    more. -/
theorem parseInteractiveCommand_sublist {line : Bytes} {tokens : List Bytes}
    (h : parseInteractiveCommand line = .ok tokens) :
    tokens.flatten.Sublist line ∧ tokens.length ≤ line.length + 1 := by
  have htrim := trim_sublist line
  have hfirst := extract_sublist (trim line)
  unfold parseInteractiveCommand at h
  simp only at h
  split at h
  · cases h
    exact ⟨List.nil_sublist _, Nat.zero_le _⟩
  · have hlength {tokens : List Bytes} (hflat : tokens.flatten.Sublist line)
        (hcount : tokens.length ≤ tokens.flatten.length + 1) :
        tokens.flatten.Sublist line ∧ tokens.length ≤ line.length + 1 :=
      ⟨hflat, hcount.trans (Nat.succ_le_succ hflat.length_le)⟩
    split at h
    · split at h
      · cases h
      · rename_i hparts
        obtain rfl := Except.ok.inj h
        rw [not_or] at hparts
        have hkey := List.length_pos_iff.mpr hparts.1
        have hvalue := List.length_pos_iff.mpr hparts.2
        refine hlength ?_ ?_
        · -- the value is a part of what is behind the key
          have hsecond := extract_sublist (extract (trim line)).2
          have hline := (trim_sublist (getline (extract (extract (trim line)).2).2)).trans
            (List.takeWhile_prefix _).sublist
          have htail := ((List.Sublist.refl (extract (extract (trim line)).2).1).append
            hline).trans hsecond
          have hall := (((List.Sublist.refl (extract (trim line)).1).append htail).trans
            hfirst).trans htrim
          simpa using hall
        · simp only [List.length_cons, List.length_nil, List.flatten_cons, List.flatten_nil,
            List.length_append]
          omega
    · obtain rfl := Except.ok.inj h
      refine hlength ?_ ?_
      · have htail := extractAll_sublist (extract (trim line)).2.length (extract (trim line)).2
        exact (((List.Sublist.refl (extract (trim line)).1).append htail).trans hfirst).trans htrim
      · have hcount := length_extractAll_le (extract (trim line)).2.length (extract (trim line)).2
        rw [List.flatten_cons, List.length_append, List.length_cons]
        omega

end Client

/-! ## Requests that are sent -/

/-- The tokens fit the header of a record and hold no line feed, and the request fits a
    `std::string` together with what one call of `read` brings in. -/
structure Sendable (tokens : List Bytes) : Prop where
  fits : ∀ token ∈ tokens, token.length < 2 ^ 32
  plain : ∀ token ∈ tokens, (10 : UInt8) ∉ token
  bounded : (encodeResp tokens).length + Connection.readSize ≤ maxSize

/-- A number has few digits. -/
theorem length_toDecimal_le (n : Nat) : (toDecimal n).length ≤ n + 1 := by
  rw [toDecimal, List.length_map]
  exact Nat.toDigits_length 10 n (n + 1) (Nat.succ_pos n)
    ((Nat.lt_pow_self (by decide)).trans (Nat.pow_lt_pow_right (by decide) (Nat.lt_succ_self n)))

/-- A bound on the size of a request. -/
theorem length_encodeResp_le (tokens : List Bytes) :
    (encodeResp tokens).length ≤ 7 * tokens.length + 2 * tokens.flatten.length + 4 := by
  have hitems : (tokens.flatMap encodeToken).length ≤
      6 * tokens.length + 2 * tokens.flatten.length := by
    induction tokens with
    | nil => exact Nat.le_refl _
    | cons token tokens ih =>
      have hdigits := length_toDecimal_le token.length
      simp only [List.flatMap_cons, List.flatten_cons, List.length_append, List.length_cons,
        encodeToken, crlf, List.length_nil]
      omega
  have hdigits := length_toDecimal_le tokens.length
  simp only [encodeResp, List.length_append, List.length_cons, crlf, List.length_nil]
  omega

/-- The request of a line can be sent. -/
theorem sendable_of_typed (line : TypedLine) {tokens : List Bytes}
    (h : Client.parseInteractiveCommand line.text = .ok tokens) : Sendable tokens := by
  obtain ⟨hflat, hcount⟩ := Client.parseInteractiveCommand_sublist h
  have hle := hflat.length_le
  have hshort := line.short
  refine ⟨fun token htoken => ?_, fun token htoken hmem => ?_, ?_⟩
  · have htoken' := (List.sublist_flatten_of_mem htoken).length_le
    omega
  · exact line.oneLine (hflat.subset (List.mem_flatten_of_mem htoken hmem))
  · have hlength := length_encodeResp_le tokens
    unfold Connection.readSize maxSize
    omega

/-! ## Reading one request -/

namespace Connection

private theorem refused_nil :
    ([] : Bytes) = [] ∨ ∃ error, tryExtractResp [] = .error error := .inl rfl

private theorem short_nil : ([] : Bytes).length + readSize < maxSize := by decide

/-- The stream of one request. -/
private def streamOf (tokens : List Bytes)
    (h : (encodeResp tokens).length + readSize ≤ maxSize) : ClientStream where
  requests := [.ofTokens tokens]
  refused := refused_nil
  bounded request hrequest := by
    rw [List.mem_singleton.mp hrequest]
    exact h
  short := short_nil

/-- What the reading loop makes of a part of a request. -/
theorem readTrace_request {tokens : List Bytes} (hsend : Sendable tokens) {codec : RequestCodec}
    {outcomes : List ReadOutcome} (hless : codec.buffer.length < (encodeResp tokens).length)
    (hchunks : ∀ outcome ∈ outcomes, outcome.chunk.length ≤ readSize)
    (hpre : codec.buffer ++ (readTrace codec outcomes).received <+: encodeResp tokens) :
    (readTrace codec outcomes).ending ≠ .malformed ∧
    ((codec.buffer ++ (readTrace codec outcomes).received = encodeResp tokens ∧
        (readTrace codec outcomes).requests = [{ tokens }] ∧
        ∀ codec', (readTrace codec outcomes).ending = .waits codec' → codec'.buffer = []) ∨
      ((codec.buffer ++ (readTrace codec outcomes).received).length <
          (encodeResp tokens).length ∧
        (readTrace codec outcomes).requests = [] ∧
        ∀ codec', (readTrace codec outcomes).ending = .waits codec' →
          codec'.buffer = codec.buffer ++ (readTrace codec outcomes).received)) := by
  have hbytes : (streamOf tokens hsend.bounded).bytes = encodeResp tokens := by
    simp [ClientStream.bytes, streamOf, EncodedRequest.ofTokens]
  have hsplit : (streamOf tokens hsend.bounded).Split codec.buffer [] [.ofTokens tokens]
      codec.buffer :=
    ⟨rfl, rfl, .inl ⟨(List.prefix_append _ _).trans hpre, hless⟩⟩
  obtain ⟨middle, rest, torn, hmiddle, hsplit', hcases⟩ := readTrace_eq hsplit
    (fun chunk hchunk => hchunks _ hchunk) (by rwa [hbytes])
  rw [List.nil_append] at hsplit'
  cases middle with
  | nil =>
    -- the request is not complete yet
    obtain rfl : rest = [.ofTokens tokens] := hmiddle.symm
    have hreceived := hsplit'.received
    rw [List.flatMap_nil, List.nil_append] at hreceived
    rcases hsplit'.torn with ⟨-, htorn⟩ | ⟨hnil, -⟩
    · rcases hcases with ⟨hending, hrequests, hcodec⟩ | ⟨-, hnil, -⟩
      · exact ⟨hending, .inr ⟨hreceived ▸ htorn, hrequests,
          fun codec' h => (hcodec codec' h).trans hreceived.symm⟩⟩
      · cases hnil
    · cases hnil
  | cons request middle =>
    rw [List.cons_append, List.cons.injEq, eq_comm (a := []), List.append_eq_nil_iff] at hmiddle
    obtain ⟨rfl, rfl, rfl⟩ := hmiddle
    have htorn : torn = [] := by
      rcases hsplit'.torn with htorn | ⟨-, hpre⟩
      · exact htorn
      · exact List.prefix_nil.mp hpre
    subst htorn
    have hreceived := hsplit'.received
    rw [List.append_nil, List.flatMap_singleton] at hreceived
    rcases hcases with ⟨hending, hrequests, hcodec⟩ | ⟨-, -, ⟨error, herror⟩, -⟩
    · exact ⟨hending, .inl ⟨hreceived, hrequests, hcodec⟩⟩
    · -- an empty buffer is not refused
      cases herror

/-- What one event makes of a part of a request. -/
theorem eventTrace_request {ι : Type} {tokens : List Bytes} (hsend : Sendable tokens)
    {connection : Connection} {event : ReadyEvent ι}
    (hless : connection.codec.buffer.length < (encodeResp tokens).length)
    (hchunks : ∀ outcome ∈ event.reads, outcome.chunk.length ≤ readSize)
    (hpre : connection.codec.buffer ++ (connection.eventTrace event).received <+:
      encodeResp tokens) :
    (connection.eventTrace event).ending ≠ .malformed ∧
    ((connection.codec.buffer ++ (connection.eventTrace event).received = encodeResp tokens ∧
        (connection.eventTrace event).requests = [{ tokens }] ∧
        ∀ codec, (connection.eventTrace event).ending = .waits codec → codec.buffer = []) ∨
      ((connection.codec.buffer ++ (connection.eventTrace event).received).length <
          (encodeResp tokens).length ∧
        (connection.eventTrace event).requests = [] ∧
        ∀ codec, (connection.eventTrace event).ending = .waits codec →
          codec.buffer = connection.codec.buffer ++ (connection.eventTrace event).received)) := by
  unfold Connection.eventTrace at hpre ⊢
  split at hpre
  · rename_i hreads
    rw [if_pos hreads]
    exact readTrace_request hsend hless hchunks hpre
  · rename_i hreads
    rw [if_neg hreads]
    -- nothing is read
    refine ⟨?_, .inr ⟨by rwa [List.append_nil], rfl, ?_⟩⟩
    · intro hending
      cases hending
    · intro codec hcodec
      cases hcodec
      exact (List.append_nil _).symm

end Connection

/-! ## Responses -/

namespace MapStore

/-- No key and no value holds a line feed. -/
def Plain (m : MapStore Bytes Bytes) : Prop :=
  ∀ key value, m.get key = some value → (10 : UInt8) ∉ key ∧ (10 : UInt8) ∉ value

/-- An empty store holds no line breaks. -/
theorem plain_new : (new : MapStore Bytes Bytes).Plain := by
  intro key value hget
  rw [get_new] at hget
  cases hget

/-- The calls of the reference store throw nothing. -/
theorem neverThrow_calls : (calls).NeverThrow where
  put _ _ _ := ⟨_, rfl⟩
  delete _ _ := ⟨_, rfl⟩

variable {m : MapStore Bytes Bytes} {tokens : List Bytes}

/-- A request without line feeds stores none. -/
theorem Plain.reply (h : m.Plain) (htokens : ∀ token ∈ tokens, (10 : UInt8) ∉ token) :
    (CommandProcessor.reply calls m tokens).1.Plain := by
  show (CommandProcessor.execute calls m tokens).1.Plain
  rw [CommandProcessor.execute_fst]
  cases hwrite : CommandProcessor.requestWrite tokens with
  | none => exact h
  | some write =>
    have hstrings := CommandProcessor.mem_of_requestWrite hwrite
    intro key value hget
    -- a write adds at most a pair of tokens of the request
    cases write with
    | put key' value' =>
      have hput : Function.update m.get key' (some value') key = some value :=
        (congrFun (m.get_put key' value') key).symm.trans hget
      rw [Function.update_apply] at hput
      split at hput
      · rename_i hkey
        obtain rfl := Option.some.inj hput
        rw [hkey]
        exact ⟨htokens _ (hstrings _ (by simp [StoreWrite.strings])),
          htokens _ (hstrings _ (by simp [StoreWrite.strings]))⟩
      · exact h key value hput
    | delete key' =>
      have hdelete : Function.update m.get key' none key = some value :=
        (congrFun (m.get_delete key') key).symm.trans hget
      rw [Function.update_apply] at hdelete
      split at hdelete
      · cases hdelete
      · exact h key value hdelete
    | checkpoint => exact h key value hget

/-- A text without line feeds holds no line end. -/
theorem findCrlf_eq_none_of_plain {text : Bytes} (h : (10 : UInt8) ∉ text) :
    findCrlf text = none := by
  cases hfind : findCrlf text with
  | none => rfl
  | some pos =>
    obtain ⟨front, rest, rfl, -⟩ := exists_of_findCrlf hfind
    exact absurd (by simp [crlf]) h

/-- The response to a request is a line. -/
theorem Plain.isLine_reply (h : m.Plain) (tokens : List Bytes) :
    IsLine (CommandProcessor.reply calls m tokens).2 := by
  have hexecute := CommandProcessor.execute_ok neverThrow_calls m tokens
  rw [CommandProcessor.isLine_of_execute hexecute]
  cases tokens with
  | nil => trivial
  | cons first args =>
    intro text htext
    refine findCrlf_eq_none_of_plain ?_
    unfold CommandProcessor.quoted at htext
    split at htext
    · -- the value of a key
      split at htext
      · rename_i key
        exact (h key text (Option.mem_toList.mp htext)).2
      · cases htext
    · split at htext
      · -- the pairs in a range
        split at htext
        · rename_i start stop
          obtain ⟨⟨key, value⟩, hpair, hmem⟩ := List.mem_flatMap.mp htext
          have hget := (((m.lists_scan start stop).mem_iff key value).mp hpair).1
          rcases List.mem_cons.mp hmem with rfl | hmem
          · exact (h _ value hget).1
          · rw [List.mem_singleton.mp hmem]
            exact (h key _ hget).2
        · cases htext
      · cases htext

end MapStore

end KvStore
