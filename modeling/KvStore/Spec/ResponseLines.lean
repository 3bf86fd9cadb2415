import KvStore.Native.Client
import KvStore.Spec.CommandExecution
import KvStore.Spec.Frame

/-!
# Responses are lines

The client takes a response to be what comes before the next line end. `readLines_iff` says
when the lines that it reads are the responses: no key and no value that a response quotes may
hold a line end.
-/

namespace KvStore

/-! ## Line ends -/

/-- A line end behind a text is the first one if the text holds none. -/
theorem findCrlf_append_crlf_iff (text : Bytes) :
    findCrlf (text ++ crlf) = some text.length ↔ findCrlf text = none := by
  induction text with
  | nil => decide
  | cons ch text ih =>
    have hhere : crlf <+: ch :: (text ++ crlf) ↔ crlf <+: ch :: text := by
      cases text with
      | nil => simp [crlf]
      | cons next text => simp [crlf]
    rw [List.cons_append, findCrlf, findCrlf]
    by_cases hstart : crlf <+: ch :: text
    · rw [if_pos hstart, if_pos (hhere.mpr hstart)]
      simp
    · rw [if_neg hstart, if_neg (hhere.not.mpr hstart)]
      simpa using ih

/-- A line end within two texts lies within one of them, unless it begins with the last byte
    of the first. -/
theorem findCrlf_append_eq_none {front back : Bytes} (hback : back.head? ≠ some 10) :
    findCrlf (front ++ back) = none ↔ findCrlf front = none ∧ findCrlf back = none := by
  induction front with
  | nil => simp [findCrlf]
  | cons ch front ih =>
    -- only a line feed at the front of `back` could complete a line end of `front`
    have hhere : crlf <+: ch :: (front ++ back) ↔ crlf <+: ch :: front := by
      cases front with
      | nil =>
        cases back with
        | nil => simp [crlf]
        | cons next back =>
          have hnext : (10 : UInt8) ≠ next := fun heq => hback (by simp [heq])
          simp [crlf, hnext]
      | cons next front => simp [crlf]
    rw [List.cons_append, findCrlf, findCrlf]
    by_cases hstart : crlf <+: ch :: front
    · rw [if_pos hstart, if_pos (hhere.mpr hstart)]
      simp
    · rw [if_neg hstart, if_neg (hhere.not.mpr hstart)]
      simpa using ih

/-- A text in front that holds no carriage return plays no part. -/
theorem findCrlf_append_left_eq_none {front back : Bytes} (hfront : (13 : UInt8) ∉ front) :
    findCrlf (front ++ back) = none ↔ findCrlf back = none := by
  induction front with
  | nil => rfl
  | cons ch front ih =>
    have hhere : ¬ crlf <+: ch :: (front ++ back) := by
      rintro ⟨rest, hrest⟩
      exact hfront (List.mem_cons.mpr (.inl (List.cons.inj hrest).1))
    rw [List.cons_append, findCrlf, if_neg hhere, Option.map_eq_none_iff]
    exact ih fun hmem => hfront (List.mem_cons_of_mem _ hmem)

/-- A text with a line end behind it is a line if it holds none. -/
theorem isLine_append_crlf (text : Bytes) : IsLine (text ++ crlf) ↔ findCrlf text = none := by
  have hlength : (text ++ crlf).length - 2 = text.length := by simp [crlf]
  rw [IsLine, and_iff_right (List.suffix_append _ _), hlength, findCrlf_append_crlf_iff]

namespace CommandProcessor

/-- The pairs in the response to a `SCAN`. -/
private theorem findCrlf_pairs (pairs : List (Bytes × Bytes)) :
    findCrlf (pairs.flatMap fun pair => ascii " " ++ pair.1 ++ ascii "=" ++ pair.2) = none ↔
      ∀ text ∈ pairs.flatMap fun pair => [pair.1, pair.2], findCrlf text = none := by
  induction pairs with
  | nil => simp [findCrlf]
  | cons pair pairs ih =>
    let rest := pairs.flatMap fun pair => ascii " " ++ pair.1 ++ ascii "=" ++ pair.2
    -- blanks and equals signs complete no line end
    have hrest : rest.head? ≠ some 10 := by
      show (pairs.flatMap _).head? ≠ _
      cases pairs with
      | nil => simp
      | cons pair pairs =>
        show some (' '.toUInt8) ≠ some 10
        decide
    have hspace : (13 : UInt8) ∉ ascii " " := by decide
    have hequals : (13 : UInt8) ∉ ascii "=" := by decide
    have hhead : (ascii "=" ++ (pair.2 ++ rest)).head? ≠ some 10 := by
      show some ('='.toUInt8) ≠ some 10
      decide
    rw [List.flatMap_cons, List.append_assoc, List.append_assoc, List.append_assoc,
      findCrlf_append_left_eq_none hspace, findCrlf_append_eq_none hhead,
      findCrlf_append_left_eq_none hequals, findCrlf_append_eq_none hrest, ih]
    simp [or_imp, forall_and]

variable {σ : Type} {calls : StoreCalls σ}

/-- A response is a line if no key and no value that it quotes holds a line end. -/
theorem Responds.isLine_iff {store : σ} {command response : Bytes} {args : List Bytes}
    (h : Responds calls store command args (.ok response)) :
    IsLine response ↔ ∀ text ∈ quoted calls store command args, findCrlf text = none := by
  cases h with
  | text line hline hquoted => simp [hline, hquoted]
  | value hcommand hargs hget =>
    have hprefix : (13 : UInt8) ∉ ascii "VALUE " := by decide
    rw [isLine_append_crlf, findCrlf_append_left_eq_none hprefix]
    simp [quoted, hcommand, hargs, hget]
  | pairs hcommand hargs =>
    have hdigits (n : Nat) : (13 : UInt8) ∉ ascii "RESULT " ++ toDecimal n := by
      rw [List.mem_append, not_or]
      exact ⟨by decide, (denotes_toDecimal n).not_mem_cr⟩
    have hget : ascii "SCAN" ≠ ascii "GET" := by decide
    rw [scanResponse, isLine_append_crlf, findCrlf_append_left_eq_none (hdigits _),
      findCrlf_pairs]
    unfold quoted
    rw [hcommand, if_neg hget, if_pos rfl, hargs]

/-! ## Reading the responses -/

/-- `Execute` returns these responses to the requests, which are given by their tokens. -/
inductive Answers (calls : StoreCalls σ) : σ → List (List Bytes) → List Bytes → Prop where
  | nil {store : σ} : Answers calls store [] []
  | cons {store store' : σ} {tokens response : _} {requests responses : _}
      (hexecute : execute calls store tokens = (store', .ok response))
      (hrest : Answers calls store' requests responses) :
      Answers calls store (tokens :: requests) (response :: responses)

/-- The keys and values that the response to a request quotes hold no line end. -/
def QuotesPlain (calls : StoreCalls σ) (store : σ) : List Bytes → Prop
  | [] => True
  | first :: args => ∀ text ∈ quoted calls store (toUpper first) args, findCrlf text = none

/-- This holds for each of the requests, in the state of the store in which it is executed. -/
def AllQuotePlain (calls : StoreCalls σ) : σ → List (List Bytes) → Prop
  | _, [] => True
  | store, tokens :: requests =>
    QuotesPlain calls store tokens ∧ AllQuotePlain calls (execute calls store tokens).1 requests

/-- A response to a request is a line if the keys and values that it quotes hold no line
    end. -/
theorem isLine_of_execute {store store' : σ} {tokens : List Bytes} {response : Bytes}
    (h : execute calls store tokens = (store', .ok response)) :
    IsLine response ↔ QuotesPlain calls store tokens := by
  cases tokens with
  | nil =>
    cases h
    exact iff_of_true (by decide) trivial
  | cons first args =>
    have hcases := executeCommand_cases calls store (toUpper first) args
    rw [execute] at h
    rw [h] at hcases
    exact hcases.isLine_iff

/-- The responses are lines exactly if no request makes the server quote a line break. -/
theorem Answers.isLine_iff {store : σ} {requests : List (List Bytes)} {responses : List Bytes}
    (h : Answers calls store requests responses) :
    (∀ response ∈ responses, IsLine response) ↔ AllQuotePlain calls store requests := by
  induction h with
  | nil => simp [AllQuotePlain]
  | cons hexecute hrest ih =>
    rw [List.forall_mem_cons, AllQuotePlain, isLine_of_execute hexecute, hexecute, ih]

/-- Every request has one response. -/
theorem Answers.length_eq {store : σ} {requests : List (List Bytes)} {responses : List Bytes}
    (h : Answers calls store requests responses) : responses.length = requests.length := by
  induction h with
  | nil => rfl
  | cons _ _ ih => simp [ih]

end CommandProcessor

namespace Client

/-- The calls of `read` bring in these bytes, in chunks of any size. -/
inductive Delivers : List ReadOutcome → Bytes → Prop where
  | nil : Delivers [] []
  | bytes {outcomes : List ReadOutcome} {rest : Bytes} (chunk : Bytes)
      (hrest : Delivers outcomes rest) : Delivers (.bytes chunk :: outcomes) (chunk ++ rest)
  | interrupted {outcomes : List ReadOutcome} {rest : Bytes} (hrest : Delivers outcomes rest) :
      Delivers (.interrupted :: outcomes) rest

/-- When the buffer holds the end of the first line, this line is in front of it. -/
private theorem take_of_find {buffer bytes line rest : Bytes} {pos : Nat} (hline : IsLine line)
    (hfind : find buffer 0 = some pos) (happend : buffer ++ bytes = line ++ rest) :
    substr buffer 0 (pos + 2) = line ∧ buffer.drop (pos + 2) ++ bytes = rest := by
  have hle := (find_le hfind).2
  -- the line has no line end but its last two bytes
  have hlength : line.length = pos + 2 := by
    have hfirst : findCrlf (line ++ rest) = some pos := by
      rw [← happend]
      have hhere := (find_append hfind (Nat.zero_le _) bytes)
      rw [find, List.drop_zero] at hhere
      simpa using hhere
    rw [findCrlf_append hline.2 rest] at hfirst
    have hcrlf := hline.1.length_le
    simp only [crlf, List.length_cons, List.length_nil, Option.some.injEq] at hcrlf hfirst
    omega
  have hsplit : buffer.take (pos + 2) ++ (buffer.drop (pos + 2) ++ bytes) = line ++ rest := by
    rw [← List.append_assoc, List.take_append_drop, happend]
  have htake : (buffer.take (pos + 2)).length = line.length := by
    rw [List.length_take]
    omega
  exact List.append_inj hsplit htake

/-- `ReadLine` returns the first line, however it comes in. -/
theorem readLine_eq {buffer bytes line rest : Bytes} {outcomes : List ReadOutcome}
    (hdelivers : Delivers outcomes bytes) (hline : IsLine line)
    (happend : buffer ++ bytes = line ++ rest) :
    ∃ buffer' outcomes' bytes', readLine buffer outcomes = (.ok line, buffer', outcomes') ∧
      Delivers outcomes' bytes' ∧ buffer' ++ bytes' = rest := by
  -- by induction on what `read` delivers
  induction hdelivers generalizing buffer with
  | nil =>
    have hfind : find buffer 0 = some (line.length - 2) := by
      rw [find, List.drop_zero, show buffer = line ++ rest by simpa using happend,
        findCrlf_append hline.2]
      simp
    obtain ⟨htake, hdrop⟩ := take_of_find hline hfind happend
    exact ⟨_, _, [], by simp only [readLine, hfind, htake], .nil, hdrop⟩
  | @bytes outcomes bytes chunk hrest ih =>
    cases hfind : find buffer 0 with
    | some pos =>
      obtain ⟨htake, hdrop⟩ := take_of_find hline hfind happend
      exact ⟨_, _, _, by simp only [readLine, hfind, htake], .bytes chunk hrest, hdrop⟩
    | none =>
      -- the chunk goes to the buffer, and the search starts again
      rw [← List.append_assoc] at happend
      obtain ⟨buffer', outcomes', bytes', heq, hrest'⟩ := ih happend
      exact ⟨buffer', outcomes', bytes', by simp only [readLine, hfind, heq], hrest'⟩
  | @interrupted outcomes bytes hrest ih =>
    cases hfind : find buffer 0 with
    | some pos =>
      obtain ⟨htake, hdrop⟩ := take_of_find hline hfind happend
      exact ⟨_, _, _, by simp only [readLine, hfind, htake], .interrupted hrest, hdrop⟩
    | none =>
      obtain ⟨buffer', outcomes', bytes', heq, hrest'⟩ := ih happend
      exact ⟨buffer', outcomes', bytes', by simp only [readLine, hfind, heq], hrest'⟩

/-- The text up to the first line end is a line. -/
private theorem isLine_take_of_find {buffer : Bytes} {pos : Nat} (hfind : find buffer 0 = some pos) :
    IsLine (substr buffer 0 (pos + 2)) := by
  rw [find, List.drop_zero] at hfind
  have hfirst : findCrlf buffer = some pos := by simpa using hfind
  obtain ⟨text, rest, rfl, rfl⟩ := exists_of_findCrlf hfirst
  have htake : substr (text ++ (crlf ++ rest)) 0 (text.length + 2) = text ++ crlf := by
    rw [substr, List.drop_zero, ← List.append_assoc]
    exact List.take_left' (by simp [crlf])
  rw [htake, isLine_append_crlf]
  cases hearlier : findCrlf text with
  | none => rfl
  | some pos =>
    -- an earlier line end would be the first one
    obtain ⟨line, more, rfl, rfl⟩ := exists_of_findCrlf hearlier
    rw [findCrlf_append hearlier] at hfirst
    simp [crlf] at hfirst

/-- What `ReadLine` returns is a line. -/
theorem isLine_of_readLine {buffer buffer' line : Bytes} {outcomes outcomes' : List ReadOutcome}
    (h : readLine buffer outcomes = (.ok line, buffer', outcomes')) : IsLine line := by
  induction outcomes generalizing buffer with
  | nil =>
    rw [readLine] at h
    split at h
    · rename_i pos hfind
      cases h
      exact isLine_take_of_find hfind
    · cases h
  | cons outcome outcomes ih =>
    unfold readLine at h
    split at h
    · rename_i pos hfind
      cases h
      exact isLine_take_of_find hfind
    · cases outcome with
      | bytes chunk => exact ih h
      | interrupted => exact ih h
      | _ => cases h

/-- From the stream of some responses, the responses are read exactly if they are lines. -/
theorem readLines_eq_iff {buffer bytes : Bytes} {outcomes : List ReadOutcome}
    (hdelivers : Delivers outcomes bytes) {responses : List Bytes}
    (happend : buffer ++ bytes = responses.flatten) :
    readLines responses.length buffer outcomes = .ok responses ↔
      ∀ response ∈ responses, IsLine response := by
  -- by induction on the responses that are left
  induction responses generalizing buffer bytes outcomes with
  | nil => simp [readLines]
  | cons response responses ih =>
    rw [List.length_cons, readLines, List.forall_mem_cons]
    by_cases hline : IsLine response
    · obtain ⟨buffer', outcomes', bytes', hread, hdelivers', happend'⟩ :=
        readLine_eq hdelivers hline happend
      rw [and_iff_right hline, ← ih hdelivers' happend']
      simp only [hread]
      cases readLines responses.length buffer' outcomes' with
      | error error => simp [Except.map]
      | ok lines => simp [Except.map]
    · refine iff_of_false (fun hread => ?_) fun hall => hline hall.1
      -- the first line that is read is not the response
      split at hread
      · cases hread
      · rename_i line buffer' outcomes' hfirst
        cases hlines : readLines responses.length buffer' outcomes' with
        | error error =>
          rw [hlines] at hread
          cases hread
        | ok lines =>
          rw [hlines] at hread
          cases hread
          exact hline (isLine_of_readLine hfirst)

/-- So many calls of `ReadLine` return the responses, however these are cut into chunks. -/
def ReadsResponses (count : Nat) (responses : List Bytes) : Prop :=
  ∀ outcomes, Delivers outcomes responses.flatten → readLines count [] outcomes = .ok responses

/-- The client reads all responses exactly if each is one line. -/
theorem readsResponses_iff_isLine (responses : List Bytes) :
    ReadsResponses responses.length responses ↔ ∀ response ∈ responses, IsLine response := by
  refine ⟨fun hreads => ?_, fun hlines outcomes hdelivers =>
    (readLines_eq_iff hdelivers (List.nil_append _)).mpr hlines⟩
  -- all responses in one chunk
  have hdelivers : Delivers [.bytes responses.flatten] responses.flatten := by
    simpa using Delivers.bytes responses.flatten .nil
  exact (readLines_eq_iff hdelivers (List.nil_append _)).mp (hreads _ hdelivers)

/-- The client reads the responses to some requests, and these are lines, exactly if none of
    them quotes a key or a value with a line end. -/
theorem readsResponses_iff {σ : Type} {calls : StoreCalls σ} {store : σ}
    {requests : List (List Bytes)} {responses : List Bytes}
    (h : CommandProcessor.Answers calls store requests responses) :
    (ReadsResponses requests.length responses ↔
        CommandProcessor.AllQuotePlain calls store requests) ∧
      ((∀ response ∈ responses, IsLine response) ↔
        CommandProcessor.AllQuotePlain calls store requests) := by
  rw [← h.length_eq, readsResponses_iff_isLine, h.isLine_iff]
  exact ⟨Iff.rfl, Iff.rfl⟩

/-- A value is put into an empty store and read again. -/
private theorem answers_put_get {value : Bytes} (hvalue : value ≠ []) :
    CommandProcessor.Answers (KVStore.calls {}) KVStore.fresh
      [[ascii "PUT", ascii "k", value], [ascii "GET", ascii "k"]]
      [ascii "OK PUT\r\n", ascii "VALUE " ++ value ++ crlf] := by
  obtain ⟨disk, hwrite⟩ := KVStore.fresh.write_ok {} (.put (ascii "k") value)
  let stored : KVStore :=
    { KVStore.fresh with index := (KVStore.fresh.index.put (ascii "k") value).2, disk }
  have hnew : (KVStore.fresh.index.put (ascii "k") value).1 = true := by
    rw [Index.put_fst, show KVStore.fresh.index.get = fun _ => none from Index.get_new _]
    rfl
  have hput : (KVStore.calls {}).put KVStore.fresh (ascii "k") value = (stored, .ok true) := by
    rw [← hnew]
    exact hwrite
  have hget : (KVStore.calls {}).get stored (ascii "k") = some value := by
    show (KVStore.fresh.index.put (ascii "k") value).2.get (ascii "k") = _
    rw [Index.get_put, Function.update_self]
  refine .cons ?_ (.cons (CommandProcessor.execute_get hget) .nil)
  rw [CommandProcessor.execute_put (by decide) hvalue, hput]
  rfl

/-- The value `v` is read. -/
theorem readsResponses_iff_put_get :
    ∃ responses, CommandProcessor.Answers (KVStore.calls {}) KVStore.fresh
        [[ascii "PUT", ascii "k", ascii "v"], [ascii "GET", ascii "k"]] responses ∧
      (ReadsResponses 2 responses ↔ CommandProcessor.AllQuotePlain (KVStore.calls {})
        KVStore.fresh [[ascii "PUT", ascii "k", ascii "v"], [ascii "GET", ascii "k"]]) ∧
      ((∀ response ∈ responses, IsLine response) ↔
        CommandProcessor.AllQuotePlain (KVStore.calls {}) KVStore.fresh
          [[ascii "PUT", ascii "k", ascii "v"], [ascii "GET", ascii "k"]]) := by
  have hanswers := answers_put_get (show ascii "v" ≠ [] by decide)
  exact ⟨_, hanswers, readsResponses_iff hanswers⟩

/-- A value with a line end in it: two calls of `ReadLine` do not return the two responses. -/
theorem line_end_splits_response :
    ∃ responses, CommandProcessor.Answers (KVStore.calls {}) KVStore.fresh
        [[ascii "PUT", ascii "k", ascii "a\r\nb"], [ascii "GET", ascii "k"]] responses ∧
      ¬ ReadsResponses 2 responses ∧ ¬ ∀ response ∈ responses, IsLine response := by
  have hanswers := answers_put_get (show ascii "a\r\nb" ≠ [] by decide)
  refine ⟨_, hanswers, fun hreads => ?_, by decide⟩
  exact absurd ((readsResponses_iff_isLine _).mp hreads) (by decide)

end Client

end KvStore
