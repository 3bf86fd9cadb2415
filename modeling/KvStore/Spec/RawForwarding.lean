import KvStore.Native.RawClient
import KvStore.Spec.ParseSize

/-!
# What the raw client forwards

A frame is forwarded as it is typed exactly if none of its lines is empty or a dot
(`forward_frame_iff`): empty lines are skipped. No line of an encoded request is either, as
long as its tokens hold no line end (`forward_requests`).
-/

namespace KvStore

namespace RawClient

/-! ## Lines -/

/-- Lines with their ends. -/
def unlines (lines : List Bytes) : Bytes := lines.flatMap (· ++ [newline])

@[simp] theorem unlines_nil : unlines [] = [] := rfl

@[simp] theorem unlines_cons (line : Bytes) (lines : List Bytes) :
    unlines (line :: lines) = line ++ newline :: unlines lines := by
  simp [unlines]

@[simp] theorem unlines_append (lines lines' : List Bytes) :
    unlines (lines ++ lines') = unlines lines ++ unlines lines' := by
  simp [unlines]

variable {lines : List Bytes}

/-- Lines are read as they were written. -/
theorem splitOn_unlines (h : ∀ line ∈ lines, newline ∉ line) :
    (unlines lines).splitOn newline = lines ++ [[]] := by
  induction lines with
  | nil => exact List.splitOn_nil newline
  | cons line lines ih =>
    rw [unlines_cons, List.splitOn_append_cons_self_of_not_mem (h line List.mem_cons_self),
      ih fun line hline => h line (List.mem_cons_of_mem _ hline), List.cons_append]

/-- The lines are read back. -/
theorem getlines_unlines (h : ∀ line ∈ lines, newline ∉ line) :
    getlines (unlines lines) = lines := by
  simp only [getlines, splitOn_unlines h, List.getLast?_concat, if_true, List.dropLast_concat]

/-- A text with a line end behind it is made of lines. -/
theorem exists_unlines (text : Bytes) :
    ∃ line lines, text ++ [newline] = unlines (line :: lines) ∧
      ∀ line' ∈ line :: lines, newline ∉ line' := by
  -- by induction on the text: a line feed starts another line
  induction text with
  | nil => exact ⟨[], [], rfl, by simp⟩
  | cons byte text ih =>
    obtain ⟨line, lines, heq, hlines⟩ := ih
    by_cases hbyte : byte = newline
    · refine ⟨[], line :: lines, ?_, ?_⟩
      · rw [List.cons_append, heq, hbyte]
        simp
      · rw [List.forall_mem_cons]
        exact ⟨List.not_mem_nil, hlines⟩
    · refine ⟨byte :: line, lines, ?_, ?_⟩
      · rw [List.cons_append, heq]
        simp
      · rw [List.forall_mem_cons] at hlines ⊢
        exact ⟨List.not_mem_cons_of_ne_of_not_mem (Ne.symm hbyte) hlines.1, hlines.2⟩

/-! ## Forwarding -/

theorem forwardLine_nil (rawBuffer : Bytes) : forwardLine rawBuffer [] = (rawBuffer, none) :=
  rfl

/-- The two characters of the dot are taken off again. -/
theorem forwardLine_dot (rawBuffer : Bytes) :
    forwardLine rawBuffer (ascii ".") = ([], some rawBuffer) := by
  have hdot : ascii "." ≠ [] := by decide
  have hsplit : rawBuffer ++ ascii "." ++ [newline] = rawBuffer ++ [46, 10] :=
    List.append_assoc _ _ _
  simp only [forwardLine, if_neg hdot, if_true, hsplit]
  rw [List.take_left' (by simp)]

/-- A line that is neither empty nor a dot is collected. -/
theorem forwardLine_of_ne {line : Bytes} (hempty : line ≠ []) (hdot : line ≠ ascii ".")
    (rawBuffer : Bytes) :
    forwardLine rawBuffer line = (rawBuffer ++ line ++ [newline], none) := by
  simp only [forwardLine, if_neg hempty, if_neg hdot]

/-- Lines up to a dot are written when it comes, without the empty ones. -/
theorem forwardLines_dot (hdot : ascii "." ∉ lines) (rawBuffer : Bytes) (rest : List Bytes) :
    forwardLines rawBuffer (lines ++ ascii "." :: rest) =
      (rawBuffer ++ unlines (lines.filter (· ≠ []))) :: forwardLines [] rest := by
  induction lines generalizing rawBuffer with
  | nil =>
    rw [List.nil_append, forwardLines, forwardLine_dot]
    simp only [List.filter_nil, unlines_nil, List.append_nil]
  | cons line lines ih =>
    obtain ⟨hne, hrest⟩ := not_or.mp (mt List.mem_cons.mpr hdot)
    rw [List.cons_append, forwardLines]
    by_cases hempty : line = []
    · rw [hempty, forwardLine_nil, List.filter_cons_of_neg (by simp)]
      exact ih hrest rawBuffer
    · rw [forwardLine_of_ne hempty (Ne.symm hne), List.filter_cons_of_pos (by simpa using hempty)]
      simp only [ih hrest, unlines_cons, List.append_assoc, List.singleton_append]

/-- Something is written where a dot comes. -/
theorem forwardLines_ne_nil (hdot : ascii "." ∈ lines) (rawBuffer : Bytes) :
    forwardLines rawBuffer lines ≠ [] := by
  obtain ⟨front, rest, rfl, hfront⟩ := List.eq_append_cons_of_mem hdot
  rw [forwardLines_dot hfront]
  exact List.cons_ne_nil _ _

/-- No line is skipped where none is empty. -/
theorem filter_ne_nil (h : [] ∉ lines) : lines.filter (· ≠ []) = lines :=
  List.filter_eq_self.mpr fun line hline => by
    have hne : line ≠ [] := fun heq => h (heq ▸ hline)
    simpa using hne

/-- Every empty line is one byte that is not written. -/
theorem length_unlines_filter (lines : List Bytes) :
    (unlines (lines.filter (· ≠ []))).length + lines.count [] = (unlines lines).length := by
  induction lines with
  | nil => rfl
  | cons line lines ih =>
    by_cases hempty : line = []
    · rw [hempty, List.filter_cons_of_neg (by simp), List.count_cons_self, unlines_cons,
        List.nil_append, List.length_cons]
      omega
    · rw [List.filter_cons_of_pos (by simpa using hempty), List.count_cons_of_ne hempty,
        unlines_cons, unlines_cons, List.length_append, List.length_append, List.length_cons,
        List.length_cons]
      omega

/-- A frame and the dot behind it, line by line. -/
theorem unlines_dot (lines : List Bytes) :
    unlines lines ++ ascii ".\n" = unlines (lines ++ [ascii "."]) := by
  rw [unlines_append, unlines_cons, unlines_nil]
  rfl

/-- One frame with a dot behind it. -/
theorem forward_unlines_iff (h : ∀ line ∈ lines, newline ∉ line) :
    forward (unlines lines ++ ascii ".\n") = [unlines lines] ↔
      [] ∉ lines ∧ ascii "." ∉ lines := by
  have hdot : ∀ line ∈ lines ++ [ascii "."], newline ∉ line := by
    intro line hline
    rcases List.mem_append.mp hline with hmem | hlast
    · exact h line hmem
    · rw [List.mem_singleton.mp hlast]
      decide
  rw [unlines_dot, forward, getlines_unlines hdot]
  constructor
  · intro hforward
    have hnot : ascii "." ∉ lines := fun hmem => by
      -- the first dot is written, and the last one too
      obtain ⟨front, rest, rfl, hfront⟩ := List.eq_append_cons_of_mem hmem
      rw [List.append_assoc, List.cons_append, forwardLines_dot hfront] at hforward
      exact forwardLines_ne_nil (List.mem_append_right rest List.mem_cons_self) []
        (List.cons.inj hforward).2
    refine ⟨fun hmem => ?_, hnot⟩
    rw [forwardLines_dot hnot, List.nil_append] at hforward
    have hlength := length_unlines_filter lines
    rw [(List.cons.inj hforward).1] at hlength
    have hcount := List.count_pos_iff.mpr hmem
    omega
  · rintro ⟨hempty, hnot⟩
    rw [forwardLines_dot hnot, filter_ne_nil hempty, List.nil_append]
    rfl

/-- A frame that ends with a line end is written as it is exactly if it has no empty line and no
    line that is a dot. -/
theorem forward_frame_iff {frame : Bytes} (h : frame.getLast? = some newline) :
    forward (frame ++ ascii ".\n") = [frame] ↔
      [] ∉ getlines frame ∧ ascii "." ∉ getlines frame := by
  obtain ⟨text, rfl⟩ := List.getLast?_eq_some_iff.mp h
  obtain ⟨line, lines, heq, hlines⟩ := exists_unlines text
  rw [heq, getlines_unlines hlines]
  exact forward_unlines_iff hlines

/-! ## Requests -/

/-- The lines of a request. -/
def respLines (tokens : List Bytes) : List Bytes :=
  ('*'.toUInt8 :: toDecimal tokens.length ++ [13]) ::
    tokens.flatMap fun token => ['$'.toUInt8 :: toDecimal token.length ++ [13], token ++ [13]]

/-- An encoded request consists of these lines. -/
theorem unlines_respLines (tokens : List Bytes) :
    unlines (respLines tokens) = encodeResp tokens := by
  have htokens : unlines (tokens.flatMap fun token =>
      ['$'.toUInt8 :: toDecimal token.length ++ [13], token ++ [13]]) =
        tokens.flatMap encodeToken := by
    induction tokens with
    | nil => rfl
    | cons token tokens ih =>
      rw [List.flatMap_cons, unlines_append, ih, List.flatMap_cons]
      simp [encodeToken, crlf, newline]
  rw [respLines, unlines_cons, htokens]
  simp [encodeResp, crlf, newline]

/-- A line of a request ends with a carriage return, and holds a line end only if a token
    does. -/
theorem exists_of_mem_respLines {tokens : List Bytes} {line : Bytes}
    (h : line ∈ respLines tokens) :
    ∃ text, line = text ++ [13] ∧ (newline ∈ text → ∃ token ∈ tokens, newline ∈ token) := by
  have hdigits (first : UInt8) (hfirst : first ≠ newline) (n : Nat) :
      newline ∉ first :: toDecimal n :=
    List.not_mem_cons_of_ne_of_not_mem (Ne.symm hfirst) fun hmem =>
      ne_of_isDecimalDigit (isDecimalDigit_of_mem_toDecimal hmem)
        (show newline.toNat < 48 by decide) rfl
  rcases List.mem_cons.mp h with rfl | hmem
  · exact ⟨_, rfl, fun hmem => absurd hmem (hdigits _ (by decide) _)⟩
  · obtain ⟨token, htoken, hline⟩ := List.mem_flatMap.mp hmem
    rcases List.mem_cons.mp hline with rfl | hline
    · exact ⟨_, rfl, fun hmem => absurd hmem (hdigits _ (by decide) _)⟩
    · obtain rfl := List.mem_singleton.mp hline
      exact ⟨token, rfl, fun hmem => ⟨token, htoken, hmem⟩⟩

/-- No line of an encoded request is empty or a dot. -/
theorem not_mem_respLines (tokens : List Bytes) :
    [] ∉ respLines tokens ∧ ascii "." ∉ respLines tokens := by
  refine ⟨fun hmem => ?_, fun hmem => ?_⟩
  · obtain ⟨text, heq, -⟩ := exists_of_mem_respLines hmem
    exact List.append_ne_nil_of_right_ne_nil text (List.cons_ne_nil 13 []) heq.symm
  · obtain ⟨text, heq, -⟩ := exists_of_mem_respLines hmem
    have hlast := congrArg List.getLast? heq
    rw [List.getLast?_concat] at hlast
    exact absurd hlast (by decide)

/-- No token breaks its line. -/
theorem newline_not_mem_respLines {tokens : List Bytes}
    (h : ∀ token ∈ tokens, newline ∉ token) : ∀ line ∈ respLines tokens, newline ∉ line := by
  intro line hline hmem
  obtain ⟨text, rfl, htext⟩ := exists_of_mem_respLines hline
  rcases List.mem_append.mp hmem with hmem | hlast
  · obtain ⟨token, htoken, hnewline⟩ := htext hmem
    exact h token htoken hnewline
  · exact absurd hlast (by decide)

/-- Requests with dots behind them. -/
theorem forwardLines_requests (requests : List (List Bytes)) :
    forwardLines [] (requests.flatMap fun tokens => respLines tokens ++ [ascii "."]) =
      requests.map encodeResp := by
  induction requests with
  | nil => rfl
  | cons tokens requests ih =>
    obtain ⟨hempty, hdot⟩ := not_mem_respLines tokens
    rw [List.flatMap_cons, List.append_assoc, List.singleton_append, forwardLines_dot hdot,
      filter_ne_nil hempty, ih, List.nil_append, unlines_respLines, List.map_cons]

/-- Encoded requests are forwarded one by one as they are, as long as no token holds a line end.
    In general a frame is forwarded as it is exactly if it has no empty line and no line that is
    a dot: the client skips empty lines. -/
theorem raw_forwards {requests : List (List Bytes)}
    (h : ∀ tokens ∈ requests, ∀ token ∈ tokens, newline ∉ token) :
    forward (requests.flatMap fun tokens => encodeResp tokens ++ ascii ".\n") =
        requests.map encodeResp ∧
      ∀ frame : Bytes, frame.getLast? = some newline →
        (forward (frame ++ ascii ".\n") = [frame] ↔
          [] ∉ getlines frame ∧ ascii "." ∉ getlines frame) := by
  refine ⟨?_, fun frame => forward_frame_iff⟩
  have hinput : (requests.flatMap fun tokens => encodeResp tokens ++ ascii ".\n") =
      unlines (requests.flatMap fun tokens => respLines tokens ++ [ascii "."]) := by
    clear h
    induction requests with
    | nil => rfl
    | cons tokens requests ih =>
      rw [List.flatMap_cons, List.flatMap_cons, unlines_append, ih, ← unlines_dot,
        unlines_respLines]
  -- no line holds a line feed
  have hlines : ∀ line ∈ requests.flatMap fun tokens => respLines tokens ++ [ascii "."],
      newline ∉ line := by
    intro line hline
    obtain ⟨tokens, htokens, hmem⟩ := List.mem_flatMap.mp hline
    rcases List.mem_append.mp hmem with hmem | hlast
    · exact newline_not_mem_respLines (h tokens htokens) line hmem
    · rw [List.mem_singleton.mp hlast]
      decide
  rw [forward, hinput, getlines_unlines hlines, forwardLines_requests]

/-- `PING` and a `PUT` of an empty value. -/
theorem raw_forwards_put :
    forward (([[ascii "PING"], [ascii "PUT", ascii "k", []]] : List (List Bytes)).flatMap
        fun tokens => encodeResp tokens ++ ascii ".\n") =
      [encodeResp [ascii "PING"], encodeResp [ascii "PUT", ascii "k", []]] :=
  (@raw_forwards [[ascii "PING"], [ascii "PUT", ascii "k", []]] (by decide)).1

/-- A value with an empty line in it does not arrive. -/
example : forward (encodeResp [[97, 10, 10, 98]] ++ ascii ".\n") ≠
    [encodeResp [[97, 10, 10, 98]]] := by
  decide

end RawClient

end KvStore
