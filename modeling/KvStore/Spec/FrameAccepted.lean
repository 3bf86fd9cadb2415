import KvStore.Spec.Frame

/-!
# What the codec accepts

`TryExtractResp` reads lengths with `std::strtoul` and adds them up modulo 2^64, so it
accepts more than the grammar `Frame`: `LooseFrame` says what. `acceptsGrammar_iff` says for
which buffers the two agree: those whose length lines are digits that denote no more than
the buffer holds.
-/

namespace KvStore

/-- The bulk string that is read at a cursor: its length line, its token, and the cursor
    behind it. A length that wraps around can lead back to any line end of the buffer. -/
inductive LooseItem (buffer : Bytes) (cursor : Nat) : Bytes → Bytes → Nat → Prop where
  | mk {line data : Bytes} {size dataEnd : Nat}
      (text : buffer.drop cursor = '$'.toUInt8 :: line ++ (crlf ++ data))
      (first : findCrlf (buffer.drop cursor) = some (line.length + 1))
      (length : LengthText line size)
      (sum : dataEnd = (cursor + line.length + 3 + size) % sizeMod)
      (lineEnd : crlf <+: buffer.drop dataEnd) :
      LooseItem buffer cursor line (data.take size) (dataEnd + 2)

/-- The bulk strings that are read from a cursor on: their length lines, their tokens, and
    the cursor behind them. -/
inductive LooseItems (buffer : Bytes) : Nat → List Bytes → List Bytes → Nat → Prop where
  | nil (cursor : Nat) : LooseItems buffer cursor [] [] cursor
  | cons {cursor next stop : Nat} {line token : Bytes} {lines tokens : List Bytes}
      (item : LooseItem buffer cursor line token next)
      (items : LooseItems buffer next lines tokens stop) :
      LooseItems buffer cursor (line :: lines) (token :: tokens) stop

/-- The request that is read at the front of a buffer: its count line, the length lines and
    the tokens of its bulk strings, and the cursor behind it. -/
inductive LooseFrame (buffer : Bytes) : Bytes → List Bytes → List Bytes → Nat → Prop where
  | mk {line back : Bytes} {lines tokens : List Bytes} {stop : Nat}
      (text : buffer = '*'.toUInt8 :: line ++ (crlf ++ back))
      (first : findCrlf buffer = some (line.length + 1))
      (count : LengthText line tokens.length)
      (items : LooseItems buffer (line.length + 3) lines tokens stop) :
      LooseFrame buffer line lines tokens stop

/-- `TryExtractResp` returns requests of the grammar, and all of them. -/
def AcceptsGrammar (buffer : Bytes) : Prop :=
  ∀ tokens rest, tryExtractResp buffer = .ok (some (⟨tokens⟩, rest)) ↔
    ∃ text, Frame tokens text ∧ buffer = text ++ rest

/-- In a request that is read at the front of the buffer, the count line and the length
    lines are digits, and no length is greater than that of the buffer. -/
def PlainLengths (buffer : Bytes) : Prop :=
  ∀ line lines tokens stop, LooseFrame buffer line lines tokens stop →
    (∀ d ∈ line, isDecimalDigit d) ∧
      ∀ l ∈ lines, (∀ d ∈ l, isDecimalDigit d) ∧ ofDecimal l ≤ buffer.length

variable {buffer : Bytes}

/-- An item begins with its line. -/
theorem LooseItem.exists_data {cursor next : Nat} {line token : Bytes}
    (h : LooseItem buffer cursor line token next) :
    ∃ data, buffer.drop cursor = '$'.toUInt8 :: line ++ (crlf ++ data) ∧
      findCrlf (buffer.drop cursor) = some (line.length + 1) := by
  cases h with
  | mk hdrop hfirst => exact ⟨_, hdrop, hfirst⟩

/-- What is behind a length line. -/
private theorem drop_line {line data : Bytes} {cursor : Nat}
    (hdrop : buffer.drop cursor = '$'.toUInt8 :: line ++ (crlf ++ data)) :
    buffer.drop (cursor + line.length + 3) = data := by
  rw [Nat.add_assoc, ← List.drop_drop, hdrop]
  show (line ++ ([13, 10] ++ data)).drop (line.length + 2) = data
  rw [List.drop_length_add_append]
  rfl

/-- The token behind a length line. -/
private theorem substr_data {line data : Bytes} {cursor : Nat}
    (hdrop : buffer.drop cursor = '$'.toUInt8 :: line ++ (crlf ++ data)) (size : Nat) :
    substr buffer (cursor + line.length + 3) size = data.take size := by
  rw [substr, drop_line hdrop]

/-- A token is read exactly from an item. -/
theorem readToken_eq_some_iff (hlength : buffer.length < maxSize) {cursor next : Nat}
    {token : Bytes} : readToken buffer cursor = .ok (some (token, next)) ↔
      ∃ line, LooseItem buffer cursor line token next := by
  constructor
  · intro h
    obtain ⟨line, data, hdrop, hfirst⟩ := exists_line h
    rw [readToken_of_line hdrop hfirst] at h
    split at h
    · cases h
    · rename_i size hsize
      obtain ⟨hpre, rfl, rfl⟩ := (readData_eq_some_iff hlength).mp h
      rw [substr_data hdrop]
      exact ⟨line, .mk hdrop hfirst ((tryParseSize_eq_some_iff _ _).mp hsize) rfl hpre⟩
  · -- what the call reads is the item at the cursor
    rintro ⟨line, hitem⟩
    cases hitem with
    | @mk data size dataEnd hdrop hfirst hsize hsum hpre =>
      rw [readToken_of_line hdrop hfirst, (tryParseSize_eq_some_iff _ _).mpr hsize]
      apply (readData_eq_some_iff hlength).mpr
      rw [← hsum]
      exact ⟨hpre, (substr_data hdrop size).symm, rfl⟩

/-- Tokens are read exactly from as many items. -/
theorem readTokens_eq_some_iff (hlength : buffer.length < maxSize) {count cursor stop : Nat}
    {taken tokens : List Bytes} :
    readTokens buffer count cursor taken = .ok (some (tokens, stop)) ↔
      ∃ lines read, read.length = count ∧ LooseItems buffer cursor lines read stop ∧
        tokens = taken ++ read := by
  -- by induction on the number of tokens that are left
  induction count generalizing cursor taken with
  | zero =>
    constructor
    · intro h
      cases h
      exact ⟨[], [], rfl, .nil _, (List.append_nil _).symm⟩
    · rintro ⟨lines, read, hcount, hitems, rfl⟩
      obtain rfl := List.eq_nil_of_length_eq_zero hcount
      cases hitems
      simp [readTokens]
  | succ count ih =>
    rw [readTokens]
    constructor
    · intro h
      split at h
      · cases h
      · cases h
      · rename_i token next hread
        obtain ⟨line, hitem⟩ := (readToken_eq_some_iff hlength).mp hread
        obtain ⟨lines, read, hcount, hitems, rfl⟩ := ih.mp h
        exact ⟨line :: lines, token :: read, congrArg (· + 1) hcount, .cons hitem hitems,
          by simp⟩
    · rintro ⟨lines, read, hcount, hitems, rfl⟩
      cases hitems with
      | nil => cases hcount
      | @cons _ next _ line token lines read hitem hitems =>
        rw [(readToken_eq_some_iff hlength).mpr ⟨line, hitem⟩]
        exact ih.mpr ⟨lines, read, Nat.succ.inj hcount, hitems, by simp⟩

/-- The first line of a request that is taken. -/
private theorem exists_countLine {frame : DecodedRequest × Bytes}
    (h : tryExtractResp buffer = .ok (some frame)) :
    ∃ line back, buffer = '*'.toUInt8 :: line ++ (crlf ++ back) ∧
      findCrlf buffer = some (line.length + 1) := by
  unfold tryExtractResp tryExtractRespWith at h
  split at h
  · cases h
  · cases h
  rename_i tokens cursor hread
  unfold readRequest at hread
  split at hread
  · cases hread
  rename_i front rest
  split at hread
  · cases hread
  rename_i hstar
  split at hread
  · cases hread
  -- the line of the count has been found
  rename_i arrayLineEnd hfind
  obtain ⟨offset, hoffset, -⟩ := Option.map_eq_some_iff.mp hfind
  obtain ⟨line, back, hbuffer, rfl⟩ := exists_of_findCrlf hoffset
  rw [List.drop_zero] at hbuffer hoffset
  cases line with
  | nil =>
    -- the line end is not at the front, where the star is
    cases not_not.mp hstar
    cases (List.cons.inj hbuffer).1
  | cons first line =>
    obtain rfl : front = first := (List.cons.inj hbuffer).1
    exact ⟨line, back, not_not.mp hstar ▸ hbuffer, hoffset⟩

/-- A request is taken exactly from a frame. -/
theorem tryExtractResp_eq_some_iff (hlength : buffer.length < maxSize) {request : DecodedRequest}
    {rest : Bytes} : tryExtractResp buffer = .ok (some (request, rest)) ↔
      ∃ line lines stop, LooseFrame buffer line lines request.tokens stop ∧
        rest = buffer.drop stop := by
  constructor
  · intro h
    obtain ⟨line, back, hbuffer, hfirst⟩ := exists_countLine h
    unfold tryExtractResp tryExtractRespWith at h
    split at h
    · cases h
    · cases h
    rename_i tokens stop hread
    rw [readRequest_of_line hbuffer hfirst] at hread
    -- the count is that of the first line
    cases hcount : tryParseSize line with
    | none => simp [hcount] at hread
    | some count =>
      rw [hcount] at hread
      obtain ⟨lines, read, rfl, hitems, rfl⟩ := (readTokens_eq_some_iff hlength).mp hread
      cases h
      exact ⟨line, lines, stop,
        .mk hbuffer hfirst ((tryParseSize_eq_some_iff _ _).mp hcount) hitems, rfl⟩
  · rintro ⟨line, lines, stop, hframe, rfl⟩
    cases hframe with
    | mk hbuffer hfirst hcount hitems =>
      rw [tryExtractResp, tryExtractRespWith, readRequest_of_line hbuffer hfirst,
        (tryParseSize_eq_some_iff _ _).mpr hcount]
      simp only [Option.elim, (readTokens_eq_some_iff hlength).mpr ⟨lines, _, rfl, hitems, rfl⟩,
        List.nil_append]

/-- A text has only one first line. -/
private theorem line_unique {first : UInt8} {line line' rest rest' : Bytes}
    (htext : first :: line ++ rest = first :: line' ++ rest')
    (hlength : some (line.length + 1) = some (line'.length + 1)) : line = line' := by
  have hsame : line.length = line'.length := by simpa using hlength
  exact (List.append_inj (List.cons.inj htext).2 hsame).1

/-- The bulk strings of the grammar are read with their own length lines. -/
private theorem LooseItems.plain_of_items {tokens : List Bytes} {text : Bytes}
    (h : Items tokens text) (front back : Bytes)
    (hlength : (front ++ (text ++ back)).length < maxSize) {lines tokens' : List Bytes}
    {stop : Nat} (hitems : LooseItems (front ++ (text ++ back)) front.length lines tokens' stop)
    (hcount : tokens'.length = tokens.length) :
    ∀ l ∈ lines, (∀ d ∈ l, isDecimalDigit d) ∧ ofDecimal l ≤ (front ++ (text ++ back)).length := by
  -- by induction on the items of the grammar
  induction h generalizing front lines tokens' with
  | nil =>
    cases hitems with
    | nil => simp
    | cons => cases hcount
  | @cons digits token tokens text hdigits _ ih =>
    cases hitems with
    | nil => cases hcount
    | @cons _ next _ line token' lines tokens' hitem hitems =>
      rw [List.append_assoc] at hlength hitem hitems ⊢
      -- the round reads this bulk string, and ends behind it
      have hread := readToken_eq hdigits (text ++ back) hlength
      have hread' := (readToken_eq_some_iff hlength).mpr ⟨line, hitem⟩
      rw [hread, Except.ok.injEq, Option.some.injEq, Prod.mk.injEq] at hread'
      obtain ⟨rfl, rfl⟩ := hread'
      have hline : line = digits := by
        obtain ⟨data, hdrop, hfirst⟩ := hitem.exists_data
        have hcr : (13 : UInt8) ∉ '$'.toUInt8 :: digits := by
          rw [List.mem_cons, not_or]
          exact ⟨by decide, hdigits.not_mem_cr⟩
        rw [List.drop_left, bulkString_append] at hdrop hfirst
        rw [findCrlf_eq hcr] at hfirst
        exact line_unique hdrop.symm hfirst.symm
      subst hline
      rw [← List.append_assoc front] at hlength hitems ⊢
      intro l hl
      rcases List.mem_cons.mp hl with rfl | hl
      · refine ⟨hdigits.isDigit, ?_⟩
        rw [hdigits.value, List.length_append, List.length_append, length_bulkString]
        omega
      · exact ih (front ++ bulkString line token) hlength hitems (Nat.succ.inj hcount) l hl

/-- Bulk strings with plain length lines are those of the grammar. -/
private theorem LooseItems.items_of_plain (hlength : buffer.length < maxSize) {cursor stop : Nat}
    {lines tokens : List Bytes} (h : LooseItems buffer cursor lines tokens stop)
    (hplain : ∀ l ∈ lines, (∀ d ∈ l, isDecimalDigit d) ∧ ofDecimal l ≤ buffer.length) :
    ∃ text, Items tokens text ∧ buffer.drop cursor = text ++ buffer.drop stop := by
  -- by induction on the rounds of the loop
  induction h with
  | nil cursor => exact ⟨[], .nil, rfl⟩
  | @cons cursor next stop line token lines tokens hitem _ ih =>
    obtain ⟨text, hitems, htext⟩ := ih fun l hl => hplain l (List.mem_cons_of_mem _ hl)
    obtain ⟨hdigits, hvalue⟩ := hplain line List.mem_cons_self
    cases hitem with
    | @mk data size dataEnd hdrop hfirst hsize hsum hpre =>
      have hdenotes := hsize.denotes hdigits
      have hcount := congrArg List.length hdrop
      have hcrlf : crlf.length = 2 := rfl
      simp only [List.length_drop, List.length_append, List.length_cons] at hcount
      rw [hdenotes.value] at hvalue
      -- a length that is no greater than the buffer does not wrap around
      have hend : dataEnd = cursor + line.length + 3 + size := by
        rw [hsum]
        unfold maxSize at hlength
        exact Nat.mod_eq_of_lt (by unfold sizeMod; omega)
      obtain ⟨more, hmore⟩ := hpre
      have hdata : data.drop size = crlf ++ more := by
        rw [hmore, hend, ← List.drop_drop, drop_line hdrop]
      have hnext : buffer.drop (dataEnd + 2) = more := by
        rw [← List.drop_drop, ← hmore]
        rfl
      -- the data holds as many bytes as the length says
      have hlong : size ≤ data.length := by
        have := congrArg List.length hdata
        simp only [List.length_drop, List.length_append] at this
        omega
      refine ⟨bulkString line (data.take size) ++ text, .cons ?_ hitems, ?_⟩
      · rw [List.length_take, Nat.min_eq_left hlong]
        exact hdenotes
      · rw [hdrop, List.append_assoc, ← htext, hnext, bulkString_append, ← hdata,
          List.take_append_drop]

/-- The codec accepts exactly its grammar, up to the buffers with other length lines. -/
theorem acceptsGrammar_iff (hlength : buffer.length < maxSize) :
    AcceptsGrammar buffer ↔ PlainLengths buffer := by
  constructor
  · intro haccepts line lines tokens stop hloose
    have htaken := (@tryExtractResp_eq_some_iff buffer hlength ⟨tokens⟩ _).mpr
      ⟨line, lines, stop, hloose, rfl⟩
    obtain ⟨text, hframe, hbuffer⟩ := (haccepts tokens _).mp htaken
    cases hframe with
    | @mk digits _ items hdigits hitems =>
      cases hloose with
      | @mk back _ _ _ htext hfirst hcount hloose =>
        -- the first line of the text, and the bulk strings behind it
        have hcr : (13 : UInt8) ∉ '*'.toUInt8 :: digits := by
          rw [List.mem_cons, not_or]
          exact ⟨by decide, hdigits.not_mem_cr⟩
        have htext' : buffer = '*'.toUInt8 :: digits ++ (crlf ++ (items ++ buffer.drop stop)) := by
          rw [← List.append_assoc, ← List.append_assoc]
          exact hbuffer
        have hline : line = digits := by
          rw [htext', findCrlf_eq hcr] at hfirst
          exact line_unique (htext.symm.trans htext') hfirst.symm
        subst hline
        refine ⟨hdigits.isDigit, ?_⟩
        have hfront : buffer = '*'.toUInt8 :: line ++ crlf ++ (items ++ buffer.drop stop) := by
          rw [List.append_assoc]
          exact htext'
        have hcursor : line.length + 3 = ('*'.toUInt8 :: line ++ crlf).length := by simp [crlf]
        rw [hcursor] at hloose
        generalize buffer.drop stop = back' at hfront
        subst hfront
        exact hloose.plain_of_items hitems _ back' hlength rfl
  · -- with plain lengths the rounds spell a frame of the grammar
    intro hplain tokens rest
    constructor
    · intro h
      obtain ⟨line, lines, stop, hloose, rfl⟩ := (tryExtractResp_eq_some_iff hlength).mp h
      obtain ⟨hline, hlines⟩ := hplain line lines tokens stop hloose
      cases hloose with
      | @mk back _ _ _ htext hfirst hcount hloose =>
        obtain ⟨text, hitems, hback⟩ := hloose.items_of_plain hlength hlines
        refine ⟨_, .mk (hcount.denotes hline) hitems, ?_⟩
        have hdrop : buffer.drop (line.length + 3) = back := by
          rw [htext]
          show (line ++ ([13, 10] ++ back)).drop (line.length + 2) = back
          rw [List.drop_length_add_append]
          rfl
        rw [List.append_assoc, ← hback, hdrop, List.append_assoc]
        exact htext
    · rintro ⟨text, hframe, rfl⟩
      exact hframe.tryExtractRespWith_eq rfl rest hlength

/-- A `PING` with a plus in front of the count: the codec takes it, the grammar does not. -/
def plusPing : Bytes := '*'.toUInt8 :: '+'.toUInt8 :: (encodeResp [[80, 73, 78, 71]]).drop 1

/-- A length that wraps around to the first line end: the codec takes an empty token. -/
def wrappedToken : Bytes :=
  '*'.toUInt8 :: toDecimal 1 ++ crlf ++ '$'.toUInt8 :: toDecimal (sizeMod - 25) ++ crlf

theorem acceptsGrammar_iff_plusPing : AcceptsGrammar plusPing ↔ PlainLengths plusPing :=
  acceptsGrammar_iff (by decide)

/-- What the codec makes of the two buffers, and that neither is a frame. -/
theorem not_acceptsGrammar :
    tryExtractResp plusPing = .ok (some (⟨[[80, 73, 78, 71]]⟩, [])) ∧
      ¬ AcceptsGrammar plusPing ∧
      tryExtractResp wrappedToken = .ok (some (⟨[[]]⟩, wrappedToken.drop 4)) ∧
      ¬ AcceptsGrammar wrappedToken := by
  have hplus : tryExtractResp plusPing = .ok (some (⟨[[80, 73, 78, 71]]⟩, [])) := by decide
  have hwrapped : tryExtractResp wrappedToken = .ok (some (⟨[[]]⟩, wrappedToken.drop 4)) := by
    decide
  refine ⟨hplus, fun h => ?_, hwrapped, fun h => ?_⟩
  · obtain ⟨text, hframe, htext⟩ := (h _ _).mp hplus
    cases hframe with
    | @mk digits _ items hdigits hitems =>
      -- the count would start with the plus
      obtain ⟨first, rest, hfirst⟩ := List.exists_cons_of_ne_nil hdigits.ne_nil
      have hsecond := congrArg (fun text : Bytes => text.getD 1 0) htext
      rw [hfirst] at hsecond
      obtain rfl : '+'.toUInt8 = first := hsecond
      cases hdigits.isDigit _ (hfirst ▸ List.mem_cons_self)
  · obtain ⟨text, hframe, htext⟩ := (h _ _).mp hwrapped
    have hlength := congrArg List.length htext
    have hwhole : wrappedToken.length = 27 := by decide
    rw [List.length_append, List.length_drop, hwhole] at hlength
    cases hframe with
    | @mk digits _ items hdigits hitems =>
      -- four bytes are left for a count line and a bulk string
      have hitem : 1 ≤ items.length := hitems.length_le
      have hcount := List.length_pos_iff.mpr hdigits.ne_nil
      have hcrlf : crlf.length = 2 := rfl
      simp only [List.length_append, List.length_cons] at hlength
      omega

end KvStore
