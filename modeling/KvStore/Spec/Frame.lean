import KvStore.Spec.ParseSize

/-!
# The frames of the protocol

`Frame` is the grammar of a request: an array of bulk strings whose lengths are decimal
numbers. `TryExtractResp` takes such a frame off the front of a buffer
(`Frame.tryExtractResp_eq`), and more bytes behind a buffer do not change what it makes of
it (`tryExtractResp_append`).
-/

namespace KvStore

/-- A bulk string behind its length. -/
def bulkString (digits token : Bytes) : Bytes :=
  '$'.toUInt8 :: digits ++ crlf ++ token ++ crlf

/-- Bulk strings, one behind the other. -/
inductive Items : List Bytes → Bytes → Prop where
  | nil : Items [] []
  | cons {digits token : Bytes} {tokens : List Bytes} {text : Bytes}
      (length : Denotes digits token.length) (items : Items tokens text) :
      Items (token :: tokens) (bulkString digits token ++ text)

/-- The text of a request with these tokens. -/
inductive Frame : List Bytes → Bytes → Prop where
  | mk {digits : Bytes} {tokens : List Bytes} {text : Bytes}
      (count : Denotes digits tokens.length) (items : Items tokens text) :
      Frame tokens ('*'.toUInt8 :: digits ++ crlf ++ text)

/-! ## Positions in a text -/

/-- A part of a text that is given with what surrounds it. -/
theorem substr_eq (front back : Bytes) {text middle : Bytes} {pos count : Nat}
    (htext : text = front ++ (middle ++ back)) (hpos : pos = front.length)
    (hcount : count = middle.length) : substr text pos count = middle := by
  rw [substr, htext, hpos, hcount, List.drop_left, List.take_left]

/-- A part of a text is also one of what continues it. -/
theorem substr_append {text : Bytes} {pos count : Nat} (h : pos + count ≤ text.length)
    (more : Bytes) : substr (text ++ more) pos count = substr text pos count := by
  rw [substr, substr, List.drop_append_of_le_length (by omega),
    List.take_append_of_le_length (by rw [List.length_drop]; omega)]

/-- The line end behind a line without a carriage return. -/
theorem findCrlf_eq {line : Bytes} (hline : (13 : UInt8) ∉ line) (text : Bytes) :
    findCrlf (line ++ (crlf ++ text)) = some line.length := by
  induction line with
  | nil => exact if_pos (List.prefix_append _ _)
  | cons ch line ih =>
    have hch : ¬ crlf <+: ch :: (line ++ (crlf ++ text)) := by
      rintro ⟨rest, hrest⟩
      exact hline (List.mem_cons.mpr (.inl (List.cons.inj hrest).1))
    rw [List.cons_append, findCrlf, if_neg hch, ih fun hmem => hline (List.mem_cons_of_mem _ hmem)]
    rfl

/-- A line end stays the first one when bytes follow. -/
theorem findCrlf_append {text : Bytes} {pos : Nat} (h : findCrlf text = some pos) (more : Bytes) :
    findCrlf (text ++ more) = some pos := by
  induction text generalizing pos with
  | nil => cases h
  | cons ch text ih =>
    rw [findCrlf] at h
    rw [List.cons_append, findCrlf]
    split at h
    · rename_i hhere
      have hhere' : crlf <+: ch :: (text ++ more) := hhere.trans (List.prefix_append _ _)
      rw [if_pos hhere']
      exact h
    · rename_i hhere
      obtain ⟨pos', hpos', rfl⟩ := Option.map_eq_some_iff.mp h
      have hhere' : ¬ crlf <+: ch :: (text ++ more) := by
        -- the two bytes that decide are already there
        cases text with
        | nil => cases hpos'
        | cons next text => simpa [crlf] using hhere
      rw [if_neg hhere', ih hpos']
      rfl

/-- A line end, and the text before it and behind it. -/
theorem exists_of_findCrlf {text : Bytes} {pos : Nat} (h : findCrlf text = some pos) :
    ∃ line rest, text = line ++ (crlf ++ rest) ∧ line.length = pos := by
  induction text generalizing pos with
  | nil => cases h
  | cons ch text ih =>
    rw [findCrlf] at h
    split at h
    · rename_i hhere
      obtain ⟨rest, hrest⟩ := hhere
      cases h
      exact ⟨[], rest, hrest.symm, rfl⟩
    · obtain ⟨pos', hpos', rfl⟩ := Option.map_eq_some_iff.mp h
      obtain ⟨line, rest, rfl, rfl⟩ := ih hpos'
      exact ⟨ch :: line, rest, rfl, rfl⟩

/-- What is found in a text is found in what continues it. -/
theorem find_append {text : Bytes} {pos found : Nat} (h : find text pos = some found)
    (hpos : pos ≤ text.length) (more : Bytes) : find (text ++ more) pos = some found := by
  obtain ⟨offset, hoffset, rfl⟩ := Option.map_eq_some_iff.mp h
  rw [find, List.drop_append_of_le_length hpos, findCrlf_append hoffset]
  rfl

/-- What is found lies behind the position, within the text. -/
theorem find_le {text : Bytes} {pos found : Nat} (h : find text pos = some found) :
    pos ≤ found ∧ found + 2 ≤ text.length := by
  obtain ⟨offset, hoffset, rfl⟩ := Option.map_eq_some_iff.mp h
  obtain ⟨line, rest, hdrop, rfl⟩ := exists_of_findCrlf hoffset
  have hlength := congrArg List.length hdrop
  simp only [List.length_drop, List.length_append, crlf, List.length_cons, List.length_nil]
    at hlength
  omega

/-- There is no carriage return in a length. -/
theorem Denotes.not_mem_cr {digits : Bytes} {n : Nat} (h : Denotes digits n) :
    (13 : UInt8) ∉ digits := by
  intro hmem
  cases h.isDigit 13 hmem

/-! ## Whole frames -/

/-- A bulk string, piece by piece. -/
theorem bulkString_append (digits token back : Bytes) : bulkString digits token ++ back =
    '$'.toUInt8 :: digits ++ (crlf ++ (token ++ (crlf ++ back))) := by
  simp [bulkString]

/-- The bytes of a bulk string besides its digits and its token. -/
theorem length_bulkString (digits token : Bytes) :
    (bulkString digits token).length = digits.length + token.length + 5 := by
  simp only [bulkString, crlf, List.length_append, List.length_cons, List.length_nil]
  omega

/-- The round for a line at the cursor. -/
theorem readToken_of_line {buffer line data : Bytes} {cursor : Nat}
    (hdrop : buffer.drop cursor = '$'.toUInt8 :: line ++ (crlf ++ data))
    (hfirst : findCrlf (buffer.drop cursor) = some (line.length + 1)) :
    readToken buffer cursor =
      match tryParseSize line with
      | none => .error "invalid RESP bulk string length"
      | some tokenSize => readData buffer (cursor + line.length + 3) tokenSize := by
  -- the cursor is at the dollar
  have hcursor : ¬ buffer.length ≤ cursor := by
    intro hle
    rw [List.drop_eq_nil_of_le hle] at hdrop
    cases hdrop
  have hdollar : ¬ buffer.getD cursor 0 ≠ '$'.toUInt8 := by
    have hhead := congrArg List.head? hdrop
    rw [List.head?_drop] at hhead
    simp [List.getD_eq_getElem?_getD, hhead]
  have hfind : find buffer cursor = some (cursor + (line.length + 1)) := by
    rw [find, hfirst]
    rfl
  -- the line stands between the dollar and the line end
  have hline : substr buffer (cursor + 1) (cursor + (line.length + 1) - cursor - 1) = line := by
    refine substr_eq (buffer.take cursor ++ ['$'.toUInt8]) (crlf ++ data) ?_ ?_ (by omega)
    · rw [List.append_assoc]
      show buffer = buffer.take cursor ++ ('$'.toUInt8 :: line ++ (crlf ++ data))
      rw [← hdrop, List.take_append_drop]
    · rw [List.length_append, List.length_take, List.length_singleton]
      omega
  rw [readToken, if_neg hcursor, if_neg hdollar, hfind]
  simp only [hline]
  rfl

/-- When the data and the line end behind it are there. -/
theorem readData_eq_some_iff {buffer token : Bytes} {dataBegin tokenSize next : Nat}
    (hlength : buffer.length < maxSize) :
    readData buffer dataBegin tokenSize = .ok (some (token, next)) ↔
      crlf <+: buffer.drop ((dataBegin + tokenSize) % sizeMod) ∧
        token = substr buffer dataBegin tokenSize ∧
        next = (dataBegin + tokenSize) % sizeMod + 2 := by
  unfold readData maxSize at *
  generalize (dataBegin + tokenSize) % sizeMod = dataEnd
  unfold sizeMod
  have hcrlf : substr buffer dataEnd 2 = crlf ↔ crlf <+: buffer.drop dataEnd :=
    eq_comm.trans List.prefix_iff_eq_take.symm
  constructor
  · intro h
    simp only at h
    -- the three checks of the code have passed
    split at h
    · cases h
    split at h
    · cases h
    split at h
    · cases h
    rename_i hrange hterminator
    cases h
    exact ⟨hcrlf.mp (not_not.mp hterminator), rfl, by omega⟩
  · rintro ⟨hpre, rfl, rfl⟩
    have hle := hpre.length_le
    rw [List.length_drop] at hle
    -- behind the terminator the cursor is in the buffer, so that the last sum does not wrap
    have hend : dataEnd + 2 ≤ buffer.length := by
      have : crlf.length = 2 := rfl
      omega
    have hterminator : ¬ substr buffer dataEnd 2 ≠ crlf := not_not.mpr (hcrlf.mpr hpre)
    have hnext : (dataEnd + 2) % 2 ^ 64 = dataEnd + 2 := Nat.mod_eq_of_lt (by omega)
    simp only [hnext, if_neg (Nat.not_lt.mpr hend), if_neg hterminator]
    rw [if_neg (by omega)]

/-- The bulk string at the cursor is read. -/
theorem readToken_eq {front digits token : Bytes} (hdigits : Denotes digits token.length)
    (back : Bytes) (hlength : (front ++ (bulkString digits token ++ back)).length < maxSize) :
    readToken (front ++ (bulkString digits token ++ back)) front.length =
      .ok (some (token, (front ++ bulkString digits token).length)) := by
  have hdrop : (front ++ (bulkString digits token ++ back)).drop front.length =
      '$'.toUInt8 :: digits ++ (crlf ++ (token ++ (crlf ++ back))) := by
    rw [List.drop_left, bulkString_append]
  have hline : (13 : UInt8) ∉ '$'.toUInt8 :: digits := by
    rw [List.mem_cons, not_or]
    exact ⟨by decide, hdigits.not_mem_cr⟩
  have hsize : (front ++ bulkString digits token).length =
      front.length + digits.length + 3 + token.length + 2 := by
    rw [List.length_append, length_bulkString]
    omega
  have hlength' := hlength
  rw [← List.append_assoc, List.length_append, hsize, maxSize] at hlength'
  -- the sum does not wrap around
  have hmod : (front.length + digits.length + 3 + token.length) % sizeMod =
      front.length + digits.length + 3 + token.length :=
    Nat.mod_eq_of_lt (by unfold sizeMod; omega)
  -- the size is read from the line, and the data from behind it
  rw [readToken_of_line hdrop (hdrop ▸ findCrlf_eq hline _),
    hdigits.tryParseSize_eq (by unfold sizeMod; omega), hsize]
  apply (readData_eq_some_iff hlength).mpr
  rw [hmod, bulkString_append]
  refine ⟨?_, ?_, rfl⟩
  · have hfront : front ++ ('$'.toUInt8 :: digits ++ (crlf ++ (token ++ (crlf ++ back)))) =
        (front ++ ('$'.toUInt8 :: digits ++ crlf ++ token)) ++ (crlf ++ back) := by simp
    have hcount : (front ++ ('$'.toUInt8 :: digits ++ crlf ++ token)).length =
        front.length + digits.length + 3 + token.length := by
      simp [crlf]
      omega
    rw [hfront, ← hcount, List.drop_left]
    exact List.prefix_append _ _
  · symm
    apply substr_eq (front ++ ('$'.toUInt8 :: digits ++ crlf)) (crlf ++ back) (by simp) _ rfl
    simp [crlf]
    omega

/-- The bulk strings at the cursor are read. -/
theorem Items.readTokens_eq {tokens : List Bytes} {text : Bytes} (h : Items tokens text)
    (front back : Bytes) (taken : List Bytes)
    (hlength : (front ++ (text ++ back)).length < maxSize) :
    readTokens (front ++ (text ++ back)) tokens.length front.length taken =
      .ok (some (taken ++ tokens, (front ++ text).length)) := by
  induction h generalizing front taken with
  | nil => simp [readTokens]
  | @cons digits token tokens text hdigits _ ih =>
    rw [List.append_assoc] at hlength ⊢
    have hread := readToken_eq hdigits (text ++ back) hlength
    rw [List.length_cons, readTokens, hread]
    simp only
    rw [← List.append_assoc front] at hlength ⊢
    rw [ih (front ++ bulkString digits token) (taken ++ [token]) hlength]
    simp

/-- No more tokens than bytes. -/
theorem Items.length_le {tokens : List Bytes} {text : Bytes} (h : Items tokens text) :
    tokens.length ≤ text.length := by
  induction h with
  | nil => exact Nat.le_refl _
  | cons _ _ ih =>
    rw [List.length_cons, List.length_append, length_bulkString]
    omega

/-- What `TryExtractResp` reads behind a first line. -/
theorem readRequest_of_line {reserve : Nat → Option String} {buffer line back : Bytes}
    (hbuffer : buffer = '*'.toUInt8 :: line ++ (crlf ++ back))
    (hfirst : findCrlf buffer = some (line.length + 1)) :
    readRequest reserve buffer =
      (tryParseSize line).elim (.error "invalid RESP array length") fun tokenCount =>
        (reserve tokenCount).elim (readTokens buffer tokenCount (line.length + 3) []) .error := by
  have hfind : find buffer 0 = some (line.length + 1) := by
    rw [find, List.drop_zero, hfirst]
    exact congrArg some (Nat.zero_add _)
  have hline : substr buffer 1 (line.length + 1 - 1) = line :=
    substr_eq ['*'.toUInt8] (crlf ++ back) hbuffer rfl rfl
  obtain ⟨rest, rfl⟩ : ∃ rest, buffer = '*'.toUInt8 :: rest := ⟨_, hbuffer⟩
  have hsum : line.length + 1 + 2 = line.length + 3 := rfl
  simp only [readRequest, ne_eq, not_true_eq_false, if_false, hfind, hline, hsum]
  cases tryParseSize line with
  | none => rfl
  | some tokenCount => cases hroom : reserve tokenCount <;> simp only [Option.elim, hroom]

/-- A frame at the front of the buffer is taken, if there is room for its tokens. -/
theorem Frame.tryExtractRespWith_eq {reserve : Nat → Option String} {tokens : List Bytes}
    {text : Bytes} (h : Frame tokens text) (hroom : reserve tokens.length = none) (back : Bytes)
    (hlength : (text ++ back).length < maxSize) :
    tryExtractRespWith reserve (text ++ back) = .ok (some ({ tokens }, back)) := by
  cases h with
  | @mk digits _ items hdigits hitems =>
    have hline : (13 : UInt8) ∉ '*'.toUInt8 :: digits := by
      rw [List.mem_cons, not_or]
      exact ⟨by decide, hdigits.not_mem_cr⟩
    have hbuffer : '*'.toUInt8 :: digits ++ crlf ++ items ++ back =
        '*'.toUInt8 :: digits ++ (crlf ++ (items ++ back)) := by
      simp
    -- every item takes at least a byte, so the count fits
    have hcount : tokens.length < sizeMod := by
      have hle := hitems.length_le
      simp only [List.length_append, maxSize] at hlength
      unfold sizeMod
      omega
    -- the loop reads the items from behind the first line
    have hread := hitems.readTokens_eq ('*'.toUInt8 :: digits ++ crlf) back []
      (by rw [← List.append_assoc]; exact hlength)
    have hcursor : ('*'.toUInt8 :: digits ++ crlf).length = digits.length + 3 := by
      simp [crlf]
    rw [← List.append_assoc, hcursor] at hread
    rw [tryExtractRespWith, readRequest_of_line hbuffer (hbuffer ▸ findCrlf_eq hline _),
      hdigits.tryParseSize_eq hcount]
    simp only [Option.elim, hroom, hread, List.drop_left, List.nil_append]

/-! ## More bytes behind the buffer -/

/-- What stays of the result of a read if only its end is looked at. -/
def endOf {α β : Type} (result : Except String (Option (α × β))) : Except String (Option β) :=
  result.map (Option.map Prod.snd)

/-- More bytes change only the token of what is read behind a length. -/
theorem readData_append {buffer more : Bytes} {dataBegin tokenSize : Nat}
    (hlength : (buffer ++ more).length < maxSize)
    (h : readData buffer dataBegin tokenSize ≠ .ok none) :
    endOf (readData (buffer ++ more) dataBegin tokenSize) =
      endOf (readData buffer dataBegin tokenSize) := by
  have hsum : (buffer ++ more).length = buffer.length + more.length := List.length_append
  unfold maxSize at hlength
  unfold readData at h ⊢
  generalize (dataBegin + tokenSize) % sizeMod = dataEnd at h ⊢
  unfold sizeMod at h ⊢
  simp only at h ⊢
  by_cases hnext : buffer.length < (dataEnd + 2) % 2 ^ 64
  · exact absurd (if_pos hnext) h
  rw [if_neg hnext, if_neg (by omega)]
  by_cases hrange : buffer.length < dataEnd
  · -- the sum has wrapped around, and the position is past the end of any buffer
    rw [if_pos hrange, if_pos (by omega)]
  rw [if_neg hrange, if_neg (by omega)]
  have hterminator : substr (buffer ++ more) dataEnd 2 = substr buffer dataEnd 2 :=
    substr_append (by omega) more
  rw [hterminator]
  by_cases hcrlf : substr buffer dataEnd 2 ≠ crlf
  · rw [if_pos hcrlf, if_pos hcrlf]
  · rw [if_neg hcrlf, if_neg hcrlf]
    rfl

/-- More bytes change only the token of what is read at the cursor. -/
theorem readToken_append {buffer more : Bytes} {cursor : Nat}
    (hlength : (buffer ++ more).length < maxSize) (h : readToken buffer cursor ≠ .ok none) :
    endOf (readToken (buffer ++ more) cursor) = endOf (readToken buffer cursor) := by
  have hsum : (buffer ++ more).length = buffer.length + more.length := List.length_append
  by_cases hcursor : buffer.length ≤ cursor
  · exact absurd (if_pos hcursor) h
  -- what is looked at in front of the data lies in the old buffer
  have hfirst : (buffer ++ more).getD cursor 0 = buffer.getD cursor 0 := by
    simp only [List.getD_eq_getElem?_getD, List.getElem?_append_left (Nat.not_le.mp hcursor)]
  rw [readToken, if_neg hcursor] at h
  rw [readToken, readToken, if_neg hcursor, if_neg (by omega), hfirst]
  by_cases hdollar : buffer.getD cursor 0 ≠ '$'.toUInt8
  · simp only [if_pos hdollar]
  simp only [if_neg hdollar] at h ⊢
  -- the line end was found in the old buffer, or the call answers "incomplete"
  cases hfind : find buffer cursor with
  | none =>
    rw [hfind] at h
    exact absurd rfl h
  | some sizeLineEnd =>
    have hle := find_le hfind
    have hline : substr (buffer ++ more) (cursor + 1) (sizeLineEnd - cursor - 1) =
        substr buffer (cursor + 1) (sizeLineEnd - cursor - 1) := substr_append (by omega) more
    simp only [hfind] at h
    simp only [find_append hfind (by omega) more, hline]
    cases hsize : tryParseSize (substr buffer (cursor + 1) (sizeLineEnd - cursor - 1)) with
    | none => rfl
    | some tokenSize =>
      rw [hsize] at h
      exact readData_append hlength h

/-- The line at the cursor, where a bulk string is read. -/
theorem exists_line {buffer token : Bytes} {cursor next : Nat}
    (h : readToken buffer cursor = .ok (some (token, next))) :
    ∃ line data, buffer.drop cursor = '$'.toUInt8 :: line ++ (crlf ++ data) ∧
      findCrlf (buffer.drop cursor) = some (line.length + 1) := by
  unfold readToken at h
  split at h
  · cases h
  rename_i hcursor
  split at h
  · cases h
  rename_i hdollar
  split at h
  · cases h
  rename_i sizeLineEnd hfind
  obtain ⟨offset, hoffset, -⟩ := Option.map_eq_some_iff.mp hfind
  obtain ⟨line, data, hdrop, rfl⟩ := exists_of_findCrlf hoffset
  -- the line is not empty: it starts with the dollar
  have hhead : (buffer.drop cursor).head? = some '$'.toUInt8 := by
    rw [List.head?_drop, List.getElem?_eq_getElem (by omega)]
    rw [not_not, List.getD_eq_getElem?_getD, List.getElem?_eq_getElem (by omega)] at hdollar
    exact congrArg some hdollar
  cases line with
  | nil =>
    rw [hdrop] at hhead
    cases hhead
  | cons first line =>
    rw [hdrop] at hhead
    obtain rfl := Option.some.inj hhead
    exact ⟨line, data, hdrop, hoffset⟩

/-- The cursor behind a token is behind the line end that the token ends with. -/
theorem readToken_mem {buffer token : Bytes} {cursor next : Nat}
    (hlength : buffer.length < maxSize)
    (h : readToken buffer cursor = .ok (some (token, next))) :
    2 ≤ next ∧ next ≤ buffer.length := by
  obtain ⟨line, data, hdrop, hfirst⟩ := exists_line h
  rw [readToken_of_line hdrop hfirst] at h
  split at h
  · cases h
  · obtain ⟨hpre, -, rfl⟩ := (readData_eq_some_iff hlength).mp h
    have hle := hpre.length_le
    rw [List.length_drop] at hle
    -- the line end does not fit behind the end of the buffer
    have : crlf.length = 2 := rfl
    omega

theorem endOf_eq_error {α β : Type} {result : Except String (Option (α × β))} {error : String} :
    endOf result = .error error ↔ result = .error error := by
  cases result with
  | error error' => simp [endOf, Except.map]
  | ok value => simp [endOf, Except.map]

theorem endOf_eq_some {α β : Type} {result : Except String (Option (α × β))} {stop : β} :
    endOf result = .ok (some stop) ↔ ∃ value, result = .ok (some (value, stop)) := by
  cases result with
  | error error => simp [endOf, Except.map]
  | ok value => simp [endOf, Except.map]

/-- The cursor stays in the buffer, wherever the rounds lead it. -/
theorem readTokens_mem {buffer : Bytes} {count cursor stop : Nat} {taken tokens : List Bytes}
    (hlength : buffer.length < maxSize) (hcursor : 2 ≤ cursor ∧ cursor ≤ buffer.length)
    (h : readTokens buffer count cursor taken = .ok (some (tokens, stop))) :
    2 ≤ stop ∧ stop ≤ buffer.length := by
  induction count generalizing cursor taken with
  | zero =>
    cases h
    exact hcursor
  | succ count ih =>
    rw [readTokens] at h
    split at h
    · cases h
    · cases h
    · rename_i hread
      exact ih (readToken_mem hlength hread) h

/-- More bytes change only the tokens that are read at the cursor. -/
theorem readTokens_append {buffer more : Bytes} (hlength : (buffer ++ more).length < maxSize)
    (count cursor : Nat) (taken taken' : List Bytes)
    (h : readTokens buffer count cursor taken ≠ .ok none) :
    endOf (readTokens (buffer ++ more) count cursor taken') =
      endOf (readTokens buffer count cursor taken) := by
  -- by induction on the number of tokens that are left
  induction count generalizing cursor taken taken' with
  | zero => rfl
  | succ count ih =>
    rw [readTokens] at h
    rw [readTokens, readTokens]
    cases hread : readToken buffer cursor with
    | error error =>
      have hmore := readToken_append hlength (by rw [hread]; nofun)
      rw [hread] at hmore
      simp only [endOf_eq_error.mp hmore]
    | ok frame =>
      cases frame with
      | none =>
        rw [hread] at h
        exact absurd rfl h
      | some frame =>
        obtain ⟨token, next⟩ := frame
        have hmore := readToken_append hlength (by rw [hread]; nofun)
        rw [hread] at hmore
        -- the token may be longer now, but the cursor behind it is the same
        obtain ⟨token', htoken'⟩ := endOf_eq_some.mp hmore
        simp only [hread] at h
        simp only [htoken']
        exact ih next _ _ h

/-- A frame that is taken or refused stays so when bytes follow. -/
theorem tryExtractRespWith_append {reserve : Nat → Option String} {buffer more : Bytes}
    (hlength : (buffer ++ more).length < maxSize) :
    (∀ error, tryExtractRespWith reserve buffer = .error error →
      tryExtractRespWith reserve (buffer ++ more) = .error error) ∧
    ∀ request left, tryExtractRespWith reserve buffer = .ok (some (request, left)) →
      ∃ request', tryExtractRespWith reserve (buffer ++ more) =
        .ok (some (request', left ++ more)) := by
  cases buffer with
  | nil => exact ⟨nofun, nofun⟩
  | cons front rest =>
    have hshort : (front :: rest).length < maxSize := by
      rw [List.length_append] at hlength
      omega
    rw [List.cons_append] at hlength ⊢
    unfold tryExtractRespWith readRequest
    by_cases hfront : front ≠ '*'.toUInt8
    · simp only [if_pos hfront]
      exact ⟨fun _ => id, nofun⟩
    simp only [if_neg hfront]
    cases hfind : find (front :: rest) 0 with
    | none => exact ⟨nofun, nofun⟩
    | some arrayLineEnd =>
      -- the first line stays what it is
      have hle := (find_le hfind).2
      have hline : substr (front :: (rest ++ more)) 1 (arrayLineEnd - 1) =
          substr (front :: rest) 1 (arrayLineEnd - 1) :=
        substr_append (show 1 + (arrayLineEnd - 1) ≤ (front :: rest).length by omega) more
      have hfind' : find (front :: (rest ++ more)) 0 = some arrayLineEnd :=
        find_append hfind (Nat.zero_le _) more
      simp only [hfind', hline]
      cases tryParseSize (substr (front :: rest) 1 (arrayLineEnd - 1)) with
      | none => exact ⟨fun _ => id, nofun⟩
      | some tokenCount =>
        simp only
        cases reserve tokenCount with
        -- room is asked for as many tokens as before
        | some error => exact ⟨fun _ => id, nofun⟩
        | none =>
          have hmore := @readTokens_append (front :: rest) more hlength tokenCount
            (arrayLineEnd + 2) [] []
          rw [List.cons_append] at hmore
          cases hread : readTokens (front :: rest) tokenCount (arrayLineEnd + 2) [] with
          | error error =>
            rw [hread] at hmore
            simp only [endOf_eq_error.mp (hmore nofun)]
            exact ⟨fun _ => id, nofun⟩
          | ok frame =>
            cases frame with
            | none => exact ⟨nofun, nofun⟩
            | some frame =>
              -- the frame ends at the same cursor
              rw [hread] at hmore
              obtain ⟨tokens, htokens⟩ := endOf_eq_some.mp (hmore nofun)
              simp only [htokens]
              refine ⟨nofun, fun request left hframe => ?_⟩
              have hstop := (readTokens_mem hshort ⟨Nat.le_add_left 2 _, hle⟩ hread).2
              rw [← List.cons_append, List.drop_append_of_le_length hstop]
              cases hframe
              exact ⟨_, rfl⟩

/-- `TryExtractResp` waits for the rest of a torn frame. -/
theorem Frame.tryExtractRespWith_torn {reserve : Nat → Option String} {tokens : List Bytes}
    {text torn : Bytes} (h : Frame tokens text) (hroom : reserve tokens.length = none)
    (hlength : text.length < maxSize) (htorn : torn <+: text)
    (hless : torn.length < text.length) : tryExtractRespWith reserve torn = .ok none := by
  obtain ⟨more, rfl⟩ := htorn
  have hwhole := h.tryExtractRespWith_eq hroom [] (by rwa [List.append_nil])
  rw [List.append_nil] at hwhole
  obtain ⟨herror, hsome⟩ := @tryExtractRespWith_append reserve _ _ hlength
  cases hdecode : tryExtractRespWith reserve torn with
  | error error => cases (herror error hdecode).symm.trans hwhole
  | ok frame =>
    cases frame with
    | none => rfl
    | some frame =>
      -- the whole frame would end inside the torn one
      obtain ⟨request', hrequest'⟩ := hsome frame.1 frame.2 hdecode
      have hmore : frame.2 ++ more = [] := by
        rw [hrequest', Except.ok.injEq, Option.some.injEq, Prod.mk.injEq] at hwhole
        exact hwhole.2
      rw [(List.append_eq_nil_iff.mp hmore).2, List.append_nil] at hless
      omega

end KvStore
