import KvStore.Spec.Frame

/-!
# The arithmetic of lengths

`TryExtractResp` adds a declared length to a position before it compares the sum with the
size of the buffer. A `Round` holds the variables of one round of its loop, and
`Round.Exact` says that its sums are computed without wrapping around.
`lengths_exact_iff` says for which buffers all rounds are exact: no declared length, as
`TryParseSize` reads it, may be greater than the buffer.
-/

namespace KvStore

/-- The variables of a round of the loop of `TryExtractResp` that takes a token, the token,
    and the cursor behind it. -/
structure Round where
  cursor : Nat
  sizeLineEnd : Nat
  tokenSize : Nat
  token : Bytes
  next : Nat

namespace Round

variable (buffer : Bytes) (round : Round)

/-- `data_begin`. -/
def dataBegin : Nat := round.sizeLineEnd + 2

/-- `data_end`. -/
def dataEnd : Nat := (round.dataBegin + round.tokenSize) % sizeMod

/-- The round is made on this buffer. -/
structure Reads : Prop where
  found : find buffer round.cursor = some round.sizeLineEnd
  parsed : tryParseSize
    (substr buffer (round.cursor + 1) (round.sizeLineEnd - round.cursor - 1)) =
      some round.tokenSize
  taken : readToken buffer round.cursor = .ok (some (round.token, round.next))

/-- No sum of the round wraps around, and the token is as long as declared. -/
structure Exact : Prop where
  sum_lt : round.dataBegin + round.tokenSize < sizeMod
  next_lt : round.dataEnd + 2 < sizeMod
  begin_le : round.dataBegin ≤ round.dataEnd
  end_le : round.dataEnd + 2 ≤ buffer.length
  length : round.token.length = round.tokenSize
  advances : round.cursor < round.next

end Round

/-- The rounds of the loop from one cursor to another. -/
inductive Rounds (buffer : Bytes) : Nat → List Round → Nat → Prop where
  | nil (cursor : Nat) : Rounds buffer cursor [] cursor
  | cons {round : Round} {rounds : List Round} {stop : Nat} (reads : round.Reads buffer)
      (rest : Rounds buffer round.next rounds stop) :
      Rounds buffer round.cursor (round :: rounds) stop

/-- `TryExtractResp` returns `true` after these rounds, and erases the bytes before `stop`. -/
structure Extracts (buffer : Bytes) (rounds : List Round) (stop : Nat) : Prop where
  star : buffer.head? = some '*'.toUInt8
  lines : ∃ arrayLineEnd, find buffer 0 = some arrayLineEnd ∧
    tryParseSize (substr buffer 1 (arrayLineEnd - 1)) = some rounds.length ∧
    Rounds buffer (arrayLineEnd + 2) rounds stop

/-- When `TryExtractResp` returns `true`, all its rounds are exact, and the tokens depend on
    the bytes that it erases only. -/
def LengthsExact (reserve : Nat → Option String) (buffer : Bytes) : Prop :=
  ∀ tokens rest, tryExtractRespWith reserve buffer = .ok (some (⟨tokens⟩, rest)) →
    ∃ rounds stop, Extracts buffer rounds stop ∧ tokens = rounds.map Round.token ∧
      rest = buffer.drop stop ∧ (∀ round ∈ rounds, round.Exact buffer) ∧
      ∀ more, (buffer.take stop ++ more).length < maxSize →
        tryExtractRespWith reserve (buffer.take stop ++ more) = .ok (some (⟨tokens⟩, more))

/-- In the request at the front of the buffer, if there is room for its tokens, no declared
    length is greater than the buffer. -/
def SizesFit (reserve : Nat → Option String) (buffer : Bytes) : Prop :=
  ∀ rounds stop, Extracts buffer rounds stop → reserve rounds.length = none →
    ∀ round ∈ rounds, round.tokenSize ≤ buffer.length

/-! ## Rounds -/

variable {reserve : Nat → Option String} {buffer : Bytes}

/-- The second half of a round. -/
theorem readToken_of_find {cursor sizeLineEnd tokenSize : Nat}
    (hcursor : cursor < buffer.length) (hdollar : buffer.getD cursor 0 = '$'.toUInt8)
    (hfind : find buffer cursor = some sizeLineEnd)
    (hparse : tryParseSize (substr buffer (cursor + 1) (sizeLineEnd - cursor - 1)) =
      some tokenSize) :
    readToken buffer cursor = readData buffer (sizeLineEnd + 2) tokenSize := by
  rw [readToken, if_neg (by omega), if_neg (by rw [hdollar]; simp), hfind]
  simp only [hparse]

/-- A token that is taken has been taken in a round. -/
theorem exists_round {cursor next : Nat} {token : Bytes}
    (h : readToken buffer cursor = .ok (some (token, next))) :
    ∃ round : Round, round.Reads buffer ∧ round.cursor = cursor ∧ round.token = token ∧
      round.next = next := by
  have htaken := h
  unfold readToken at h
  split at h
  · cases h
  split at h
  · cases h
  split at h
  · cases h
  rename_i sizeLineEnd hfind
  split at h
  · cases h
  rename_i tokenSize hparse
  exact ⟨{ cursor, sizeLineEnd, tokenSize, token, next }, ⟨hfind, hparse, htaken⟩, rfl, rfl, rfl⟩

/-- The byte at the cursor of a round. -/
theorem Round.Reads.dollar {round : Round} (h : round.Reads buffer) :
    round.cursor < buffer.length ∧ buffer.getD round.cursor 0 = '$'.toUInt8 := by
  have htaken := h.taken
  unfold readToken at htaken
  split at htaken
  · cases htaken
  rename_i hcursor
  split at htaken
  · cases htaken
  rename_i hdollar
  exact ⟨Nat.not_le.mp hcursor, not_not.mp hdollar⟩

/-- What a round takes. -/
theorem Round.Reads.data (hlength : buffer.length < maxSize) {round : Round}
    (h : round.Reads buffer) :
    crlf <+: buffer.drop round.dataEnd ∧
      round.token = substr buffer round.dataBegin round.tokenSize ∧
      round.next = round.dataEnd + 2 := by
  obtain ⟨hcursor, hdollar⟩ := h.dollar
  have htaken := h.taken
  rw [readToken_of_find hcursor hdollar h.found h.parsed] at htaken
  exact (readData_eq_some_iff hlength).mp htaken

/-- A round whose length is no greater than the buffer is exact. -/
theorem Round.Reads.exact (hlength : buffer.length < maxSize) {round : Round}
    (h : round.Reads buffer) (hsize : round.tokenSize ≤ buffer.length) : round.Exact buffer := by
  obtain ⟨hpre, htoken, hnext⟩ := h.data hlength
  obtain ⟨hbegin, hend⟩ := find_le h.found
  have hcrlf := hpre.length_le
  rw [List.length_drop, show crlf.length = 2 from rfl] at hcrlf
  have hsum : round.dataBegin + round.tokenSize < sizeMod := by
    unfold Round.dataBegin sizeMod
    unfold maxSize at hlength
    omega
  have hdataEnd : round.dataEnd = round.dataBegin + round.tokenSize := Nat.mod_eq_of_lt hsum
  refine ⟨hsum, ?_, by omega, by omega, ?_, ?_⟩
  · unfold sizeMod
    unfold maxSize at hlength
    omega
  · rw [htoken, substr, List.length_take, List.length_drop]
    omega
  · unfold Round.dataBegin at hdataEnd
    omega

/-- The tokens of rounds that are made one after another. -/
theorem readTokens_eq_some_iff_rounds {count cursor stop : Nat} {taken tokens : List Bytes} :
    readTokens buffer count cursor taken = .ok (some (tokens, stop)) ↔
      ∃ rounds, rounds.length = count ∧ Rounds buffer cursor rounds stop ∧
        tokens = taken ++ rounds.map Round.token := by
  -- on the number of tokens that are left, from any cursor and behind any tokens
  induction count generalizing cursor taken with
  | zero =>
    constructor
    · intro h
      cases h
      exact ⟨[], rfl, .nil _, (List.append_nil _).symm⟩
    · rintro ⟨rounds, hcount, hrounds, htokens⟩
      obtain rfl := List.eq_nil_of_length_eq_zero hcount
      cases hrounds
      simp [readTokens, htokens]
  | succ count ih =>
    rw [readTokens]
    constructor
    · intro h
      split at h
      · cases h
      · cases h
      · rename_i token next hread
        obtain ⟨round, hreads, rfl, rfl, rfl⟩ := exists_round hread
        obtain ⟨rounds, hcount, hrounds, rfl⟩ := ih.mp h
        exact ⟨round :: rounds, congrArg (· + 1) hcount, .cons hreads hrounds, by simp⟩
    · rintro ⟨rounds, hcount, hrounds, htokens⟩
      cases hrounds with
      | nil => cases hcount
      | @cons round rounds _ hreads hrounds =>
        rw [hreads.taken]
        exact ih.mpr ⟨rounds, Nat.succ.inj hcount, hrounds, by simp [htokens]⟩

/-- `TryExtractResp` returns `true` after its rounds, if there is room for the tokens. -/
theorem tryExtractRespWith_eq_some_iff_rounds {tokens : List Bytes} {rest : Bytes} :
    tryExtractRespWith reserve buffer = .ok (some (⟨tokens⟩, rest)) ↔
      ∃ rounds stop, Extracts buffer rounds stop ∧ reserve rounds.length = none ∧
        tokens = rounds.map Round.token ∧ rest = buffer.drop stop := by
  cases buffer with
  | nil =>
    constructor
    · intro h
      cases h
    · intro ⟨rounds, stop, hextracts, _⟩
      cases hextracts.star
  | cons front back =>
    unfold tryExtractRespWith readRequest
    by_cases hfront : front ≠ '*'.toUInt8
    · simp only [if_pos hfront]
      constructor
      · intro h
        cases h
      · intro ⟨rounds, stop, hextracts, _⟩
        exact absurd (Option.some.inj hextracts.star) hfront
    simp only [if_neg hfront]
    have hstar : (front :: back).head? = some '*'.toUInt8 := congrArg some (not_not.mp hfront)
    constructor
    · intro h
      cases hfind : find (front :: back) 0 with
      | none => simp [hfind] at h
      | some arrayLineEnd =>
        simp only [hfind] at h
        cases hparse : tryParseSize (substr (front :: back) 1 (arrayLineEnd - 1)) with
        | none => simp [hparse] at h
        | some count =>
          simp only [hparse] at h
          cases hroom : reserve count with
          | some error => simp [hroom] at h
          | none =>
            simp only [hroom] at h
            split at h
            · cases h
            · cases h
            -- all tokens have been read
            rename_i read stop hread
            obtain ⟨rounds, rfl, hrounds, rfl⟩ := readTokens_eq_some_iff_rounds.mp hread
            cases h
            exact ⟨rounds, stop, ⟨hstar, arrayLineEnd, hfind, hparse, hrounds⟩, hroom, by simp,
              rfl⟩
    · intro ⟨rounds, stop, ⟨_, arrayLineEnd, hfind, hparse, hrounds⟩, hroom, htokens, hrest⟩
      have hread : readTokens (front :: back) rounds.length (arrayLineEnd + 2) [] =
          .ok (some (tokens, stop)) :=
        readTokens_eq_some_iff_rounds.mpr ⟨rounds, rfl, hrounds, by simpa using htokens⟩
      simp only [hfind, hparse, hroom, hread, hrest]

/-- The rounds from a cursor on are determined by the buffer. -/
theorem Rounds.unique {cursor stop stop' : Nat} {rounds rounds' : List Round}
    (h : Rounds buffer cursor rounds stop) (h' : Rounds buffer cursor rounds' stop')
    (hcount : rounds.length = rounds'.length) : rounds = rounds' ∧ stop = stop' := by
  -- both runs read the same line at each cursor, and so go on from the same one
  induction h generalizing rounds' with
  | nil cursor =>
    cases h' with
    | nil => exact ⟨rfl, rfl⟩
    | cons => cases hcount
  | @cons round rounds stop hreads hrounds ih =>
    obtain ⟨cursor, sizeLineEnd, tokenSize, token, next⟩ := round
    generalize hcursor : (⟨cursor, sizeLineEnd, tokenSize, token, next⟩ : Round).cursor = start at h'
    cases h' with
    | nil => cases hcount
    | @cons round' rounds' _ hreads' hrounds' =>
      obtain ⟨cursor', sizeLineEnd', tokenSize', token', next'⟩ := round'
      obtain rfl : cursor = cursor' := hcursor
      obtain rfl : sizeLineEnd = sizeLineEnd' :=
        Option.some.inj (hreads.found.symm.trans hreads'.found)
      obtain rfl : tokenSize = tokenSize' :=
        Option.some.inj (hreads.parsed.symm.trans hreads'.parsed)
      have htaken := hreads.taken.symm.trans hreads'.taken
      simp only [Except.ok.injEq, Option.some.injEq, Prod.mk.injEq] at htaken
      obtain ⟨rfl, rfl⟩ := htaken
      obtain ⟨rfl, rfl⟩ := ih hrounds' (Nat.succ.inj hcount)
      exact ⟨rfl, rfl⟩

/-- Every round has read an item of the buffer. -/
theorem Rounds.reads_of_mem {cursor stop : Nat} {rounds : List Round}
    (h : Rounds buffer cursor rounds stop) {round : Round} (hround : round ∈ rounds) :
    round.Reads buffer := by
  induction h with
  | nil => cases hround
  | cons hreads _ ih =>
    cases hround with
    | head => exact hreads
    | tail _ hmem => exact ih hmem

/-- A buffer determines its rounds. -/
theorem Extracts.unique {stop stop' : Nat} {rounds rounds' : List Round}
    (h : Extracts buffer rounds stop) (h' : Extracts buffer rounds' stop') :
    rounds = rounds' ∧ stop = stop' := by
  obtain ⟨_, arrayLineEnd, hfind, hparse, hrounds⟩ := h
  obtain ⟨_, arrayLineEnd', hfind', hparse', hrounds'⟩ := h'
  obtain rfl := Option.some.inj (hfind.symm.trans hfind')
  exact hrounds.unique hrounds' (Option.some.inj (hparse.symm.trans hparse'))

/-! ## The bytes that a request depends on -/

/-- The first line end of a text is the first one of every beginning that holds it. -/
theorem findCrlf_take {text : Bytes} {pos count : Nat} (h : findCrlf text = some pos)
    (hcount : pos + 2 ≤ count) : findCrlf (text.take count) = some pos := by
  induction text generalizing pos count with
  | nil => cases h
  | cons ch text ih =>
    obtain ⟨count, rfl⟩ : ∃ n, count = n + 1 := ⟨count - 1, by omega⟩
    rw [findCrlf] at h
    rw [List.take_succ_cons, findCrlf]
    have hpre : crlf <+: ch :: text.take count ↔ crlf <+: ch :: text := by
      obtain ⟨count, rfl⟩ : ∃ n, count = n + 1 := ⟨count - 1, by omega⟩
      -- the two bytes that decide are kept
      cases text with
      | nil => rfl
      | cons next text => simp [crlf]
    split at h
    · rename_i hhere
      rw [if_pos (hpre.mpr hhere)]
      exact h
    · rename_i hhere
      obtain ⟨pos', hpos', rfl⟩ := Option.map_eq_some_iff.mp h
      rw [if_neg (hpre.not.mpr hhere), ih hpos' (by omega)]
      rfl

section Beginning

variable {stop : Nat} (hstop : stop ≤ buffer.length) (more : Bytes)

include hstop

/-- A part of what has been read does not depend on the rest. -/
theorem substr_beginning {pos count : Nat} (h : pos + count ≤ stop) :
    substr (buffer.take stop ++ more) pos count = substr buffer pos count := by
  have hle : pos + count ≤ (buffer.take stop).length := by
    rw [List.length_take]
    omega
  have hwhole := substr_append hle (buffer.drop stop)
  rw [List.take_append_drop] at hwhole
  rw [substr_append hle, hwhole]

/-- What is found in what has been read does not depend on the rest. -/
theorem find_beginning {pos found : Nat} (h : find buffer pos = some found)
    (hfound : found + 2 ≤ stop) : find (buffer.take stop ++ more) pos = some found := by
  have hpos := (find_le h).1
  refine find_append ?_ (by rw [List.length_take]; omega) more
  obtain ⟨offset, hoffset, rfl⟩ := Option.map_eq_some_iff.mp h
  rw [find, List.drop_take, findCrlf_take hoffset (by omega)]
  rfl

/-- An exact round is made in the same way when only what is behind it changes. -/
theorem Round.Reads.beginning (hlength : buffer.length < maxSize) {round : Round}
    (h : round.Reads buffer) (hexact : round.Exact buffer) (hnext : round.next ≤ stop)
    (hmore : (buffer.take stop ++ more).length < maxSize) :
    round.Reads (buffer.take stop ++ more) := by
  obtain ⟨hcursor, hdollar⟩ := h.dollar
  obtain ⟨hpre, htoken, hend⟩ := h.data hlength
  have hbegin := (find_le h.found).1
  have hdataEnd : round.dataEnd = round.dataBegin + round.tokenSize :=
    Nat.mod_eq_of_lt hexact.sum_lt
  -- the round does not wrap, so all that it reads lies before `stop`
  have hdata : round.sizeLineEnd + 2 + round.tokenSize + 2 ≤ stop := by
    unfold Round.dataBegin at hdataEnd
    omega
  have hsum : (buffer.take stop ++ more).length = stop + more.length := by
    rw [List.length_append, List.length_take, Nat.min_eq_left hstop]
  have hfind := find_beginning hstop more h.found (by omega)
  have hparse : tryParseSize (substr (buffer.take stop ++ more) (round.cursor + 1)
      (round.sizeLineEnd - round.cursor - 1)) = some round.tokenSize := by
    rw [substr_beginning hstop more (by omega)]
    exact h.parsed
  refine ⟨hfind, hparse, ?_⟩
  have hdollar' : (buffer.take stop ++ more).getD round.cursor 0 = '$'.toUInt8 := by
    rw [List.getD_eq_getElem?_getD, List.getElem?_append_left (by rw [List.length_take]; omega),
      List.getElem?_take_of_lt (by omega), ← List.getD_eq_getElem?_getD]
    exact hdollar
  rw [readToken_of_find (by omega) hdollar' hfind hparse]
  apply (readData_eq_some_iff hmore).mpr
  refine ⟨?_, ?_, hend⟩
  · have hterminator : substr buffer round.dataEnd 2 = crlf :=
      (List.prefix_iff_eq_take.mp hpre).symm
    show crlf <+: (buffer.take stop ++ more).drop round.dataEnd
    rw [List.prefix_iff_eq_take]
    show crlf = substr (buffer.take stop ++ more) round.dataEnd 2
    rw [substr_beginning hstop more (by omega), hterminator]
  · rw [htoken]
    exact (substr_beginning hstop more (by unfold Round.dataBegin; omega)).symm

end Beginning

/-- Exact rounds lead forward. -/
theorem Rounds.le {cursor stop : Nat} {rounds : List Round}
    (h : Rounds buffer cursor rounds stop) (hexact : ∀ round ∈ rounds, round.Exact buffer) :
    cursor ≤ stop := by
  induction h with
  | nil => exact Nat.le_refl _
  | cons _ _ ih =>
    have hadvances := (hexact _ List.mem_cons_self).advances
    have hrest := ih fun round hround => hexact round (List.mem_cons_of_mem _ hround)
    omega

/-- The rounds end inside the buffer. -/
theorem Extracts.stop_mem (hlength : buffer.length < maxSize) {stop : Nat} {rounds : List Round}
    (h : Extracts buffer rounds stop) : 2 ≤ stop ∧ stop ≤ buffer.length := by
  obtain ⟨_, arrayLineEnd, hfind, _, hrounds⟩ := h
  have hline := (find_le hfind).2
  have hread : readTokens buffer rounds.length (arrayLineEnd + 2) [] =
      .ok (some (rounds.map Round.token, stop)) :=
    readTokens_eq_some_iff_rounds.mpr ⟨rounds, rfl, hrounds, rfl⟩
  exact readTokens_mem hlength ⟨Nat.le_add_left 2 _, hline⟩ hread

/-- Exact rounds are made in the same way when only what is behind them changes. -/
theorem Rounds.beginning (hlength : buffer.length < maxSize) {cursor stop : Nat}
    {rounds : List Round} (h : Rounds buffer cursor rounds stop)
    (hexact : ∀ round ∈ rounds, round.Exact buffer) (hstop : stop ≤ buffer.length) {more : Bytes}
    (hmore : (buffer.take stop ++ more).length < maxSize) :
    Rounds (buffer.take stop ++ more) cursor rounds stop := by
  induction h with
  | nil => exact .nil _
  | cons hreads hrounds ih =>
    have hexact' := fun round hround => hexact round (List.mem_cons_of_mem _ hround)
    have hnext := hrounds.le hexact'
    exact .cons (hreads.beginning hstop more hlength (hexact _ List.mem_cons_self) hnext hmore)
      (ih hexact' hstop hmore)

/-- A request that is taken in exact rounds depends on its own bytes only. -/
theorem Extracts.beginning (hlength : buffer.length < maxSize) {stop : Nat}
    {rounds : List Round} (h : Extracts buffer rounds stop)
    (hexact : ∀ round ∈ rounds, round.Exact buffer) (hroom : reserve rounds.length = none)
    {more : Bytes} (hmore : (buffer.take stop ++ more).length < maxSize) :
    tryExtractRespWith reserve (buffer.take stop ++ more) =
      .ok (some (⟨rounds.map Round.token⟩, more)) := by
  have hstop := (h.stop_mem hlength).2
  obtain ⟨hstar, arrayLineEnd, hfind, hparse, hrounds⟩ := h
  have hline := (find_le hfind).2
  -- the rounds lead forward, so the first line ends before `stop` too
  have hle := hrounds.le hexact
  refine tryExtractRespWith_eq_some_iff_rounds.mpr
    ⟨rounds, stop, ⟨?_, arrayLineEnd, ?_, ?_, ?_⟩, hroom, rfl, ?_⟩
  · cases buffer with
    | nil => cases hstar
    | cons front back =>
      obtain ⟨stop, rfl⟩ : ∃ n, stop = n + 1 := ⟨stop - 1, by omega⟩
      exact hstar
  · exact find_beginning hstop more hfind hle
  · rw [substr_beginning hstop more (by omega)]
    exact hparse
  · exact hrounds.beginning hlength hexact hstop hmore
  · rw [List.drop_left' (by rw [List.length_take, Nat.min_eq_left hstop])]

/-- All rounds are exact if and only if no declared length is greater than the buffer, however
    much room there is for the tokens. -/
theorem lengths_exact_iff (reserve : Nat → Option String) (hlength : buffer.length < maxSize) :
    LengthsExact reserve buffer ↔ SizesFit reserve buffer := by
  constructor
  · intro h rounds stop hextracts hroom round hround
    obtain ⟨rounds', stop', hextracts', -, -, hexact, -⟩ :=
      h _ _ (tryExtractRespWith_eq_some_iff_rounds.mpr
        ⟨rounds, stop, hextracts, hroom, rfl, rfl⟩)
    obtain ⟨rfl, -⟩ := hextracts.unique hextracts'
    have hround' := hexact round hround
    -- the sum has not wrapped, so it is at least the size
    have hdataEnd : round.dataEnd = round.dataBegin + round.tokenSize :=
      Nat.mod_eq_of_lt hround'.sum_lt
    have hend := hround'.end_le
    omega
  · intro h tokens rest htaken
    obtain ⟨rounds, stop, hextracts, hroom, rfl, rfl⟩ :=
      tryExtractRespWith_eq_some_iff_rounds.mp htaken
    have hexact : ∀ round ∈ rounds, round.Exact buffer := by
      intro round hround
      have hreads : round.Reads buffer := by
        obtain ⟨_, arrayLineEnd, _, _, hrounds⟩ := hextracts
        exact hrounds.reads_of_mem hround
      exact hreads.exact hlength (h rounds stop hextracts hroom round hround)
    exact ⟨rounds, stop, hextracts, rfl, rfl, hexact,
      fun more hmore => hextracts.beginning hlength hexact hroom hmore⟩

/-- A `PING` whose length has a sign and a leading zero. -/
def signedPing : Bytes := "*1\r\n$+04\r\nPING\r\n".toList.map Char.toUInt8

/-- The one length of the request is read as 4, which fits. -/
theorem lengths_exact_signedPing : LengthsExact (fun _ => none) signedPing := by
  refine (lengths_exact_iff _ (by decide)).mpr fun rounds stop hextracts _ round hround => ?_
  let ping : Round :=
    { cursor := 4, sizeLineEnd := 8, tokenSize := 4, token := [80, 73, 78, 71], next := 16 }
  have hreads : ping.Reads signedPing := ⟨by decide, by decide, by decide⟩
  have hping : Extracts signedPing [ping] 16 :=
    ⟨rfl, 2, by decide, by decide, .cons hreads (.nil 16)⟩
  obtain ⟨rfl, -⟩ := hextracts.unique hping
  rw [List.mem_singleton.mp hround]
  decide

/-- A negative length, which leads back to the end of the first line. -/
def negativeLength : Bytes := "*1\r\n$-7\r\n".toList.map Char.toUInt8

/-- The token is whatever is behind the request, and only the first line is erased. -/
theorem negative_length_wraps :
    tryExtractResp negativeLength = .ok (some (⟨[[]]⟩, negativeLength.drop 4)) ∧
      tryExtractResp (negativeLength ++ [72, 73]) =
        .ok (some (⟨[[72, 73]]⟩, negativeLength.drop 4 ++ [72, 73])) ∧
      ¬ LengthsExact (fun _ => none) negativeLength := by
  have htaken : tryExtractResp negativeLength = .ok (some (⟨[[]]⟩, negativeLength.drop 4)) := by
    decide
  refine ⟨htaken, by decide, fun h => ?_⟩
  obtain ⟨rounds, stop, -, -, hrest, -, hbeginning⟩ := h _ _ htaken
  have hlength := congrArg List.length hrest
  have hwhole : negativeLength.length = 9 := by decide
  simp only [List.length_drop, hwhole] at hlength
  obtain rfl : stop = 4 := by omega
  -- without the bytes behind it, the first line is not a request
  have hline := hbeginning [] (by decide)
  have hnone : tryExtractResp (negativeLength.take 4 ++ []) = .ok none := by decide
  cases hnone.symm.trans hline

end KvStore
