import KvStore.Spec.LengthArithmetic

/-!
# Every request that is taken shortens the buffer

The cursor of `TryExtractResp` may move backwards when a declared length wraps around. But a
round that takes a token has found a line end, and the cursor is behind it: so it is always in
the buffer and never at its beginning, and the loop of `ExtractRequests` comes to an end
(`extraction_progresses`).
-/

namespace KvStore

variable {buffer : Bytes}

/-- The cursor that `erase` is called with is in the buffer, at least two bytes behind its
    beginning. -/
theorem readRequest_mem {reserve : Nat → Option String} {tokens : List Bytes} {cursor : Nat}
    (hlength : buffer.length < maxSize)
    (h : readRequest reserve buffer = .ok (some (tokens, cursor))) :
    2 ≤ cursor ∧ cursor ≤ buffer.length := by
  unfold readRequest at h
  split at h
  · cases h
  split at h
  · cases h
  split at h
  · cases h
  rename_i arrayLineEnd hfind
  split at h
  · cases h
  split at h
  · cases h
  have hline := find_le hfind
  exact readTokens_mem hlength (by omega) h

/-- `TryExtractResp` erases at least two bytes, and no more than there are. -/
theorem tryExtractRespWith_erases {reserve : Nat → Option String} {request : DecodedRequest}
    {rest : Bytes} (hlength : buffer.length < maxSize)
    (h : tryExtractRespWith reserve buffer = .ok (some (request, rest))) :
    ∃ cursor, readRequest reserve buffer = .ok (some (request.tokens, cursor)) ∧
      2 ≤ cursor ∧ cursor ≤ buffer.length ∧ rest = buffer.drop cursor := by
  unfold tryExtractRespWith at h
  split at h
  · cases h
  · cases h
  · rename_i tokens cursor hread
    cases h
    obtain ⟨hge, hle⟩ := readRequest_mem hlength hread
    exact ⟨cursor, hread, hge, hle, rfl⟩

/-! ## The loop -/

/-- The loop of `ExtractRequests` makes no more rounds than the buffer has pairs of bytes, and
    one more to see that no request is left. -/
theorem extractRounds_ends (reserve : Nat → Nat → Option String) {fuel : Nat}
    (hlength : buffer.length < maxSize) (hfuel : buffer.length / 2 < fuel) (i : Nat)
    (requests : List DecodedRequest) :
    ∃ result, extractRounds reserve fuel i buffer requests = some result := by
  induction fuel generalizing buffer i requests with
  | zero => omega
  | succ fuel ih =>
    rw [extractRounds]
    split
    · exact ⟨_, rfl⟩
    split
    · exact ⟨_, rfl⟩
    · exact ⟨_, rfl⟩
    · rename_i request rest htaken
      obtain ⟨cursor, -, hge, hle, rfl⟩ := tryExtractRespWith_erases hlength htaken
      have hshorter : (buffer.drop cursor).length = buffer.length - cursor := List.length_drop
      exact ih (by omega) (by omega) _ _

/-- `ExtractRequests` is this loop, if `reserve` throws for the same counts in all rounds: the
    rounds that `ExtractRequests` makes are enough. -/
theorem extractRounds_eq_extractLoop (reserve : Nat → Option String) {fuel rounds : Nat}
    (hlength : buffer.length < maxSize) (hfuel : buffer.length / 2 < fuel)
    (hrounds : buffer.length ≤ rounds) (i : Nat) (requests : List DecodedRequest) :
    extractRounds (fun _ => reserve) fuel i buffer requests =
      some (RequestCodec.extractLoop reserve rounds buffer requests) := by
  -- by induction on the fuel, which exceeds the length of the buffer
  induction fuel generalizing buffer rounds i requests with
  | zero => omega
  | succ fuel ih =>
    rw [extractRounds]
    cases rounds with
    | zero =>
      have hnil : buffer = [] := List.eq_nil_of_length_eq_zero (Nat.le_zero.mp hrounds)
      rw [if_pos hnil, RequestCodec.extractLoop]
    | succ rounds =>
      rw [RequestCodec.extractLoop]
      by_cases hnil : buffer = []
      · rw [if_pos hnil, if_pos hnil]
      rw [if_neg hnil, if_neg hnil]
      cases htaken : tryExtractRespWith reserve buffer with
      | error error => rfl
      | ok frame =>
        cases frame with
        | none => rfl
        | some frame =>
          -- both loops go on behind the request, where the buffer is shorter
          obtain ⟨request, rest⟩ := frame
          obtain ⟨cursor, -, hge, hle, rfl⟩ := tryExtractRespWith_erases hlength htaken
          have hshorter : (buffer.drop cursor).length = buffer.length - cursor := List.length_drop
          exact ih (by omega) (by omega) (by omega) _ _

/-- A request whose second length leads back to the end of the first line. -/
def backwards : Bytes := "*2\r\n$0\r\n\r\n$-14\r\n".toList.map Char.toUInt8

/-- The cursor may move backwards between two tokens of a request that is taken. -/
theorem exists_backwards :
    ∃ rounds stop, Extracts backwards rounds stop ∧
      ∃ round ∈ rounds, round.next < round.cursor := by
  -- the second length is `SIZE_MAX - 13`, and `14 + 2 + (SIZE_MAX - 13) + 2` wraps to 4
  let first : Round := { cursor := 4, sizeLineEnd := 6, tokenSize := 0, token := [], next := 10 }
  let second : Round :=
    { cursor := 10, sizeLineEnd := 14, tokenSize := sizeMod - 14, token := [], next := 4 }
  have hfirst : first.Reads backwards := ⟨by decide, by decide, by decide⟩
  have hsecond : second.Reads backwards := ⟨by decide, by decide, by decide⟩
  have hextracts : Extracts backwards [first, second] 4 :=
    ⟨rfl, 2, by decide, by decide, .cons hfirst (.cons hsecond (.nil 4))⟩
  exact ⟨_, _, hextracts, second, by simp, by decide⟩

/-- Whatever the lengths in the buffer are, `TryExtractResp` erases at least two bytes and none
    behind the end when it returns `true`, and the loop of `ExtractRequests` ends, although the
    cursor may move backwards. -/
theorem extraction_progresses (reserve : Nat → Nat → Option String) (buffer : Bytes)
    (hlength : buffer.length < maxSize) :
    (∀ i request rest, tryExtractRespWith (reserve i) buffer = .ok (some (request, rest)) →
      ∃ cursor, readRequest (reserve i) buffer = .ok (some (request.tokens, cursor)) ∧
        2 ≤ cursor ∧ cursor ≤ buffer.length ∧ rest = buffer.drop cursor) ∧
      (∀ fuel, buffer.length / 2 < fuel →
        ∃ result, extractRounds reserve fuel 0 buffer [] = some result) ∧
      ∃ hostile rounds stop, Extracts hostile rounds stop ∧
        ∃ round ∈ rounds, round.next < round.cursor :=
  ⟨fun _ _ _ => tryExtractRespWith_erases hlength,
    fun _ hfuel => extractRounds_ends reserve hlength hfuel 0 [],
    backwards, exists_backwards⟩

/-- A request whose cursor moves backwards is taken, and the loop ends at the `$` behind the
    four bytes that are erased. -/
theorem extraction_progresses_backwards :
    ∃ request rest,
      tryExtractRespWith (fun _ => none) backwards = .ok (some (request, rest)) ∧
      (∃ cursor, readRequest (fun _ => none) backwards = .ok (some (request.tokens, cursor)) ∧
        2 ≤ cursor ∧ cursor ≤ backwards.length ∧ rest = backwards.drop cursor) ∧
      (∃ result, extractRounds (fun _ _ => none) 9 0 backwards [] = some result) ∧
      ∃ hostile rounds stop, Extracts hostile rounds stop ∧
        ∃ round ∈ rounds, round.next < round.cursor := by
  obtain ⟨herases, hends, hbackwards⟩ :=
    extraction_progresses (fun _ _ => none) backwards (by decide)
  have htaken : tryExtractRespWith (fun _ => none) backwards =
      .ok (some (⟨[[], []]⟩, backwards.drop 4)) := by decide
  exact ⟨_, _, htaken, herases 0 _ _ htaken, hends 9 (by decide), hbackwards⟩

end KvStore
