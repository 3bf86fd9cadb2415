import KvStore.ForStd.Framing

/-!
# Decoders that read a stream in chunks

A decoder takes one frame off the front of a buffer. `drain` takes frames off it until the
rest is not a whole frame, and `feed` does so after each chunk that arrives.

`Decoder.Reads` says what a decoder has to do with whole and torn frames for `feed` to find
the frames of a stream however it is cut (`Decoder.Reads.feed_eq`). `Decoder.Stable` says
that bytes behind those that it has judged do not change the judgement;
`Decoder.Reads.feed_malformed_iff` is about a stream that ends with an error.
-/

variable {α β γ ε : Type*}

/-- Takes a frame off the front of a buffer, `none` if more symbols are needed. -/
abbrev Decoder (β γ ε : Type*) := List β → Except ε (Option (γ × List β))

namespace Decoder

/-- Takes frames off the front of a buffer as long as there are whole ones. -/
def drain (decode : Decoder β γ ε) : Nat → List β → Except ε (List γ) × List β
  | 0, buffer => (.ok [], buffer)
  | fuel + 1, buffer =>
    match decode buffer with
    | .error error => (.error error, buffer)
    | .ok none => (.ok [], buffer)
    | .ok (some (value, rest)) =>
      let (values, rest) := drain decode fuel rest
      (values.map (value :: ·), rest)

/-- The frames that are taken after each chunk up to an error, and the buffer in the end. -/
def feed (decode : Decoder β γ ε) :
    List β → List (List β) → List (List γ) × Except ε (List β)
  | buffer, [] => ([], .ok buffer)
  | buffer, chunk :: chunks =>
    match drain decode (buffer ++ chunk).length (buffer ++ chunk) with
    | (.error error, _) => ([], .error error)
    | (.ok values, rest) =>
      let (lists, result) := feed decode rest chunks
      (values :: lists, result)

/-- The decoder takes the frame `enc x` off the front of a buffer as the value `val x`, and
    waits for the rest of a torn frame, in buffers shorter than `bound`. -/
structure Reads (decode : Decoder β γ ε) (enc : α → List β) (val : α → γ) (bound : Nat) :
    Prop where
  nil : decode [] = .ok none
  ne_nil : ∀ x, enc x ≠ []
  whole : ∀ x rest, (enc x ++ rest).length < bound →
    decode (enc x ++ rest) = .ok (some (val x, rest))
  torn : ∀ x torn, (enc x).length < bound → torn <+: enc x → torn.length < (enc x).length →
    decode torn = .ok none

/-- Once a frame is taken or refused, it stays so when symbols follow. -/
structure Stable (decode : Decoder β γ ε) (bound : Nat) : Prop where
  error : ∀ {buffer error} rest, (buffer ++ rest).length < bound →
    decode buffer = .error error → ∃ error', decode (buffer ++ rest) = .error error'
  some : ∀ {buffer frame} rest, (buffer ++ rest).length < bound →
    decode buffer = .ok (some frame) → ∃ frame', decode (buffer ++ rest) = .ok (some frame')

variable {decode : Decoder β γ ε} {enc : α → List β} {val : α → γ} {bound : Nat}

/-- Nothing is taken from a buffer that holds no whole item. -/
theorem drain_of_none {buffer : List β} (h : decode buffer = .ok none) (fuel : Nat) :
    drain decode fuel buffer = (.ok [], buffer) := by
  cases fuel with
  | zero => rfl
  | succ fuel => simp only [drain, h]

/-- Where the decoder fails, the buffer stays as it is. -/
theorem drain_of_error {buffer : List β} {error : ε} (h : decode buffer = .error error)
    {fuel : Nat} (hfuel : 0 < fuel) : drain decode fuel buffer = (.error error, buffer) := by
  cases fuel with
  | zero => omega
  | succ fuel => simp only [drain, h]

/-- What is taken after the first chunks does not depend on those that follow. -/
theorem feed_take (decode : Decoder β γ ε) (buffer : List β) (chunks : List (List β)) (n : Nat) :
    (feed decode buffer (chunks.take n)).1 = (feed decode buffer chunks).1.take n := by
  induction chunks generalizing buffer n with
  | nil => simp [feed]
  | cons chunk chunks ih =>
    cases n with
    | zero => rfl
    | succ n =>
      rw [List.take_succ_cons, feed, feed]
      rcases drain decode (buffer ++ chunk).length (buffer ++ chunk) with ⟨result, left⟩
      cases result with
      | error error => rfl
      | ok values => exact congrArg (values :: ·) (ih left n)

namespace Reads

/-- Whole frames are taken off the front. -/
theorem drain_append (h : decode.Reads enc val bound) (xs : List α) (tail : List β) {fuel : Nat}
    (hbound : (xs.flatMap enc ++ tail).length < bound)
    (hfuel : (xs.flatMap enc ++ tail).length ≤ fuel) :
    ∃ fuel', tail.length ≤ fuel' ∧ drain decode fuel (xs.flatMap enc ++ tail) =
      ((drain decode fuel' tail).1.map (xs.map val ++ ·), (drain decode fuel' tail).2) := by
  induction xs generalizing fuel with
  | nil =>
    refine ⟨fuel, hfuel, ?_⟩
    show drain decode fuel tail = _
    cases hdrain : drain decode fuel tail with
    | mk result rest => cases result <;> rfl
  | cons x xs ih =>
    have hlength := List.length_pos_iff.mpr (h.ne_nil x)
    rw [List.flatMap_cons, List.append_assoc] at hbound hfuel ⊢
    cases fuel with
    | zero =>
      rw [List.length_append] at hfuel
      omega
    | succ fuel =>
      -- a frame is not empty, so one round pays for at least one symbol
      obtain ⟨fuel', hfuel', heq⟩ := @ih fuel
        (by rw [List.length_append] at hbound; omega)
        (by rw [List.length_append] at hfuel; omega)
      refine ⟨fuel', hfuel', ?_⟩
      simp only [drain, h.whole x _ hbound, heq]
      cases (drain decode fuel' tail).1 <;> rfl

/-- Whole frames in front of symbols that are no whole frame yet. -/
theorem drain_none (h : decode.Reads enc val bound) (xs : List α) {tail : List β}
    (htail : decode tail = .ok none) (hbound : (xs.flatMap enc ++ tail).length < bound) :
    drain decode (xs.flatMap enc ++ tail).length (xs.flatMap enc ++ tail) =
      (.ok (xs.map val), tail) := by
  obtain ⟨fuel, -, heq⟩ := h.drain_append xs tail hbound (Nat.le_refl _)
  rw [heq, drain_of_none htail]
  exact congrArg (fun values => (Except.ok values, tail)) (List.append_nil _)

/-- Whole frames in front of symbols that are refused. -/
theorem drain_error (h : decode.Reads enc val bound) (xs : List α) {tail : List β} {error : ε}
    (htail : decode tail = .error error) (hbound : (xs.flatMap enc ++ tail).length < bound) :
    drain decode (xs.flatMap enc ++ tail).length (xs.flatMap enc ++ tail) =
      (.error error, tail) := by
  have hne : tail ≠ [] := by
    rintro rfl
    cases h.nil.symm.trans htail
  obtain ⟨fuel, hfuel, heq⟩ := h.drain_append xs tail hbound (Nat.le_refl _)
  have hpos := List.length_pos_iff.mpr hne
  rw [heq, drain_of_error htail (by omega)]
  rfl

/-- A buffer that waits does not hold the next frame. -/
theorem length_lt_of_none (h : decode.Reads enc val bound) {x : α} {buffer rest : List β}
    (hnone : decode buffer = .ok none) (hbound : buffer.length < bound)
    (hpre : buffer <+: enc x ++ rest) : buffer.length < (enc x).length := by
  by_contra hlong
  obtain ⟨tail, rfl⟩ := List.prefix_of_prefix_length_le (List.prefix_append _ _) hpre
    (by omega)
  cases hnone.symm.trans (h.whole x tail hbound)

/-- The decoder waits for the rest of what is torn. -/
theorem decode_torn (h : decode.Reads enc val bound) {xs : List α} {torn : List β}
    (htorn : Torn enc xs torn) (hbound : (xs.flatMap enc).length < bound) :
    decode torn = .ok none := by
  cases xs with
  | nil => exact htorn ▸ h.nil
  | cons x xs =>
    rw [List.flatMap_cons, List.length_append] at hbound
    exact h.torn x torn (by omega) htorn.1 htorn.2

/-- A chunk of a stream with something refused behind it: the whole frames are taken, unless
    what is behind them is refused already. -/
theorem drain_chunk (h : decode.Reads enc val bound) (hs : decode.Stable bound) {rest : List α}
    {torn chunk tail : List β} (hframes : ∀ x ∈ rest, (enc x).length < bound)
    (htail : tail = [] ∨ tail.length < bound ∧ ∃ error, decode tail = .error error)
    (hbound : (torn ++ chunk).length < bound) (hpre : torn ++ chunk <+: rest.flatMap enc ++ tail) :
    ∃ front rest' torn', rest = front ++ rest' ∧ torn ++ chunk = front.flatMap enc ++ torn' ∧
      (Torn enc rest' torn' ∨ rest' = [] ∧ torn' <+: tail) ∧
      (decode torn' = .ok none ∧ drain decode (torn ++ chunk).length (torn ++ chunk) =
          (.ok (front.map val), torn') ∨
        ∃ error, decode torn' = .error error ∧
          drain decode (torn ++ chunk).length (torn ++ chunk) = (.error error, torn')) := by
  obtain ⟨front, rest', torn', rfl, hfront, htorn⟩ := exists_of_prefix_flatMap_append hpre
  refine ⟨front, rest', torn', rfl, hfront, htorn, ?_⟩
  rw [hfront] at hbound ⊢
  rcases htorn with htorn | ⟨rfl, htorn⟩
  · -- the decoder waits for the rest of a torn frame
    have hnone : decode torn' = .ok none := by
      cases rest' with
      | nil => rw [show torn' = [] from htorn, h.nil]
      | cons x rest' => exact h.torn x torn' (hframes x (by simp)) htorn.1 htorn.2
    exact .inl ⟨hnone, h.drain_none front hnone hbound⟩
  · -- a frame is not taken, as nothing is taken off the whole tail
    cases hdecode : decode torn' with
    | error error => exact .inr ⟨error, rfl, h.drain_error front hdecode hbound⟩
    | ok frame =>
      cases frame with
      | none => exact .inl ⟨rfl, h.drain_none front hdecode hbound⟩
      | some frame =>
        obtain ⟨behind, rfl⟩ := htorn
        rcases htail with hnil | ⟨hlength, error, herror⟩
        · rw [(List.append_eq_nil_iff.mp hnil).1, h.nil] at hdecode
          cases hdecode
        · obtain ⟨frame', hframe'⟩ := hs.some behind hlength hdecode
          cases hframe'.symm.trans herror

/-- However a part of a stream of frames is cut, the frames that lie wholly within it are
    taken, one list for each chunk, and the torn frame stays in the buffer. -/
theorem feed_eq (h : decode.Reads enc val bound) {xs : List α} {buffer : List β}
    {chunks : List (List β)} (hbound : (xs.flatMap enc).length < bound)
    (hnone : decode buffer = .ok none) (hpre : buffer ++ chunks.flatten <+: xs.flatMap enc) :
    ∃ front rest torn lists, xs = front ++ rest ∧
      buffer ++ chunks.flatten = front.flatMap enc ++ torn ∧ Torn enc rest torn ∧
      feed decode buffer chunks = (lists, .ok torn) ∧ lists.length = chunks.length ∧
      lists.flatten = front.map val := by
  induction chunks generalizing xs buffer with
  | nil =>
    rw [List.flatten_nil, List.append_nil] at hpre ⊢
    have htorn : Torn enc xs buffer := by
      cases xs with
      | nil => exact List.prefix_nil.mp hpre
      | cons x xs =>
        have hlt := h.length_lt_of_none hnone (by have := hpre.length_le; omega) hpre
        exact ⟨List.prefix_of_prefix_length_le hpre (List.prefix_append _ _) (by omega), hlt⟩
    exact ⟨[], xs, buffer, [], rfl, rfl, htorn, rfl, rfl, rfl⟩
  | cons chunk chunks ih =>
    rw [List.flatten_cons, ← List.append_assoc] at hpre ⊢
    obtain ⟨front, rest, torn, rfl, hfront, htorn⟩ :=
      exists_of_prefix_flatMap ((List.prefix_append _ _).trans hpre)
    rw [hfront, List.append_assoc] at hpre ⊢
    rw [List.flatMap_append] at hbound hpre
    rw [List.prefix_append_right_inj] at hpre
    have hlength := hpre.length_le
    rw [List.length_append] at hbound hlength
    -- after the first chunk the torn frame is in the buffer
    have htail := h.decode_torn htorn (by omega)
    have hdrain := h.drain_none front htail (by rw [List.length_append]; omega)
    obtain ⟨front', rest', torn', lists, rfl, hfront', htorn', hfeed, hcount, hlists⟩ :=
      ih (by omega) htail hpre
    refine ⟨front ++ front', rest', torn', front.map val :: lists, by simp, ?_, htorn', ?_, ?_, ?_⟩
    · rw [hfront', List.flatMap_append, List.append_assoc]
    · simp only [feed, hfront, hdrain, hfeed]
    · rw [List.length_cons, List.length_cons, hcount]
    · rw [List.flatten_cons, hlists, List.map_append]

/-- However a stream of frames is cut, all of them are taken, those that are complete by then
    after each chunk, and nothing is left. -/
theorem feed_stream (h : decode.Reads enc val bound) {xs : List α} {chunks : List (List β)}
    (hbound : (xs.flatMap enc).length < bound) (hstream : chunks.flatten = xs.flatMap enc) :
    ∃ lists, feed decode [] chunks = (lists, .ok []) ∧ lists.length = chunks.length ∧
      lists.flatten = xs.map val ∧
      ∀ n, (lists.take n).flatten =
        (takeFrames enc (chunks.take n).flatten.length xs).map val := by
  have htake : ∀ n, ∃ lists torn, feed decode [] (chunks.take n) = (lists, .ok torn) ∧
      lists.length = (chunks.take n).length ∧
      lists.flatten = (takeFrames enc (chunks.take n).flatten.length xs).map val ∧
      (chunks.take n).flatten =
        (takeFrames enc (chunks.take n).flatten.length xs).flatMap enc ++ torn := by
    intro n
    have hpre : [] ++ (chunks.take n).flatten <+: xs.flatMap enc := by
      rw [← hstream]
      exact ⟨(chunks.drop n).flatten, by
        rw [List.nil_append, ← List.flatten_append, List.take_append_drop]⟩
    obtain ⟨front, rest, torn, lists, hxs, hfront, htorn, hfeed, hcount, hlists⟩ :=
      h.feed_eq hbound h.nil hpre
    rw [List.nil_append] at hfront
    have hframes : takeFrames enc (chunks.take n).flatten.length xs = front := by
      rw [hxs, hfront, takeFrames_of_torn front htorn]
    rw [hframes]
    exact ⟨lists, torn, hfeed, hcount, hlists, hfront⟩
  -- all chunks are the whole stream, and nothing is torn at its end
  obtain ⟨lists, torn, hfeed, hcount, hlists, htorn⟩ := htake chunks.length
  have hall : takeFrames enc (xs.flatMap enc).length xs = xs := by
    simpa using takeFrames_of_torn xs (show Torn enc [] [] from rfl)
  rw [List.take_length, hstream, hall] at hlists htorn
  rw [List.take_length] at hfeed hcount
  obtain rfl : torn = [] := by simpa using htorn
  refine ⟨lists, hfeed, hcount, hlists, fun n => ?_⟩
  obtain ⟨lists', torn', hfeed', -, hlists', -⟩ := htake n
  have hfirst := feed_take decode [] chunks n
  rw [hfeed, hfeed'] at hfirst
  rw [← hfirst, hlists']

/-- After some chunk all frames are there, and what is there of the symbols behind them is
    not refused. -/
def Pauses (decode : Decoder β γ ε) (enc : α → List β) (xs : List α) (buffer : List β)
    (chunks : List (List β)) : Prop :=
  ∃ front back, chunks = front ++ back ∧
    (xs.flatMap enc).length ≤ (buffer ++ front.flatten).length ∧
    decode ((buffer ++ front.flatten).drop (xs.flatMap enc).length) = .ok none

/-- A chunk that does not complete the frames. -/
private theorem pauses_cons_iff {front rest : List α}
    {buffer chunk torn : List β} {chunks : List (List β)}
    (hfront : buffer ++ chunk = front.flatMap enc ++ torn)
    (hless : (buffer ++ chunk).length < ((front ++ rest).flatMap enc).length) :
    Pauses decode enc (front ++ rest) buffer (chunk :: chunks) ↔
      Pauses decode enc rest torn chunks := by
  have hshift : ∀ more : List (List β), buffer ++ (chunk :: more).flatten =
      front.flatMap enc ++ (torn ++ more.flatten) := by
    intro more
    rw [List.flatten_cons, ← List.append_assoc, hfront, List.append_assoc]
  constructor
  · rintro ⟨front', back, hchunks, hlength, hdecode⟩
    cases front' with
    | nil =>
      -- before the chunk too little is there to pause
      simp only [List.flatten_nil, List.append_nil, List.length_append] at hlength hless
      omega
    | cons first front' =>
      obtain ⟨rfl, rfl⟩ := List.cons.inj hchunks
      rw [hshift, List.flatMap_append, List.length_append, List.length_append] at hlength
      rw [hshift, List.flatMap_append, List.length_append, List.drop_length_add_append] at hdecode
      exact ⟨front', back, rfl, by omega, hdecode⟩
  · rintro ⟨front', back, rfl, hlength, hdecode⟩
    refine ⟨chunk :: front', back, rfl, ?_, ?_⟩
    · rw [hshift, List.flatMap_append, List.length_append, List.length_append]
      omega
    · rwa [hshift, List.flatMap_append, List.length_append, List.drop_length_add_append]

/-- A chunk that completes the frames and ends with symbols that are refused. -/
private theorem pauses_cons_iff_of_error (h : decode.Reads enc val bound)
    (hs : decode.Stable bound) {xs : List α} {buffer chunk part : List β}
    {chunks : List (List β)} {error : ε} (hnone : decode buffer = .ok none)
    (hpart : buffer ++ chunk = xs.flatMap enc ++ part) (hdecode : decode part = .error error)
    (hbound : (xs.flatMap enc ++ (part ++ chunks.flatten)).length < bound) :
    Pauses decode enc xs buffer (chunk :: chunks) ↔ xs = [] := by
  constructor
  · rintro ⟨front, back, hchunks, hlength, hpause⟩
    cases front with
    | nil =>
      -- the buffer holds no frame
      cases xs with
      | nil => rfl
      | cons x xs =>
        rw [List.flatMap_cons, List.append_assoc] at hpart
        have hpre : buffer <+: enc x ++ (xs.flatMap enc ++ part) := hpart ▸ List.prefix_append _ _
        have hle := hpre.length_le
        simp only [List.flatten_nil, List.append_nil, List.flatMap_cons, List.length_append]
          at hlength hbound hle
        have hlt := h.length_lt_of_none hnone (by omega) hpre
        omega
    | cons first front =>
      -- the refused symbols stay refused
      obtain rfl : chunk = first := (List.cons.inj hchunks).1
      have hback : chunks = front ++ back := (List.cons.inj hchunks).2
      rw [List.flatten_cons, ← List.append_assoc, hpart, List.append_assoc, List.drop_left] at hpause
      simp only [hback, List.flatten_append, List.length_append] at hbound
      obtain ⟨error', herror'⟩ :=
        hs.error front.flatten (by rw [List.length_append]; omega) hdecode
      cases hpause.symm.trans herror'
  · rintro rfl
    exact ⟨[], chunk :: chunks, rfl, Nat.zero_le _, by simpa using hnone⟩

/-- However a stream of frames that ends with symbols that are refused is cut, there is an
    error in the end, and all frames are taken before it exactly if the chunks pause. -/
theorem feed_malformed_iff (h : decode.Reads enc val bound) (hs : decode.Stable bound)
    {xs : List α} {buffer tail : List β} {chunks : List (List β)} {error : ε}
    (hbound : (xs.flatMap enc ++ tail).length < bound) (hnone : decode buffer = .ok none)
    (hstream : buffer ++ chunks.flatten = xs.flatMap enc ++ tail)
    (herror : decode tail = .error error) :
    (∃ error', (feed decode buffer chunks).2 = .error error') ∧
      ((feed decode buffer chunks).1.flatten = xs.map val ↔
        Pauses decode enc xs buffer chunks) := by
  induction chunks generalizing xs buffer with
  | nil =>
    -- the whole stream cannot wait
    rw [List.flatten_nil, List.append_nil] at hstream
    subst hstream
    cases xs with
    | nil => cases hnone.symm.trans herror
    | cons x xs =>
      rw [List.flatMap_cons, List.append_assoc] at hnone hbound
      cases hnone.symm.trans (h.whole x _ hbound)
  | cons chunk chunks ih =>
    rw [List.flatten_cons, ← List.append_assoc] at hstream
    by_cases hless : (buffer ++ chunk).length < (xs.flatMap enc).length
    · -- the first chunk does not complete the frames
      have hpre : buffer ++ chunk <+: xs.flatMap enc :=
        List.prefix_of_prefix_length_le (hstream ▸ List.prefix_append _ _)
          (List.prefix_append _ _) (by omega)
      obtain ⟨front, rest, torn, rfl, hfront, htorn⟩ := exists_of_prefix_flatMap hpre
      have hrest : torn ++ chunks.flatten = rest.flatMap enc ++ tail := by
        rw [hfront, List.flatMap_append, List.append_assoc, List.append_assoc] at hstream
        exact List.append_cancel_left hstream
      have hlength := congrArg List.length hrest
      rw [List.flatMap_append] at hbound
      simp only [List.length_append] at hbound hlength
      have htail := h.decode_torn htorn (by omega)
      have hdrain := h.drain_none front htail (by rw [List.length_append]; omega)
      obtain ⟨herror', hiff⟩ := ih (by rw [List.length_append]; omega) htail hrest
      rw [pauses_cons_iff hfront hless, ← hiff]
      simp only [feed, hfront, hdrain, List.flatten_cons, List.map_append]
      exact ⟨herror', List.append_right_inj _⟩
    · -- the first chunk completes the frames and holds a part of the refused symbols
      obtain ⟨part, hpart⟩ : xs.flatMap enc <+: buffer ++ chunk :=
        List.prefix_of_prefix_length_le (List.prefix_append _ tail)
          (hstream ▸ List.prefix_append _ _) (by omega)
      rw [← hpart, List.append_assoc] at hstream
      obtain rfl := List.append_cancel_left hstream
      have hshort : (xs.flatMap enc ++ part).length < bound := by
        simp only [List.length_append] at hbound ⊢
        omega
      cases hdecode : decode part with
      | error error' =>
        rw [h.pauses_cons_iff_of_error hs hnone hpart.symm hdecode hbound]
        simp only [feed, ← hpart, h.drain_error xs hdecode hshort]
        exact ⟨⟨error', rfl⟩, eq_comm.trans List.map_eq_nil_iff⟩
      | ok frame =>
        cases frame with
        | some frame =>
          rw [List.length_append] at hbound
          obtain ⟨frame', hframe'⟩ := hs.some chunks.flatten (by omega) hdecode
          cases hframe'.symm.trans herror
        | none =>
          have hpauses : Pauses decode enc xs buffer (chunk :: chunks) :=
            ⟨[chunk], chunks, rfl, by simp [← hpart], by simpa [← hpart] using hdecode⟩
          -- no frame is left to take
          rw [List.length_append] at hbound
          have hbound' : (part ++ chunks.flatten).length < bound := by omega
          obtain ⟨herror', hiff⟩ := @ih [] part hbound' hdecode rfl
          have hnil := hiff.mpr ⟨[], chunks, rfl, Nat.zero_le _, by simpa using hdecode⟩
          simp only [feed, ← hpart, h.drain_none xs hdecode hshort, List.flatten_cons, hnil,
            List.map_nil, List.append_nil, hpauses]
          exact ⟨herror', trivial⟩

end Reads

end Decoder
