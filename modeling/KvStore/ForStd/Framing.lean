import Mathlib.Data.List.Basic

/-!
# Streams of frames

A stream is the concatenation `xs.flatMap enc` of the encodings of a list of frames.
`takeFrames enc n xs` are the frames that lie wholly within its first `n` symbols; what
is left of these symbols is a proper prefix of the next frame (`exists_take_flatMap`).
-/

variable {α β : Type*} (enc : α → List β)

/-- The frames of the stream of `xs` that lie wholly within its first `n` symbols. -/
def takeFrames : Nat → List α → List α
  | _, [] => []
  | n, x :: xs =>
    if (enc x).length ≤ n then x :: takeFrames (n - (enc x).length) xs else []

/-- `torn` is what an interrupted stream may hold of the first of the frames `rest`: a
    proper prefix of it. -/
def Torn (rest : List α) (torn : List β) : Prop :=
  match rest with
  | [] => torn = []
  | x :: _ => torn <+: enc x ∧ torn.length < (enc x).length

variable {enc}

/-- The beginning of a stream is a stream of whole frames and a torn frame. -/
theorem exists_take_flatMap (n : Nat) (xs : List α) (hn : n ≤ (xs.flatMap enc).length) :
    ∃ rest torn, xs = takeFrames enc n xs ++ rest ∧
      (xs.flatMap enc).take n = (takeFrames enc n xs).flatMap enc ++ torn ∧
      Torn enc rest torn := by
  induction xs generalizing n with
  | nil => exact ⟨[], [], rfl, by simp [takeFrames], rfl⟩
  | cons x xs ih =>
    rw [List.flatMap_cons, List.length_append] at hn
    unfold takeFrames
    split
    · obtain ⟨rest, torn, hxs, htake, htorn⟩ := ih (n - (enc x).length) (by omega)
      refine ⟨rest, torn, congrArg (x :: ·) hxs, ?_, htorn⟩
      rw [List.flatMap_cons, List.flatMap_cons, List.take_append, htake, List.append_assoc,
        List.take_of_length_le (by omega)]
    · refine ⟨x :: xs, (enc x).take n, rfl, ?_, List.take_prefix n (enc x), ?_⟩
      · rw [List.flatMap_cons, List.take_append_of_le_length (by omega)]
        rfl
      · rw [List.length_take]
        omega

/-- A beginning of a stream consists of whole frames and a torn frame. -/
theorem exists_of_prefix_flatMap {part : List β} {xs : List α} (h : part <+: xs.flatMap enc) :
    ∃ front rest torn, xs = front ++ rest ∧ part = front.flatMap enc ++ torn ∧
      Torn enc rest torn := by
  obtain ⟨rest, torn, hxs, htake, htorn⟩ := exists_take_flatMap part.length xs h.length_le
  exact ⟨_, rest, torn, hxs, (List.prefix_iff_eq_take.mp h).trans htake, htorn⟩

/-- A beginning of a stream with something else behind it. -/
theorem exists_of_prefix_flatMap_append {part tail : List β} {xs : List α}
    (h : part <+: xs.flatMap enc ++ tail) :
    ∃ front rest torn, xs = front ++ rest ∧ part = front.flatMap enc ++ torn ∧
      (Torn enc rest torn ∨ rest = [] ∧ torn <+: tail) := by
  rcases Nat.le_total part.length (xs.flatMap enc).length with hle | hle
  · obtain ⟨front, rest, torn, hxs, hpart, htorn⟩ := exists_of_prefix_flatMap
      (List.prefix_of_prefix_length_le h (List.prefix_append _ _) hle)
    exact ⟨front, rest, torn, hxs, hpart, .inl htorn⟩
  · obtain ⟨torn, rfl⟩ := List.prefix_of_prefix_length_le (List.prefix_append _ _) h hle
    exact ⟨xs, [], torn, (List.append_nil xs).symm, rfl,
      .inr ⟨rfl, (List.prefix_append_right_inj _).mp h⟩⟩

/-- The whole frames in front of a torn frame are those that `takeFrames` takes. -/
theorem takeFrames_of_torn (front : List α) {rest : List α} {torn : List β}
    (htorn : Torn enc rest torn) :
    takeFrames enc (front.flatMap enc ++ torn).length (front ++ rest) = front := by
  induction front with
  | nil =>
    cases rest with
    | nil => rfl
    | cons x rest => exact if_neg (Nat.not_le.mpr htorn.2)
  | cons x front ih =>
    rw [List.flatMap_cons, List.append_assoc, List.length_append, List.cons_append, takeFrames,
      if_pos (Nat.le_add_right _ _), Nat.add_sub_cancel_left, ih]
