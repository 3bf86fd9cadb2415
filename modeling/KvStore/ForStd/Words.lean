import Mathlib.Data.List.TakeWhile

/-!
# Words between blanks

`p` says which symbols are blanks. `trimBy p` takes the blanks off both ends of a list, and
`words p` splits it at the blanks.
-/

variable {α : Type*}

/-- The list without the blanks at its ends. -/
def trimBy (p : α → Bool) (s : List α) : List α :=
  ((s.dropWhile p).reverse.dropWhile p).reverse

/-- The list neither begins nor ends with a blank. -/
def Bare (p : α → Bool) (s : List α) : Prop :=
  ∀ c, s.head? = some c ∨ s.getLast? = some c → p c = false

variable {p q : α → Bool}

/-- The beginning that meets the condition, taken by its length. -/
theorem take_length_takeWhile (p : α → Bool) (s : List α) :
    s.take (s.takeWhile p).length = s.takeWhile p := by
  induction s with
  | nil => rfl
  | cons c s ih =>
    by_cases hc : p c
    · simp [hc, ih]
    · simp [hc]

/-- What is behind the beginning that meets the condition. -/
theorem drop_length_takeWhile (p : α → Bool) (s : List α) :
    s.drop (s.takeWhile p).length = s.dropWhile p := by
  induction s with
  | nil => rfl
  | cons c s ih =>
    by_cases hc : p c
    · simp [hc, ih]
    · simp [hc]

/-- Blanks behind a text stay, unless nothing else is left. -/
theorem dropWhile_append_blanks {s blanks : List α} (h : ∀ c ∈ blanks, p c) :
    (s ++ blanks).dropWhile p = if s.dropWhile p = [] then [] else s.dropWhile p ++ blanks := by
  rw [List.dropWhile_append, List.dropWhile_eq_nil_iff.mpr h]
  simp only [List.isEmpty_iff]

/-- The end of a list ends as the list does. -/
theorem getLast?_of_suffix {s t : List α} (h : s <:+ t) {c : α} (hc : s.getLast? = some c) :
    t.getLast? = some c := by
  obtain ⟨front, rfl⟩ := h
  rw [List.getLast?_append, hc]
  rfl

/-- Blanks at the ends play no part. -/
theorem trimBy_append {front back : List α} (hfront : ∀ c ∈ front, p c) (hback : ∀ c ∈ back, p c)
    (s : List α) : trimBy p (front ++ (s ++ back)) = trimBy p s := by
  unfold trimBy
  rw [List.dropWhile_append_of_pos hfront, dropWhile_append_blanks hback]
  split
  · rename_i hnil
    rw [hnil]
  · rw [List.reverse_append, List.dropWhile_append_of_pos (by simpa using hback)]

/-- A list is what is left when it is trimmed, between blanks. -/
theorem exists_trimBy (p : α → Bool) (s : List α) :
    ∃ front back, s = front ++ (trimBy p s ++ back) ∧ (∀ c ∈ front, p c) ∧ ∀ c ∈ back, p c := by
  refine ⟨s.takeWhile p, ((s.dropWhile p).reverse.takeWhile p).reverse, ?_,
    fun c => List.mem_takeWhile_imp, fun c hc => ?_⟩
  · rw [trimBy, ← List.reverse_append, List.takeWhile_append_dropWhile, List.reverse_reverse,
      List.takeWhile_append_dropWhile]
  · exact List.mem_takeWhile_imp (List.mem_reverse.mp hc)

/-- A trimmed text has no blank at its ends. -/
theorem bare_trimBy (p : α → Bool) (s : List α) : Bare p (trimBy p s) := by
  have hlast (s : List α) (c : α) (h : (s.dropWhile p).head? = some c) : p c = false := by
    have hnot := s.head?_dropWhile_not p
    rw [h] at hnot
    simpa using hnot
  rintro c (hhead | hback)
  · -- the beginning is that of the list without the blanks in front
    have hpre : trimBy p s <+: s.dropWhile p := by
      have hsuffix : (s.dropWhile p).reverse.dropWhile p <:+ (s.dropWhile p).reverse :=
        List.dropWhile_suffix p
      have hreverse := List.reverse_prefix.mpr hsuffix
      rwa [List.reverse_reverse] at hreverse
    obtain ⟨rest, hrest⟩ := hpre
    refine hlast s c ?_
    rw [← hrest, List.head?_append, hhead]
    rfl
  · rw [trimBy, List.getLast?_reverse] at hback
    exact hlast _ c hback

/-- A list without blanks at its ends stays as it is. -/
theorem trimBy_of_bare {s : List α} (h : Bare p s) : trimBy p s = s := by
  have hdrop {s : List α} (h : ∀ c, s.head? = some c → p c = false) : s.dropWhile p = s := by
    cases s with
    | nil => rfl
    | cons c s => exact List.dropWhile_cons_of_neg (by simp [h c rfl])
  rw [trimBy, hdrop fun c hc => h c (.inl hc),
    hdrop fun c hc => h c (.inr (by rwa [List.head?_reverse] at hc)), List.reverse_reverse]

/-- Nothing is left of blanks only. -/
theorem trimBy_eq_nil_iff {s : List α} : trimBy p s = [] ↔ ∀ c ∈ s, p c := by
  constructor
  · intro hnil c hc
    obtain ⟨front, back, hs, hfront, hback⟩ := exists_trimBy p s
    rw [hs, hnil, List.nil_append, List.mem_append] at hc
    exact hc.elim (hfront c) (hback c)
  · intro hall
    rw [trimBy, List.dropWhile_eq_nil_iff.mpr hall]
    rfl

/-- Behind a list that ends without a blank, only the blanks in front are trimmed. -/
theorem trimBy_eq_dropWhile {s : List α} (h : ∀ c, s.getLast? = some c → p c = false) :
    trimBy p s = s.dropWhile p := by
  have hlast : ∀ c, (s.dropWhile p).reverse.head? = some c → p c = false := by
    intro c hc
    rw [List.head?_reverse] at hc
    exact h c (getLast?_of_suffix (List.dropWhile_suffix p) hc)
  rw [trimBy]
  cases hs : (s.dropWhile p).reverse with
  | nil => rw [List.reverse_eq_nil_iff.mp hs]; rfl
  | cons c rest =>
    rw [List.dropWhile_cons_of_neg (by simp [hlast c (by rw [hs]; rfl)]), ← hs, List.reverse_reverse]

/-- Trimming more symbols makes trimming fewer symbols before superfluous. -/
theorem trimBy_trimBy (h : ∀ c, q c → p c) (s : List α) : trimBy p (trimBy q s) = trimBy p s := by
  obtain ⟨front, back, hs, hfront, hback⟩ := exists_trimBy q s
  have heq := trimBy_append (fun c hc => h c (hfront c hc)) (fun c hc => h c (hback c hc))
    (trimBy q s)
  rw [← hs] at heq
  exact heq.symm

/-! ## Words -/

/-- The words between the blanks. -/
def words (p : α → Bool) : List α → List (List α)
  | [] => []
  | c :: s =>
    if p c then words p s else (c :: s.takeWhile (!p ·)) :: words p (s.dropWhile (!p ·))
termination_by s => s.length
decreasing_by
  · simp
  · have hle := (List.dropWhile_suffix (!p ·) (l := s)).length_le
    simp only [List.length_cons]
    omega

@[simp] theorem words_nil : words p [] = [] := by
  rw [words]

/-- A blank in front of a text adds no word. -/
theorem words_cons_blank {c : α} (hc : p c) (s : List α) : words p (c :: s) = words p s := by
  rw [words, if_pos hc]

/-- The first word of a list that does not begin with a blank. -/
theorem words_of_head {s : List α} (hne : s ≠ []) (h : ∀ c, s.head? = some c → p c = false) :
    words p s = s.takeWhile (!p ·) :: words p (s.dropWhile (!p ·)) := by
  obtain ⟨c, s, rfl⟩ := List.exists_cons_of_ne_nil hne
  have hc := h c rfl
  rw [words, if_neg (by simp [hc]), List.takeWhile_cons_of_pos (by simp [hc]),
    List.dropWhile_cons_of_pos (by simp [hc])]

/-- Leading blanks add no word. -/
theorem words_dropWhile (s : List α) : words p (s.dropWhile p) = words p s := by
  induction s with
  | nil => rfl
  | cons c s ih =>
    by_cases hc : p c
    · rw [List.dropWhile_cons_of_pos hc, words_cons_blank hc, ih]
    · rw [List.dropWhile_cons_of_neg hc]

/-- A word ends where the blanks begin. -/
theorem takeWhile_append_blanks {blanks : List α} (h : ∀ c ∈ blanks, p c) (s : List α) :
    (s ++ blanks).takeWhile (!p ·) = s.takeWhile (!p ·) ∧
      (s ++ blanks).dropWhile (!p ·) = s.dropWhile (!p ·) ++ blanks := by
  induction s with
  | nil =>
    cases blanks with
    | nil => exact ⟨rfl, rfl⟩
    | cons c blanks =>
      have hc := h c List.mem_cons_self
      exact ⟨List.takeWhile_cons_of_neg (by simp [hc]), List.dropWhile_cons_of_neg (by simp [hc])⟩
  | cons c s ih =>
    rw [List.cons_append, List.takeWhile_cons, List.takeWhile_cons, List.dropWhile_cons,
      List.dropWhile_cons, ih.1, ih.2]
    split
    · exact ⟨rfl, rfl⟩
    · exact ⟨rfl, rfl⟩

/-- Blanks at the end play no part. -/
theorem words_append_blanks {blanks : List α} (h : ∀ c ∈ blanks, p c) (s : List α) :
    words p (s ++ blanks) = words p s := by
  induction s using words.induct p with
  | case1 =>
    rw [List.nil_append, ← words_dropWhile, List.dropWhile_eq_nil_iff.mpr h]
  | case2 c s hc ih => rw [List.cons_append, words_cons_blank hc, words_cons_blank hc, ih]
  | case3 c s hc ih =>
    have hsplit := takeWhile_append_blanks h s
    rw [List.cons_append, words, if_neg hc, hsplit.1, hsplit.2, ih, words.eq_2, if_neg hc]

/-- A word ends where a blank follows it. -/
theorem takeWhile_word {word rest : List α} (hword : ∀ c ∈ word, p c = false)
    (hrest : ∀ c, rest.head? = some c → p c) :
    (word ++ rest).takeWhile (!p ·) = word ∧ (word ++ rest).dropWhile (!p ·) = rest := by
  have hword' : ∀ c ∈ word, (!p c) = true := by
    intro c hc
    simp [hword c hc]
  rw [List.takeWhile_append_of_pos hword', List.dropWhile_append_of_pos hword']
  cases rest with
  | nil => simp
  | cons c rest =>
    have hc : p c := hrest c rfl
    simp [hc]

/-! ## Lines of words -/

/-- The words one after another, with at least one blank between any two of them. -/
inductive Joins (p : α → Bool) : List (List α) → List α → Prop where
  | nil : Joins p [] []
  | single (word : List α) : Joins p [word] word
  | cons (word : List α) {gap next s : List α} {rest : List (List α)} (hgap : gap ≠ [])
      (hblank : ∀ c ∈ gap, p c) (hrest : Joins p (next :: rest) s) :
      Joins p (word :: next :: rest) (word ++ (gap ++ s))

namespace Joins

variable {word s : List α} {rest tokens : List (List α)}

/-- A line begins as its first word does. -/
theorem head?_eq (h : Joins p (word :: rest) s) (hword : word ≠ []) : s.head? = word.head? := by
  obtain ⟨c, word, rfl⟩ := List.exists_cons_of_ne_nil hword
  cases h with
  | single => rfl
  | cons => rfl

/-- A line behind its first word: blanks, and the line of the other words. -/
theorem exists_behind (h : Joins p (word :: rest) s) (hrest : ∀ w ∈ rest, w ≠ [] ∧ Bare p w) :
    ∃ behind, s = word ++ behind ∧ (∀ c, behind.head? = some c → p c) ∧
      Joins p rest (behind.dropWhile p) := by
  cases h with
  | single => exact ⟨[], (List.append_nil word).symm, by simp, .nil⟩
  | @cons _ gap next s rest hgap hblank hjoins =>
    refine ⟨gap ++ s, rfl, fun c hc => ?_, ?_⟩
    · obtain ⟨b, gap, rfl⟩ := List.exists_cons_of_ne_nil hgap
      obtain rfl : b = c := by simpa using hc
      exact hblank b List.mem_cons_self
    · -- the next word does not begin with a blank
      obtain ⟨hne, hbare⟩ := hrest next List.mem_cons_self
      have hhead := hjoins.head?_eq hne
      rw [List.dropWhile_append_of_pos hblank]
      cases s with
      | nil => exact hjoins
      | cons c s =>
        have hc : p c = false := hbare c (.inl hhead.symm)
        rwa [List.dropWhile_cons_of_neg (by simp [hc])]

/-- A line of words that neither begin nor end with blanks does not either. -/
theorem bare (h : Joins p tokens s) (hbare : ∀ w ∈ tokens, w ≠ [] ∧ Bare p w) : Bare p s := by
  induction h with
  | nil => simp [Bare]
  | single word => exact (hbare word List.mem_cons_self).2
  | @cons word gap next s rest hgap hblank hjoins ih =>
    obtain ⟨hword, hbareWord⟩ := hbare word List.mem_cons_self
    have hbareRest := ih fun w hw => hbare w (List.mem_cons_of_mem word hw)
    have hs : s ≠ [] := by
      rintro rfl
      have hnext := (hbare next (by simp)).1
      exact hnext (List.head?_eq_none_iff.mp (hjoins.head?_eq hnext).symm)
    obtain ⟨c, s, rfl⟩ := List.exists_cons_of_ne_nil hs
    rintro d (hhead | hlast)
    · obtain ⟨b, word, rfl⟩ := List.exists_cons_of_ne_nil hword
      exact hbareWord d (.inl hhead)
    · have hend : (word ++ (gap ++ c :: s)).getLast? = (c :: s).getLast? := by
        rw [List.getLast?_append, List.getLast?_append, List.getLast?_cons]
        rfl
      exact hbareRest d (.inr (hend ▸ hlast))

/-- The words of a line of words without blanks. -/
theorem words_eq (h : Joins p tokens s) (hwords : ∀ w ∈ tokens, w ≠ [] ∧ ∀ c ∈ w, p c = false) :
    words p s = tokens := by
  induction tokens generalizing s with
  | nil =>
    cases h
    exact words_nil
  | cons word rest ih =>
    obtain ⟨hword, hblank⟩ := hwords word List.mem_cons_self
    have hrest : ∀ w ∈ rest, w ≠ [] ∧ ∀ c ∈ w, p c = false :=
      fun w hw => hwords w (List.mem_cons_of_mem word hw)
    have hbare : ∀ w ∈ rest, w ≠ [] ∧ Bare p w := by
      refine fun w hw => ⟨(hrest w hw).1, fun c hc => (hrest w hw).2 c ?_⟩
      exact hc.elim List.mem_of_head? List.mem_of_getLast?
    obtain ⟨behind, rfl, hbehind, hjoins⟩ := h.exists_behind hbare
    obtain ⟨c, word, rfl⟩ := List.exists_cons_of_ne_nil hword
    have hhead : ∀ d, (c :: word ++ behind).head? = some d → p d = false := by
      intro d hd
      obtain rfl : c = d := by simpa using hd
      exact hblank c List.mem_cons_self
    -- the word ends where the blanks begin, and what is behind them joins the other words
    obtain ⟨htake, hdrop⟩ := takeWhile_word hblank hbehind
    rw [words_of_head (by simp) hhead, htake, hdrop, ← words_dropWhile, ih hjoins hrest]

end Joins
