import KvStore.ForStd.Words
import KvStore.Spec.CommandExecution

/-!
# Commands on a line and commands in tokens

`Execute` takes a command as a line or as tokens. A line that is made of tokens, with blanks
between and around them, does what the tokens do (`executeLine_eq_execute`): the line is taken
apart into the same tokens, and a `PUT` takes what is behind its key as one value.
-/

namespace KvStore

/-- The characters that are no blanks for `std::isspace`. -/
def isText (ch : UInt8) : Bool := !isspace ch

/-- What follows the first word of a text. -/
def afterWord (text : Bytes) : Bytes := (text.dropWhile isspace).dropWhile isText

/-- What is behind the first word ends the text. -/
theorem afterWord_suffix (text : Bytes) : afterWord text <:+ text :=
  (List.dropWhile_suffix isText).trans (List.dropWhile_suffix isspace)

/-- Blanks at the end stay behind the first word. -/
theorem afterWord_append_blanks {text blanks : Bytes} (h : ∀ ch ∈ blanks, isspace ch)
    (htext : text.dropWhile isspace ≠ []) :
    afterWord (text ++ blanks) = afterWord text ++ blanks ∧
      ((text ++ blanks).dropWhile isspace).takeWhile isText =
        (text.dropWhile isspace).takeWhile isText := by
  have hsplit := takeWhile_append_blanks h (text.dropWhile isspace)
  rw [afterWord, dropWhile_append_blanks h, if_neg htext]
  exact ⟨hsplit.2, hsplit.1⟩

/-- A text that does not only hold blanks has a first word. -/
theorem firstWord_ne_nil {text : Bytes} (h : text.dropWhile isspace ≠ []) :
    (text.dropWhile isspace).takeWhile isText ≠ [] := by
  have hnot := text.head?_dropWhile_not isspace
  obtain ⟨ch, rest, hcons⟩ := List.exists_cons_of_ne_nil h
  rw [hcons] at hnot ⊢
  simp only [List.head?_cons] at hnot
  rw [List.takeWhile_cons_of_pos (by simpa [isText] using hnot)]
  exact List.cons_ne_nil _ _

/-- A text without blanks at its ends begins with its first word. -/
theorem dropWhile_of_bare {text : Bytes} (h : Bare isspace text) : text.dropWhile isspace = text := by
  cases text with
  | nil => rfl
  | cons ch text => exact List.dropWhile_cons_of_neg (by simp [h ch (.inl rfl)])

/-! ## The server -/

namespace CommandProcessor

/-- What is behind the token at a position. -/
theorem drop_findTokenEnd (text : Bytes) (pos : Nat) :
    text.drop (findTokenEnd text pos) = (text.drop pos).dropWhile isText := by
  rw [findTokenEnd, ← List.drop_drop]
  exact drop_length_takeWhile isText _

/-- The token at a position. -/
theorem substr_findTokenEnd (text : Bytes) (pos : Nat) :
    substr text pos (findTokenEnd text pos - pos) = (text.drop pos).takeWhile isText := by
  rw [findTokenEnd, Nat.add_sub_cancel_left]
  exact take_length_takeWhile isText _

/-- What is behind the spaces at a position. -/
theorem drop_skipSpaces (text : Bytes) (pos : Nat) :
    text.drop (skipSpaces text pos) = (text.drop pos).dropWhile isspace := by
  rw [skipSpaces, ← List.drop_drop]
  exact drop_length_takeWhile isspace _

/-- A token ends within the text. -/
theorem findTokenEnd_le {text : Bytes} {pos : Nat} (h : pos ≤ text.length) :
    findTokenEnd text pos ≤ text.length := by
  have hle := (List.takeWhile_prefix isText (l := text.drop pos)).length_le
  rw [List.length_drop] at hle
  show pos + ((text.drop pos).takeWhile isText).length ≤ text.length
  omega

/-- The end of the text is reached when only spaces are left. -/
theorem skipSpaces_eq_length_iff {text : Bytes} {pos : Nat} (h : pos ≤ text.length) :
    skipSpaces text pos = text.length ↔ (text.drop pos).dropWhile isspace = [] := by
  have hle := (List.takeWhile_prefix isspace (l := text.drop pos)).length_le
  rw [List.length_drop] at hle
  rw [← drop_skipSpaces, List.drop_eq_nil_iff]
  unfold skipSpaces
  omega

/-- Spaces end within the text. -/
theorem skipSpaces_le {text : Bytes} {pos : Nat} (h : pos ≤ text.length) :
    skipSpaces text pos ≤ text.length := by
  have hle := (List.takeWhile_prefix isspace (l := text.drop pos)).length_le
  rw [List.length_drop] at hle
  unfold skipSpaces
  omega

/-- The arguments of a line are its words. -/
theorem splitArgs_eq_words {text : Bytes} {fuel cursor : Nat} (hfuel : text.length ≤ fuel + cursor)
    (hhead : ∀ ch, (text.drop cursor).head? = some ch → isspace ch = false) :
    splitArgs text fuel cursor = words isspace (text.drop cursor) := by
  -- by induction on the fuel, which bounds what is left of the text
  induction fuel generalizing cursor with
  | zero =>
    rw [splitArgs, List.drop_eq_nil_of_le (by omega), words_nil]
  | succ fuel ih =>
    rw [splitArgs]
    split
    · rename_i hless
      have hne : text.drop cursor ≠ [] := by
        rw [Ne, List.drop_eq_nil_iff]
        omega
      rw [words_of_head hne hhead]
      show _ = (text.drop cursor).takeWhile isText ::
        words isspace ((text.drop cursor).dropWhile isText)
      -- the token holds at least one character
      have hforward : cursor < skipSpaces text (findTokenEnd text cursor) := by
        obtain ⟨ch, rest, hdrop⟩ := List.exists_cons_of_ne_nil hne
        have hch : isspace ch = false := hhead ch (by rw [hdrop]; rfl)
        have htoken : 0 < ((text.drop cursor).takeWhile fun ch => !isspace ch).length := by
          rw [hdrop, List.takeWhile_cons_of_pos (by simp [hch])]
          exact Nat.succ_pos _
        unfold skipSpaces findTokenEnd
        omega
      have hhead' : ∀ ch, (text.drop (skipSpaces text (findTokenEnd text cursor))).head? = some ch →
          isspace ch = false := by
        intro ch hch
        rw [drop_skipSpaces] at hch
        have hnot := (text.drop (findTokenEnd text cursor)).head?_dropWhile_not isspace
        rw [hch] at hnot
        simpa using hnot
      show substr text cursor (findTokenEnd text cursor - cursor) ::
        splitArgs text fuel (skipSpaces text (findTokenEnd text cursor)) = _
      rw [substr_findTokenEnd, ih (by omega) hhead', drop_skipSpaces, words_dropWhile,
        drop_findTokenEnd]
    · rename_i hless
      rw [List.drop_eq_nil_of_le (by omega), words_nil]

/-- `Execute` on a line, in terms of the text without the blanks at its ends. -/
theorem executeLine_eq {σ : Type} (calls : StoreCalls σ) (store : σ) (line : Bytes) :
    executeLine calls store line =
      let text := trimBy isspace line
      let args := afterWord text
      if text = [] then (store, .ok (ascii "ERROR empty command\r\n"))
      else if toUpper (text.takeWhile isText) = ascii "PUT" then
        if args.dropWhile isspace = [] then
          (store, .ok (ascii "ERROR usage: PUT <key> <value>\r\n"))
        else if (afterWord args).dropWhile isspace = [] then
          (store, .ok (ascii "ERROR usage: PUT <key> <value>\r\n"))
        else
          executeCommand calls store (ascii "PUT")
            [(args.dropWhile isspace).takeWhile isText, (afterWord args).dropWhile isspace]
      else executeCommand calls store (toUpper (text.takeWhile isText)) (words isspace args) := by
  have htrim : trim line = trimBy isspace line := rfl
  rw [executeLine, htrim]
  generalize htext : trimBy isspace line = text
  have hbare : Bare isspace text := htext ▸ bare_trimBy isspace line
  have hargs : afterWord text = text.dropWhile isText := by
    rw [afterWord, dropWhile_of_bare hbare]
  -- the positions in the text
  have hcommand : substr text 0 (findTokenEnd text 0) = text.takeWhile isText :=
    substr_findTokenEnd text 0
  have hfirst : text.drop (findTokenEnd text 0) = afterWord text := by
    rw [hargs]
    exact drop_findTokenEnd text 0
  have hbegin : text.drop (skipSpaces text (findTokenEnd text 0)) =
      (afterWord text).dropWhile isspace := by rw [drop_skipSpaces, hfirst]
  have hcommandEnd : findTokenEnd text 0 ≤ text.length := findTokenEnd_le (Nat.zero_le _)
  simp only [hcommand]
  generalize hargsBegin : skipSpaces text (findTokenEnd text 0) = argsBegin at hbegin ⊢
  -- there are no arguments if only blanks follow the command
  have hnone : argsBegin = text.length ↔ (afterWord text).dropWhile isspace = [] := by
    rw [← hargsBegin, skipSpaces_eq_length_iff hcommandEnd, hfirst]
  have hle : argsBegin ≤ text.length := hargsBegin ▸ skipSpaces_le hcommandEnd
  have hsecond : text.drop (findTokenEnd text argsBegin) = afterWord (afterWord text) := by
    rw [drop_findTokenEnd, hbegin]
    rfl
  simp only [hnone, skipSpaces_eq_length_iff (findTokenEnd_le hle), hsecond,
    substr_findTokenEnd, hbegin, drop_skipSpaces]
  split
  · rfl
  · split
    · rename_i hput
      rw [hput]
    · have hhead : ∀ ch, (text.drop argsBegin).head? = some ch → isspace ch = false := by
        intro ch hch
        rw [hbegin] at hch
        have hnot := (afterWord text).head?_dropWhile_not isspace
        rw [hch] at hnot
        simpa using hnot
      rw [splitArgs_eq_words (Nat.le_add_right _ _) hhead, hbegin, words_dropWhile]

/-- What `Execute` does with the arguments of a `PUT` on a line. -/
def executePutLine {σ : Type} (calls : StoreCalls σ) (store : σ) (args : Bytes) :
    σ × Except String Bytes :=
  if args.dropWhile isspace = [] then
    (store, .ok (ascii "ERROR usage: PUT <key> <value>\r\n"))
  else if (afterWord args).dropWhile isspace = [] then
    (store, .ok (ascii "ERROR usage: PUT <key> <value>\r\n"))
  else
    executeCommand calls store (ascii "PUT")
      [(args.dropWhile isspace).takeWhile isText, (afterWord args).dropWhile isspace]

/-! ## Lines of tokens -/

/-- A token that is a word of a line. -/
structure IsWord (token : Bytes) : Prop where
  ne_nil : token ≠ []
  text : ∀ ch ∈ token, isspace ch = false

/-- The tokens of a command that a line can hold: words, no more than a key and a value behind
    a `PUT`. The value of a `PUT` may hold blanks inside. -/
inductive OnLine : List Bytes → Prop where
  | words {tokens : List Bytes} (hwords : ∀ token ∈ tokens, IsWord token)
      (hput : ∀ command args, tokens = command :: args → toUpper command = ascii "PUT" →
        args.length ≤ 2) : OnLine tokens
  | put {command key value : Bytes} (hcommand : IsWord command)
      (hput : toUpper command = ascii "PUT") (hkey : IsWord key) (hvalue : value ≠ [])
      (hbare : Bare isspace value) : OnLine [command, key, value]

variable {σ : Type}

/-- A word has no blank at its ends. -/
theorem IsWord.bare {token : Bytes} (h : IsWord token) : token ≠ [] ∧ Bare isspace token := by
  refine ⟨h.ne_nil, fun ch hch => h.text ch ?_⟩
  exact hch.elim List.mem_of_head? List.mem_of_getLast?

/-- No token is empty, begins with a blank or ends with one. -/
theorem OnLine.bare {tokens : List Bytes} (h : OnLine tokens) :
    ∀ token ∈ tokens, token ≠ [] ∧ Bare isspace token := by
  cases h with
  | words hwords => exact fun token htoken => (hwords token htoken).bare
  | put hcommand _ hkey hvalue hbare =>
    simp only [List.mem_cons, List.not_mem_nil, or_false, forall_eq_or_imp, forall_eq]
    exact ⟨hcommand.bare, hkey.bare, hvalue, hbare⟩

/-- The command word is a word. -/
theorem OnLine.command {command : Bytes} {args : List Bytes} (h : OnLine (command :: args)) :
    IsWord command := by
  cases h with
  | words hwords => exact hwords command List.mem_cons_self
  | put hcommand => exact hcommand

/-- The key of a `PUT` is a word. -/
theorem OnLine.key {command key : Bytes} {args : List Bytes} (h : OnLine (command :: key :: args)) :
    IsWord key := by
  cases h with
  | words hwords => exact hwords key (by simp)
  | put _ _ hkey => exact hkey

/-- Nothing stands behind the value of a `PUT`. -/
theorem OnLine.nil_of_put {command key value : Bytes} {args : List Bytes}
    (h : OnLine (command :: key :: value :: args)) (hput : toUpper command = ascii "PUT") :
    args = [] := by
  cases h with
  | words _ hlength =>
    have hle := hlength command (key :: value :: args) rfl hput
    exact List.eq_nil_of_length_eq_zero (by simpa using hle)
  | put => rfl

/-- The arguments of another command are words. -/
theorem OnLine.words_of_not_put {command : Bytes} {args : List Bytes} (h : OnLine (command :: args))
    (hput : toUpper command ≠ ascii "PUT") :
    ∀ token ∈ args, token ≠ [] ∧ ∀ ch ∈ token, isspace ch = false := by
  cases h with
  | words hwords =>
    intro token htoken
    have hword := hwords token (List.mem_cons_of_mem command htoken)
    exact ⟨hword.ne_nil, hword.text⟩
  | put _ hput' => exact absurd hput' hput

/-- The first word of a line, and what is behind it. -/
theorem afterWord_word {word behind : Bytes} (hword : IsWord word)
    (hbehind : ∀ ch, behind.head? = some ch → isspace ch) :
    ((word ++ behind).dropWhile isspace).takeWhile isText = word ∧
      afterWord (word ++ behind) = behind := by
  obtain ⟨ch, word, rfl⟩ := List.exists_cons_of_ne_nil hword.ne_nil
  have hch : isspace ch = false := hword.text ch List.mem_cons_self
  have hdrop : (ch :: word ++ behind).dropWhile isspace = ch :: word ++ behind :=
    List.dropWhile_cons_of_neg (by simp [hch])
  rw [afterWord, hdrop]
  exact takeWhile_word hword.text hbehind

/-- A `PUT` with the arguments of a line is the `PUT` with the tokens that the line is made of. -/
private theorem executePutLine_joins (calls : StoreCalls σ) (store : σ) {command behind : Bytes}
    {args : List Bytes} (htokens : OnLine (command :: args)) (hput : toUpper command = ascii "PUT")
    (hjoins : Joins isspace args (behind.dropWhile isspace)) :
    executePutLine calls store behind = executeCommand calls store (ascii "PUT") args := by
  have hbare := htokens.bare
  generalize hline : behind.dropWhile isspace = line at hjoins
  unfold executePutLine
  rw [executeCommand_put, hline]
  cases args with
  | nil =>
    cases hjoins
    exact if_pos rfl
  | cons key args =>
    -- the key is a word, so the value begins behind the next blanks
    have hkey : IsWord key := htokens.key
    obtain ⟨behind', rfl, hbehind', hjoins'⟩ := hjoins.exists_behind fun token htoken =>
      hbare token (by simp [htoken])
    obtain ⟨hword, hafter⟩ := afterWord_word hkey hbehind'
    have hvalue : afterWord behind = behind' := by
      rw [← hafter, ← hline, afterWord, afterWord, List.dropWhile_idempotent]
    have hkeyLine : (key ++ behind').takeWhile isText = key :=
      (takeWhile_word hkey.text hbehind').1
    rw [if_neg (by simp [hkey.ne_nil]), hvalue, hkeyLine]
    generalize behind'.dropWhile isspace = line at hjoins'
    cases args with
    | nil =>
      cases hjoins'
      exact if_pos rfl
    | cons value args =>
      -- the tokens of a `PUT` are three, so the rest of the line is the value
      have hargs : args = [] := htokens.nil_of_put hput
      have hvalueNe : value ≠ [] := (hbare value (by simp)).1
      subst hargs
      cases hjoins'
      rw [if_neg hvalueNe, executeCommand_put]

/-- A line that is made of tokens, with blanks between and around them, does what the tokens do. -/
theorem executeLine_eq_execute (calls : StoreCalls σ) (store : σ) {tokens : List Bytes}
    {front text back : Bytes} (htokens : OnLine tokens) (hjoins : Joins isspace tokens text)
    (hfront : ∀ ch ∈ front, isspace ch) (hback : ∀ ch ∈ back, isspace ch) :
    executeLine calls store (front ++ (text ++ back)) = execute calls store tokens := by
  have htrim : trimBy isspace (front ++ (text ++ back)) = text := by
    rw [trimBy_append hfront hback, trimBy_of_bare (hjoins.bare htokens.bare)]
  rw [executeLine_eq]
  simp only [htrim]
  cases tokens with
  | nil =>
    cases hjoins
    exact if_pos rfl
  | cons command args =>
    have hcommand := htokens.command
    obtain ⟨behind, rfl, hbehind, hargs⟩ := hjoins.exists_behind fun token htoken =>
      htokens.bare token (List.mem_cons_of_mem command htoken)
    -- the command ends at the first blank
    have hword : (command ++ behind).takeWhile isText = command :=
      (takeWhile_word hcommand.text hbehind).1
    rw [if_neg (by simp [hcommand.ne_nil]), hword, (afterWord_word hcommand hbehind).2, execute]
    by_cases hput : toUpper command = ascii "PUT"
    · -- the value of a `PUT` is the rest of the line, so that it may hold blanks
      rw [if_pos hput, hput]
      exact executePutLine_joins calls store htokens hput hargs
    · have hwords := hargs.words_eq (htokens.words_of_not_put hput)
      rw [words_dropWhile] at hwords
      rw [if_neg hput, hwords]

/-- A `PUT` in small letters whose value holds a blank. -/
theorem executeLine_eq_execute_put :
    executeLine (KVStore.calls {}) KVStore.fresh
        (ascii " " ++ (ascii "put" ++ (ascii "\t" ++ (ascii "k" ++ (ascii "  " ++ ascii "a b"))) ++
          ascii "\r\n")) =
      execute (KVStore.calls {}) KVStore.fresh [ascii "put", ascii "k", ascii "a b"] := by
  have hcommand : IsWord (ascii "put") := ⟨by decide, by decide +kernel⟩
  have hkey : IsWord (ascii "k") := ⟨by decide, by decide +kernel⟩
  have hbare : Bare isspace (ascii "a b") := by
    have hends : (ascii "a b").head? = some 97 ∧ (ascii "a b").getLast? = some 98 := by decide
    simp only [Bare, hends, Option.some.injEq]
    rintro ch (rfl | rfl) <;> decide
  have hjoins : Joins isspace [ascii "put", ascii "k", ascii "a b"]
      (ascii "put" ++ (ascii "\t" ++ (ascii "k" ++ (ascii "  " ++ ascii "a b")))) :=
    .cons _ (by decide) (by decide +kernel)
      (.cons _ (by decide) (by decide +kernel) (.single _))
  have hfront : ∀ ch ∈ ascii " ", isspace ch := by decide +kernel
  have hback : ∀ ch ∈ ascii "\r\n", isspace ch := by decide +kernel
  exact executeLine_eq_execute (KVStore.calls {}) KVStore.fresh
    (.put hcommand (by decide) hkey (by decide) hbare) hjoins hfront hback

end CommandProcessor

end KvStore
