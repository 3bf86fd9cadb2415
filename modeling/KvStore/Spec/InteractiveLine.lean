import KvStore.Native.Client
import KvStore.Spec.CommandLine

/-!
# Lines that are typed in

The client and the server both take a line apart into a command word and its arguments.
`executeEncoded_eq_executeLine_iff` says for which lines the server does the same with the
tokens of the client as with the line itself.
-/

namespace KvStore

/-! ## The client -/

namespace Client

/-- The stream is read word by word. -/
theorem extractAll_eq_words {fuel : Nat} {stream : Bytes} (h : stream.length ≤ fuel) :
    extractAll fuel stream = words isspace stream := by
  induction fuel generalizing stream with
  | zero => rw [List.eq_nil_of_length_eq_zero (Nat.le_zero.mp h), words_nil, extractAll]
  | succ fuel ih =>
    rw [← words_dropWhile, extractAll, extract]
    have hnot := stream.head?_dropWhile_not isspace
    have hle := (List.dropWhile_suffix isspace (l := stream)).length_le
    cases hdrop : stream.dropWhile isspace with
    | nil => simp
    | cons ch rest =>
      rw [hdrop] at hnot hle
      have hch : isspace ch = false := by simpa using hnot
      have hrest := (List.dropWhile_suffix (!isspace ·) (l := rest)).length_le
      rw [words, if_neg (by simp [hch]), List.takeWhile_cons_of_pos (by simp [hch]),
        List.dropWhile_cons_of_pos (by simp [hch])]
      simp only [List.length_cons] at hle
      exact congrArg _ (ih (by omega))

/-- What the client skips is a space for the server, too. -/
theorem isspace_of_isBlank (ch : UInt8) (h : isBlank ch) : isspace ch := by
  simp only [isBlank, Bool.or_eq_true, decide_eq_true_eq] at h
  obtain ((rfl | rfl) | rfl) | rfl := h <;> decide

/-- The value of a `PUT` that is typed in: what follows the key, without the blanks that the
    client knows. -/
def typedValue (line : Bytes) : Bytes := trimBy isBlank (afterWord (afterWord line))

/-- What `ParseInteractiveCommand` returns for a line that holds more than blanks. -/
theorem parseInteractiveCommand_eq {line : Bytes} (hline : (10 : UInt8) ∉ line)
    (htext : trimBy isspace line ≠ []) :
    parseInteractiveCommand line =
      let text := trimBy isspace line
      let args := afterWord text
      if text.takeWhile isText ∈ putSpellings then
        if args.dropWhile isspace = [] ∨ typedValue line = [] then
          .error "PUT requires key and value"
        else .ok [text.takeWhile isText, (args.dropWhile isspace).takeWhile isText, typedValue line]
      else .ok (text.takeWhile isText :: words isspace args) := by
  obtain ⟨front, back, hblanks, hfront, hback⟩ := exists_trimBy isBlank line
  obtain ⟨front', back', htrim, hfront', hback'⟩ := exists_trimBy isspace (trimBy isBlank line)
  rw [trimBy_trimBy isspace_of_isBlank] at htrim
  have hbare := dropWhile_of_bare (bare_trimBy isspace line)
  generalize trimBy isspace line = text at htext htrim hbare ⊢
  -- the client trims fewer characters than the stream skips
  have hback'' : ∀ ch ∈ back' ++ back, isspace ch := by
    intro ch hch
    exact (List.mem_append.mp hch).elim (hback' ch) fun h => isspace_of_isBlank ch (hback ch h)
  have hne : text.dropWhile isspace ≠ [] := by rwa [hbare]
  -- the command word, and what is behind it in the stream and in the line
  have hfirst : extract (trimBy isBlank line) = (text.takeWhile isText, afterWord text ++ back') := by
    obtain ⟨hafter, hword⟩ := afterWord_append_blanks hback' hne
    rw [hbare] at hword
    rw [extract, htrim, List.dropWhile_append_of_pos hfront']
    exact Prod.ext hword hafter
  -- the same word is found in the whole line
  have hline' : afterWord line = afterWord text ++ (back' ++ back) := by
    have hfronts : ∀ ch ∈ front ++ front', isspace ch := by
      intro ch hch
      exact (List.mem_append.mp hch).elim (fun h => isspace_of_isBlank ch (hfront ch h)) (hfront' ch)
    have hwhole : line = (front ++ front') ++ (text ++ (back' ++ back)) := by
      rw [hblanks, htrim]
      simp
    rw [hwhole, afterWord, List.dropWhile_append_of_pos hfronts]
    exact (afterWord_append_blanks hback'' hne).1
  have hnil : trimBy isBlank line ≠ [] := by
    rw [htrim]
    simp [htext]
  unfold parseInteractiveCommand
  rw [show trim line = trimBy isBlank line from rfl, if_neg hnil]
  simp only [hfirst]
  split
  · by_cases hargs : (afterWord text).dropWhile isspace = []
    · -- there is no key
      have hkey : (extract (afterWord text ++ back')).1 = [] := by
        rw [extract, dropWhile_append_blanks hback', if_pos hargs]
        rfl
      rw [if_pos (.inl hkey), if_pos (.inl hargs)]
    · -- there is a key, and the value is the rest of the line
      obtain ⟨hafter, hword⟩ := afterWord_append_blanks hback' hargs
      have hsecond : extract (afterWord text ++ back') =
          (((afterWord text).dropWhile isspace).takeWhile isText,
            afterWord (afterWord text) ++ back') := by
        rw [extract]
        exact Prod.ext hword hafter
      have hvalue : trim (getline (afterWord (afterWord text) ++ back')) = typedValue line := by
        have hmem : (10 : UInt8) ∉ afterWord (afterWord text) ++ back' := by
          intro hmem
          refine hline ?_
          rw [hblanks, htrim]
          rcases List.mem_append.mp hmem with hmem | hmem
          · have hin := (afterWord_suffix text).subset ((afterWord_suffix _).subset hmem)
            simp [hin]
          · simp [hmem]
        have hall : getline (afterWord (afterWord text) ++ back') =
            afterWord (afterWord text) ++ back' := by
          rw [getline, List.takeWhile_eq_self_iff]
          intro ch hch
          simpa using fun heq : ch = 10 => hmem (heq ▸ hch)
        have htrimmed := @trimBy_append _ isBlank [] back (by simp) hback
          (afterWord (afterWord text) ++ back')
        rw [hall, typedValue, hline', (afterWord_append_blanks hback'' hargs).1,
          ← List.append_assoc]
        exact htrimmed.symm
      simp only [hsecond, hvalue, firstWord_ne_nil hargs, hargs, false_or]
  · rw [extractAll_eq_words le_rfl, words_append_blanks hback']

end Client

/-! ## Lines that are read alike -/

namespace CommandProcessor

variable {σ : Type}

/-- `Execute` on tokens that arrive as `EncodeResp` writes them. -/
def executeEncoded (calls : StoreCalls σ) (store : σ) (tokens : List Bytes) :
    Option (σ × Except String Bytes) :=
  match (({} : RequestCodec).append (encodeResp tokens)).extractRequests with
  | (.ok [request], _) => some (execute calls store request.tokens)
  | _ => none

/-- The tokens arrive as they are. -/
theorem executeEncoded_eq (calls : StoreCalls σ) (store : σ) {tokens : List Bytes}
    (hlength : (encodeResp tokens).length < maxSize) :
    executeEncoded calls store tokens = some (execute calls store tokens) := by
  have hone : [⟨tokens⟩].flatMap (fun request : DecodedRequest => encodeResp request.tokens) =
      encodeResp tokens := by simp
  have hchunks : [encodeResp tokens].flatten =
      [⟨tokens⟩].flatMap fun request : DecodedRequest => encodeResp request.tokens := by simp
  obtain ⟨lists, hfeed, -, hflatten, -⟩ :=
    RequestCodec.feed_encodeResp (by rwa [hone]) hchunks
  -- the whole request is one chunk
  rw [RequestCodec.feed, RequestCodec.feedWith] at hfeed
  unfold executeEncoded RequestCodec.extractRequests
  rcases hextract : (({} : RequestCodec).append (encodeResp tokens)).extractRequestsWith
    fun _ => none with ⟨result, codec⟩
  rw [hextract] at hfeed
  cases result with
  | error error => cases hfeed
  | ok requests =>
    cases hfeed
    have hrequests : requests = [⟨tokens⟩] := by simpa using hflatten
    rw [hrequests]

/-- The line holds more than blanks. If its command word is `PUT` in any case: it is spelled as
    the client knows it, and the value has no blank at its ends that the client does not know;
    or it is spelled otherwise, and has at most two arguments. -/
structure ReadAlike (line : Bytes) : Prop where
  text : ∃ ch ∈ line, isspace ch = false
  put : ∀ command args, words isspace line = command :: args → toUpper command = ascii "PUT" →
    (command ∈ Client.putSpellings → Bare isspace (Client.typedValue line)) ∧
      (command ∉ Client.putSpellings → args.length ≤ 2)

/-- A line that holds more than blanks, between the blanks at its ends. -/
private theorem exists_afterWord {line : Bytes} (htext : trimBy isspace line ≠ []) :
    ∃ front back, line = front ++ (trimBy isspace line ++ back) ∧
      (∀ ch ∈ front, isspace ch) ∧ (∀ ch ∈ back, isspace ch) ∧
      afterWord line = afterWord (trimBy isspace line) ++ back := by
  obtain ⟨front, back, hline, hfront, hback⟩ := exists_trimBy isspace line
  have hne : (trimBy isspace line).dropWhile isspace ≠ [] := by
    rwa [dropWhile_of_bare (bare_trimBy isspace line)]
  refine ⟨front, back, hline, hfront, hback, ?_⟩
  have hafter : afterWord (front ++ (trimBy isspace line ++ back)) =
      afterWord (trimBy isspace line ++ back) := by
    rw [afterWord, List.dropWhile_append_of_pos hfront]
    rfl
  rw [← hline] at hafter
  rw [hafter, (afterWord_append_blanks hback hne).1]

/-- The first word of a text that does not begin with a blank, and the words behind it. -/
private theorem words_eq {text : Bytes} (htext : text.dropWhile isspace ≠ []) :
    words isspace text =
      (text.dropWhile isspace).takeWhile isText :: words isspace (afterWord text) := by
  have hhead : ∀ ch, (text.dropWhile isspace).head? = some ch → isspace ch = false := by
    intro ch hch
    have hnot := text.head?_dropWhile_not isspace
    rw [hch] at hnot
    simpa using hnot
  rw [← words_dropWhile, words_of_head htext hhead]
  rfl

private theorem words_eq_nil {text : Bytes} (htext : text.dropWhile isspace = []) :
    words isspace text = [] := by
  rw [← words_dropWhile, htext, words_nil]

/-- The words of a line that holds more than blanks. -/
theorem words_line {line : Bytes} (htext : trimBy isspace line ≠ []) :
    words isspace line = (trimBy isspace line).takeWhile isText ::
      words isspace (afterWord (trimBy isspace line)) := by
  obtain ⟨front, back, hline, hfront, hback, -⟩ := exists_afterWord htext
  have hwords : words isspace line = words isspace (trimBy isspace line) := by
    have hdrop : line.dropWhile isspace = (trimBy isspace line ++ back).dropWhile isspace :=
      (congrArg _ hline).trans (List.dropWhile_append_of_pos hfront)
    rw [← words_dropWhile, hdrop, words_dropWhile, words_append_blanks hback]
  have hbare := dropWhile_of_bare (bare_trimBy isspace line)
  rw [hwords, words_eq (by rwa [hbare]), hbare]

/-- The value that is typed in, without all blanks at its ends. -/
theorem trimBy_typedValue {line : Bytes}
    (hargs : (afterWord (trimBy isspace line)).dropWhile isspace ≠ []) :
    trimBy isspace (Client.typedValue line) =
      (afterWord (afterWord (trimBy isspace line))).dropWhile isspace := by
  have htext : trimBy isspace line ≠ [] := by
    intro hnil
    rw [hnil] at hargs
    exact hargs rfl
  obtain ⟨front, back, -, -, hback, hafter⟩ := exists_afterWord htext
  have hlast : ∀ ch, (afterWord (afterWord (trimBy isspace line))).getLast? = some ch →
      isspace ch = false := by
    intro ch hch
    have hsuffix := (afterWord_suffix (afterWord (trimBy isspace line))).trans (afterWord_suffix _)
    exact bare_trimBy isspace line ch (.inr (getLast?_of_suffix hsuffix hch))
  have htrimmed := @trimBy_append _ isspace [] back (by simp) hback
    (afterWord (afterWord (trimBy isspace line)))
  rw [Client.typedValue, trimBy_trimBy Client.isspace_of_isBlank, hafter,
    (afterWord_append_blanks hback hargs).1, ← trimBy_eq_dropWhile hlast]
  exact htrimmed

/-- The spellings that the client knows are spellings of `PUT`. -/
theorem toUpper_of_mem_putSpellings {command : Bytes} (h : command ∈ Client.putSpellings) :
    toUpper command = ascii "PUT" := by
  have hall : ∀ command ∈ Client.putSpellings, toUpper command = ascii "PUT" := by decide
  exact hall command h

/-- A `PUT` without exactly a key and a value is refused. -/
private theorem executeCommand_put_of_length (calls : StoreCalls σ) (store : σ) {args : List Bytes}
    (h : args.length ≠ 2) :
    executeCommand calls store (ascii "PUT") args =
      (store, .ok (ascii "ERROR usage: PUT <key> <value>\r\n")) := by
  rw [executeCommand_put]
  split
  · exact absurd rfl h
  · rfl

/-- A `PUT` with a key and a value is not refused, and the store tells which value it was. -/
private theorem executeCommand_put_ne (padding : Padding) (store : KVStore) {key value : Bytes}
    (hkey : key ≠ []) (hvalue : value ≠ []) :
    (executeCommand (KVStore.calls padding) store (ascii "PUT") [key, value]).2 ≠
        .ok (ascii "ERROR usage: PUT <key> <value>\r\n") ∧
      (executeCommand (KVStore.calls padding) store (ascii "PUT") [key, value]).1.get key =
        some value := by
  obtain ⟨disk, hwrite⟩ := store.write_ok padding (.put key value)
  have hput : (KVStore.calls padding).put store key value = store.write padding (.put key value) [] none :=
    rfl
  rw [executeCommand_put]
  simp only [hkey, hvalue, or_self, if_false]
  rw [hput, hwrite]
  constructor
  · simp only [respond, Except.map]
    split <;> decide
  · show (store.index.update (.put key value)).2.get key = _
    rw [Index.get_update]
    exact Function.update_self _ _ _

/-- A `PUT` with the key and the value of a line is the same if trimming leaves the value as it
    is. -/
private theorem executePutLine_value_iff (padding : Padding) (store : KVStore) {args value : Bytes}
    (hkey : args.dropWhile isspace ≠ []) (hvalue : value ≠ [])
    (htrim : trimBy isspace value = (afterWord args).dropWhile isspace) :
    executeCommand (KVStore.calls padding) store (ascii "PUT")
        [(args.dropWhile isspace).takeWhile isText, value] =
          executePutLine (KVStore.calls padding) store args ↔ Bare isspace value := by
  obtain ⟨hresponse, hget⟩ := executeCommand_put_ne padding store (firstWord_ne_nil hkey) hvalue
  unfold executePutLine
  rw [if_neg hkey, ← htrim]
  constructor
  · intro heq
    split at heq
    · rw [heq] at hresponse
      exact absurd rfl hresponse
    · rename_i hnonempty
      -- both values have been put under the key
      have hget' := (executeCommand_put_ne padding store (firstWord_ne_nil hkey) hnonempty).2
      rw [← heq, hget] at hget'
      rw [Option.some.inj hget']
      exact bare_trimBy isspace value
  · intro hbare
    rw [trimBy_of_bare hbare, if_neg hvalue]

/-- A text that ends without a blank and has no second word is its first word behind blanks. -/
private theorem firstWord_eq {text : Bytes}
    (hlast : ∀ ch, text.getLast? = some ch → isspace ch = false)
    (hmore : (afterWord text).dropWhile isspace = []) :
    (text.dropWhile isspace).takeWhile isText = text.dropWhile isspace := by
  have hnil : afterWord text = [] := by
    cases hrest : (afterWord text).getLast? with
    | none => exact List.getLast?_eq_none_iff.mp hrest
    | some ch =>
      have htext := hlast ch (getLast?_of_suffix (afterWord_suffix text) hrest)
      have hblank := List.dropWhile_eq_nil_iff.mp hmore ch (List.mem_of_getLast? hrest)
      rw [htext] at hblank
      cases hblank
  have hsplit := List.takeWhile_append_dropWhile (p := isText) (l := text.dropWhile isspace)
  rwa [show (text.dropWhile isspace).dropWhile isText = [] from hnil, List.append_nil] at hsplit

/-- A `PUT` with the words of a line is the same if there are no more than a key and a value. -/
private theorem executePutLine_words_iff (padding : Padding) (store : KVStore) {args : Bytes}
    (hlast : ∀ ch, args.getLast? = some ch → isspace ch = false) :
    executeCommand (KVStore.calls padding) store (ascii "PUT") (words isspace args) =
        executePutLine (KVStore.calls padding) store args ↔
      (words isspace args).length ≤ 2 := by
  unfold executePutLine
  by_cases hkey : args.dropWhile isspace = []
  · rw [if_pos hkey, words_eq_nil hkey, executeCommand_put_of_length _ _ (by simp)]
    simp
  rw [if_neg hkey, words_eq hkey]
  by_cases hvalue : (afterWord args).dropWhile isspace = []
  · rw [if_pos hvalue, words_eq_nil hvalue, executeCommand_put_of_length _ _ (by simp)]
    simp
  rw [if_neg hvalue, words_eq hvalue]
  by_cases hmore : (afterWord (afterWord args)).dropWhile isspace = []
  · -- the value is one word
    have hone := @firstWord_eq (afterWord args)
      (fun ch hch => hlast ch (getLast?_of_suffix (afterWord_suffix args) hch)) hmore
    rw [words_eq_nil hmore, hone]
    simp
  · have hresponse := (executeCommand_put_ne padding store (firstWord_ne_nil hkey) hvalue).1
    rw [words_eq hmore, executeCommand_put_of_length _ _ (by simp)]
    refine iff_of_false (fun heq => ?_) (by simp)
    rw [← heq] at hresponse
    exact hresponse rfl

/-- The client sends one empty token for a line of blanks that it does not all know. -/
private theorem tokens_of_blank {line : Bytes} {tokens : List Bytes}
    (htext : trimBy isspace line = [])
    (hparse : Client.parseInteractiveCommand line = .ok tokens) (hne : tokens ≠ []) :
    tokens = [[]] := by
  -- what the client does not trim is blank for the stream that it reads with
  have hdrop : (trimBy Client.isBlank line).dropWhile isspace = [] := by
    rw [List.dropWhile_eq_nil_iff]
    intro ch hch
    obtain ⟨front, back, hparts, -, -⟩ := exists_trimBy Client.isBlank line
    refine trimBy_eq_nil_iff.mp htext ch ?_
    rw [hparts]
    simp [hch]
  have hextract : Client.extract (Client.trim line) = ([], []) := by
    show Client.extract (trimBy Client.isBlank line) = _
    rw [Client.extract, hdrop]
    rfl
  have hempty : [] ∉ Client.putSpellings := by decide
  unfold Client.parseInteractiveCommand at hparse
  simp only [hextract, hempty, if_false] at hparse
  split at hparse
  · cases hparse
    exact absurd rfl hne
  · cases hparse
    rfl

private theorem exists_not_blank {line : Bytes} (htext : trimBy isspace line ≠ []) :
    ∃ ch ∈ line, isspace ch = false := by
  by_contra hall
  refine htext (trimBy_eq_nil_iff.mpr fun ch hch => ?_)
  by_contra hch'
  exact hall ⟨ch, hch, by simpa using hch'⟩

/-- The server does the same with the tokens of a line that is typed in as with the line itself
    exactly if both read it alike. -/
theorem executeEncoded_eq_executeLine_iff (padding : Padding) (store : KVStore) {line : Bytes}
    {tokens : List Bytes} (hline : (10 : UInt8) ∉ line)
    (hparse : Client.parseInteractiveCommand line = .ok tokens) (hne : tokens ≠ [])
    (hlength : (encodeResp tokens).length < maxSize) :
    executeEncoded (KVStore.calls padding) store tokens =
        some (executeLine (KVStore.calls padding) store line) ↔
      ReadAlike line := by
  rw [executeEncoded_eq _ _ hlength, Option.some.injEq]
  by_cases htext : trimBy isspace line = []
  · -- the line holds only blanks, but some that the client does not know
    have htokens := tokens_of_blank htext hparse hne
    rw [executeLine_eq, htokens]
    simp only [htext, if_true]
    refine iff_of_false (fun heq => ?_) fun halike => ?_
    · have hresponses := congrArg Prod.snd heq
      exact absurd (Except.ok.inj hresponses) (by decide)
    · obtain ⟨ch, hch, hnot⟩ := halike.text
      rw [trimBy_eq_nil_iff.mp htext ch hch] at hnot
      cases hnot
  -- the line holds a word, which both sides take for the command
  rw [Client.parseInteractiveCommand_eq hline htext] at hparse
  have hwords := words_line htext
  have hnonblank := exists_not_blank htext
  have hvalueEq := @trimBy_typedValue line
  have hlast : ∀ ch, (afterWord (trimBy isspace line)).getLast? = some ch → isspace ch = false := by
    exact fun ch hch =>
      bare_trimBy isspace line ch (.inr (getLast?_of_suffix (afterWord_suffix _) hch))
  rw [executeLine_eq]
  generalize trimBy isspace line = text at htext hparse hwords hvalueEq hlast ⊢
  simp only [htext, if_false] at hparse ⊢
  generalize text.takeWhile isText = command at hparse hwords ⊢
  generalize afterWord text = args at hparse hwords hvalueEq hlast ⊢
  by_cases hspelled : command ∈ Client.putSpellings
  · -- `PUT` as the client spells it
    have hput := toUpper_of_mem_putSpellings hspelled
    rw [if_pos hspelled] at hparse
    split at hparse
    · cases hparse
    · rename_i hfound
      rw [not_or] at hfound
      cases hparse
      rw [if_pos hput]
      have hexecute : execute (KVStore.calls padding) store
          [command, (args.dropWhile isspace).takeWhile isText, Client.typedValue line] =
            executeCommand (KVStore.calls padding) store (ascii "PUT")
              [(args.dropWhile isspace).takeWhile isText, Client.typedValue line] := by
        rw [execute, hput]
      rw [hexecute]
      refine (executePutLine_value_iff padding store hfound.1 hfound.2 (hvalueEq hfound.1)).trans ?_
      constructor
      · intro hbare
        refine ⟨hnonblank, fun command' args' hwords' hput' => ?_⟩
        obtain ⟨rfl, -⟩ := List.cons.inj (hwords.symm.trans hwords')
        exact ⟨fun _ => hbare, fun hnot => absurd hspelled hnot⟩
      · intro halike
        exact (halike.put command _ hwords hput).1 hspelled
  · rw [if_neg hspelled] at hparse
    cases hparse
    by_cases hput : toUpper command = ascii "PUT"
    · -- a spelling of `PUT` that the client does not know: it sends the words one by one
      rw [if_pos hput]
      have hexecute : execute (KVStore.calls padding) store (command :: words isspace args) =
          executeCommand (KVStore.calls padding) store (ascii "PUT") (words isspace args) := by
        rw [execute, hput]
      rw [hexecute]
      refine (executePutLine_words_iff padding store hlast).trans ?_
      constructor
      · intro hfew
        refine ⟨hnonblank, fun command' args' hwords' _ => ?_⟩
        obtain ⟨rfl, rfl⟩ := List.cons.inj (hwords.symm.trans hwords')
        exact ⟨fun hmem => absurd hmem hspelled, fun _ => hfew⟩
      · intro halike
        exact (halike.put command _ hwords hput).2 hspelled
    · -- another command
      rw [if_neg hput]
      refine iff_of_true rfl ⟨hnonblank, fun command' args' hwords' hput' => ?_⟩
      obtain ⟨rfl, -⟩ := List.cons.inj (hwords.symm.trans hwords')
      exact absurd hput' hput

/-- A line that both read alike. -/
theorem executeEncoded_eq_executeLine_put :
    executeEncoded (KVStore.calls {}) KVStore.fresh [ascii "put", ascii "k", ascii "a b"] =
        some (executeLine (KVStore.calls {}) KVStore.fresh (ascii " put  k\ta b ")) ↔
      ReadAlike (ascii " put  k\ta b ") :=
  executeEncoded_eq_executeLine_iff {} KVStore.fresh (by decide) (by decide) (by decide) (by decide)

/-- What the server does with the tokens of a line, and with the line. -/
private theorem execute_mixedCase {σ : Type} (calls : StoreCalls σ) (store : σ) :
    execute calls store [ascii "pUt", ascii "k", ascii "a", ascii "b"] =
        (store, .ok (ascii "ERROR usage: PUT <key> <value>\r\n")) ∧
      executeLine calls store (ascii "pUt k a b") =
        executeCommand calls store (ascii "PUT") [ascii "k", ascii "a b"] := by
  have hput : toUpper (ascii "pUt") = ascii "PUT" := by decide
  have htrim : trimBy isspace (ascii "pUt k a b") = ascii "pUt k a b" := by decide
  have hcommand : (ascii "pUt k a b").takeWhile isText = ascii "pUt" := by decide
  have hargs : afterWord (ascii "pUt k a b") = ascii " k a b" := by decide
  have hkey : (ascii " k a b").dropWhile isspace = ascii "k a b" := by decide
  have hafter : afterWord (ascii " k a b") = ascii " a b" := by decide
  have hvalue : (ascii " a b").dropWhile isspace = ascii "a b" := by decide
  have hword : (ascii "k a b").takeWhile isText = ascii "k" := by decide
  constructor
  · rw [execute, hput]
    exact executeCommand_put_of_length calls store (by decide)
  · rw [executeLine_eq]
    simp only [htrim, hcommand, hput, hargs, hkey, hafter, hvalue, hword]
    rw [if_neg (by decide), if_pos trivial, if_neg (by decide), if_neg (by decide)]

/-- A spelling of `PUT` that the client does not know: it takes the value apart. -/
theorem mixedCase_put_refused :
    ∃ tokens, Client.parseInteractiveCommand (ascii "pUt k a b") = .ok tokens ∧ tokens ≠ [] ∧
      executeEncoded (KVStore.calls {}) KVStore.fresh tokens ≠
        some (executeLine (KVStore.calls {}) KVStore.fresh (ascii "pUt k a b")) := by
  refine ⟨[ascii "pUt", ascii "k", ascii "a", ascii "b"], by decide, by decide, fun heq => ?_⟩
  have hkey : ascii "k" ≠ [] := by decide
  have hvalue : ascii "a b" ≠ [] := by decide
  obtain ⟨htokens, hline⟩ := execute_mixedCase (KVStore.calls {}) KVStore.fresh
  rw [executeEncoded_eq _ _ (by decide), htokens, hline] at heq
  have hresponse := (executeCommand_put_ne {} KVStore.fresh hkey hvalue).1
  rw [← Option.some.inj heq] at hresponse
  exact hresponse rfl

end CommandProcessor

end KvStore
