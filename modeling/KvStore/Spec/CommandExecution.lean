import KvStore.Native.CommandProcessor
import KvStore.Spec.ReadLoopCorrect

/-!
# What a command responds

`executeCommand_cases` lists the responses: a line of fixed text, the value of a key, the pairs
in a range, or an exception of a call that writes to the store. `reply` is `Execute` without
its exceptions; a `KVStore` throws none when no call on its files fails.
-/

namespace KvStore

/-- The calls that write to the store return normally. -/
structure StoreCalls.NeverThrow {σ : Type} (calls : StoreCalls σ) : Prop where
  put : ∀ store key value, ∃ flag, (calls.put store key value).2 = .ok flag
  delete : ∀ store key, ∃ flag, (calls.delete store key).2 = .ok flag

/-- The text ends with a line end, and holds no earlier one. -/
def IsLine (text : Bytes) : Prop :=
  crlf <:+ text ∧ findCrlf text = some (text.length - 2)

instance : DecidablePred IsLine := fun text => by
  unfold IsLine
  infer_instance

namespace CommandProcessor

variable {σ : Type} {calls : StoreCalls σ}

/-! ## One command word at a time -/

/-- The command words in the order in which `ExecuteCommand` tests them. -/
def commandWords : List Bytes :=
  [ascii "PING", ascii "GET", ascii "DEL", ascii "SCAN", ascii "QUIT", ascii "CHECKPOINT",
    ascii "PUT"]

section Words

variable (calls) (store : σ) (args : List Bytes)

/-- `PING` is answered without the store. -/
theorem executeCommand_ping :
    executeCommand calls store (ascii "PING") args =
      (store, .ok (if args = [] then ascii "PONG\r\n" else ascii "ERROR usage: PING\r\n")) :=
  if_pos rfl

/-- `GET` takes one key. -/
theorem executeCommand_get :
    executeCommand calls store (ascii "GET") args =
      match args with
      | [key] =>
        match calls.get store key with
        | none => (store, .ok (ascii "NOT_FOUND\r\n"))
        | some value => (store, .ok (ascii "VALUE " ++ value ++ crlf))
      | _ => (store, .ok (ascii "ERROR usage: GET <key>\r\n")) := by
  unfold executeCommand
  refine (if_neg (by decide)).trans ?_
  exact if_pos rfl

/-- `DEL` takes one key. -/
theorem executeCommand_del :
    executeCommand calls store (ascii "DEL") args =
      match args with
      | [key] => respond (calls.delete store key) "OK DELETE\r\n" "NOT_FOUND\r\n"
      | _ => (store, .ok (ascii "ERROR usage: DEL <key>\r\n")) := by
  unfold executeCommand
  iterate 2 refine (if_neg (by decide)).trans ?_
  exact if_pos rfl

/-- `SCAN` takes the two ends of the range. -/
theorem executeCommand_scan :
    executeCommand calls store (ascii "SCAN") args =
      match args with
      | [start, stop] => (store, .ok (scanResponse (calls.scan store start stop)))
      | _ => (store, .ok (ascii "ERROR usage: SCAN <start> <end>\r\n")) := by
  unfold executeCommand
  iterate 3 refine (if_neg (by decide)).trans ?_
  exact if_pos rfl

/-- `QUIT` is answered without the store. -/
theorem executeCommand_quit :
    executeCommand calls store (ascii "QUIT") args =
      (store, .ok (if args = [] then ascii "BYE\r\n" else ascii "ERROR usage: QUIT\r\n")) := by
  unfold executeCommand
  iterate 4 refine (if_neg (by decide)).trans ?_
  exact if_pos rfl

/-- `CHECKPOINT` takes no argument, and a failure of it is answered. -/
theorem executeCommand_checkpoint :
    executeCommand calls store (ascii "CHECKPOINT") args =
      if args = [] then
        match calls.checkpoint store with
        | (store, .ok true) => (store, .ok (ascii "OK CHECKPOINT\r\n"))
        | (store, .ok false) => (store, .ok (ascii "ERROR checkpoint unavailable\r\n"))
        | (store, .error _) => (store, .ok (ascii "ERROR checkpoint failed\r\n"))
      else (store, .ok (ascii "ERROR usage: CHECKPOINT\r\n")) := by
  unfold executeCommand
  iterate 5 refine (if_neg (by decide)).trans ?_
  exact if_pos rfl

/-- `PUT` takes a key and a value, neither of them empty. -/
theorem executeCommand_put :
    executeCommand calls store (ascii "PUT") args =
      match args with
      | [key, value] =>
        if key = [] ∨ value = [] then (store, .ok (ascii "ERROR usage: PUT <key> <value>\r\n"))
        else respond (calls.put store key value) "OK PUT\r\n" "OK UPDATE\r\n"
      | _ => (store, .ok (ascii "ERROR usage: PUT <key> <value>\r\n")) := by
  unfold executeCommand
  iterate 6 refine (if_neg (by decide)).trans ?_
  exact if_pos rfl

/-- Every other word is refused. -/
theorem executeCommand_unknown {command : Bytes} (h : command ∉ commandWords) :
    executeCommand calls store command args = (store, .ok (ascii "ERROR unknown command\r\n")) := by
  simp only [commandWords, List.mem_cons, List.not_mem_nil, or_false, not_or] at h
  simp only [executeCommand, h, if_false]

end Words

/-! ## What a command returns or throws -/

/-- The keys and values that the response to a command quotes. -/
def quoted (calls : StoreCalls σ) (store : σ) (command : Bytes) (args : List Bytes) : List Bytes :=
  if command = ascii "GET" then
    match args with
    | [key] => (calls.get store key).toList
    | _ => []
  else if command = ascii "SCAN" then
    match args with
    | [start, stop] => (calls.scan store start stop).flatMap fun pair => [pair.1, pair.2]
    | _ => []
  else []

/-- What `ExecuteCommand` can return or throw. -/
inductive Responds (calls : StoreCalls σ) (store : σ) (command : Bytes) (args : List Bytes) :
    Except String Bytes → Prop where
  | text (line : String) (hline : IsLine (ascii line))
      (hquoted : quoted calls store command args = []) :
      Responds calls store command args (.ok (ascii line))
  | value {key value : Bytes} (hcommand : command = ascii "GET") (hargs : args = [key])
      (hget : calls.get store key = some value) :
      Responds calls store command args (.ok (ascii "VALUE " ++ value ++ crlf))
  | pairs {start stop : Bytes} (hcommand : command = ascii "SCAN") (hargs : args = [start, stop]) :
      Responds calls store command args (.ok (scanResponse (calls.scan store start stop)))
  | thrown {error : String} (hthrows : ¬ calls.NeverThrow) :
      Responds calls store command args (.error error)

/-- The response that depends on what a call of the store returns. -/
private theorem Responds.respond {store : σ} {command : Bytes} {args : List Bytes}
    {result : σ × Except String Bool} {ifTrue ifFalse : String} (htrue : IsLine (ascii ifTrue))
    (hfalse : IsLine (ascii ifFalse)) (hquoted : quoted calls store command args = [])
    (hresult : calls.NeverThrow → ∃ flag, result.2 = .ok flag) :
    Responds calls store command args (CommandProcessor.respond result ifTrue ifFalse).2 := by
  unfold CommandProcessor.respond
  cases hflag : result.2 with
  | error error =>
    refine .thrown fun hcalls => ?_
    obtain ⟨flag, hok⟩ := hresult hcalls
    cases hok.symm.trans hflag
  | ok flag =>
    cases flag with
    | false => exact .text ifFalse hfalse hquoted
    | true => exact .text ifTrue htrue hquoted

/-- What `ExecuteCommand` returns or throws. -/
theorem executeCommand_cases (calls : StoreCalls σ) (store : σ) (command : Bytes)
    (args : List Bytes) :
    Responds calls store command args (executeCommand calls store command args).2 := by
  by_cases hknown : command ∈ commandWords
  · simp only [commandWords, List.mem_cons, List.not_mem_nil, or_false] at hknown
    rcases hknown with rfl | rfl | rfl | rfl | rfl | rfl | rfl
    · -- `PING`
      rw [executeCommand_ping]
      split
      · exact .text _ (by decide) rfl
      · exact .text _ (by decide) rfl
    · -- `GET`
      rw [executeCommand_get]
      split
      · split
        · rename_i hvalue
          exact .text _ (by decide) (by simp [quoted, hvalue])
        · rename_i hvalue
          exact .value rfl rfl hvalue
      · rename_i hargs
        refine .text _ (by decide) ?_
        unfold quoted
        rw [if_pos rfl]
        split
        · exact absurd rfl (hargs _)
        · rfl
    · -- `DEL`
      rw [executeCommand_del]
      split
      · exact .respond (by decide) (by decide) rfl fun hcalls => hcalls.delete _ _
      · exact .text _ (by decide) rfl
    · -- `SCAN`
      rw [executeCommand_scan]
      split
      · exact .pairs rfl rfl
      · rename_i hargs
        refine .text _ (by decide) ?_
        unfold quoted
        rw [if_neg (by decide), if_pos rfl]
        split
        · exact absurd rfl (hargs _ _)
        · rfl
    · -- `QUIT`
      rw [executeCommand_quit]
      split
      · exact .text _ (by decide) rfl
      · exact .text _ (by decide) rfl
    · -- `CHECKPOINT`
      rw [executeCommand_checkpoint]
      split
      · split
        · exact .text _ (by decide) rfl
        · exact .text _ (by decide) rfl
        · exact .text _ (by decide) rfl
      · exact .text _ (by decide) rfl
    · -- `PUT`
      rw [executeCommand_put]
      split
      · split
        · exact .text _ (by decide) rfl
        · exact .respond (by decide) (by decide) rfl fun hcalls => hcalls.put _ _ _
      · exact .text _ (by decide) rfl
  · rw [executeCommand_unknown calls store args hknown]
    refine .text _ (by decide) ?_
    simp only [commandWords, List.mem_cons, List.not_mem_nil, or_false, not_or] at hknown
    simp only [quoted, hknown, if_false]

/-- Every response ends a line. -/
theorem Responds.crlf_suffix {store : σ} {command response : Bytes} {args : List Bytes}
    (h : Responds calls store command args (.ok response)) : crlf <:+ response := by
  cases h with
  | text line hline => exact hline.1
  | value => exact List.suffix_append _ _
  | pairs => exact List.suffix_append _ _

/-- `Execute` without its exceptions: an empty line stands for a response that is missing. -/
def reply (calls : StoreCalls σ) (store : σ) (tokens : List Bytes) : σ × Bytes :=
  ((execute calls store tokens).1, (execute calls store tokens).2.toOption.getD crlf)

/-- `reply` is `Execute` when it does not throw. -/
theorem reply_of_ok {store store' : σ} {tokens : List Bytes} {response : Bytes}
    (h : execute calls store tokens = (store', .ok response)) :
    reply calls store tokens = (store', response) := by
  rw [reply, h]
  rfl

/-- Every response has a text. -/
theorem reply_ne_nil (store : σ) (tokens : List Bytes) : (reply calls store tokens).2 ≠ [] := by
  intro hnil
  have hcrlf : crlf <:+ (reply calls store tokens).2 := by
    unfold reply
    cases tokens with
    | nil =>
      have hline : IsLine (ascii "ERROR empty command\r\n") := by decide
      exact hline.1
    | cons first args =>
      cases hresponse : (execute calls store (first :: args)).2 with
      | error error => exact List.suffix_rfl
      | ok response =>
        have hcases := executeCommand_cases calls store (toUpper first) args
        rw [execute] at hresponse
        rw [hresponse] at hcases
        exact hcases.crlf_suffix
  rw [hnil, List.suffix_nil] at hcrlf
  cases hcrlf

/-- `Execute` throws only what a call that writes to the store throws. -/
theorem execute_ok (hcalls : calls.NeverThrow) (store : σ) (tokens : List Bytes) :
    execute calls store tokens =
      ((reply calls store tokens).1, .ok (reply calls store tokens).2) := by
  have hok : ∃ response, (execute calls store tokens).2 = .ok response := by
    cases tokens with
    | nil => exact ⟨_, rfl⟩
    | cons first args =>
      have hcases := executeCommand_cases calls store (toUpper first) args
      rw [execute]
      generalize (executeCommand calls store (toUpper first) args).2 = result at hcases
      cases hcases with
      | thrown hthrows => exact absurd hcalls hthrows
      | _ => exact ⟨_, rfl⟩
  obtain ⟨response, hresponse⟩ := hok
  refine Prod.ext rfl ?_
  show _ = Except.ok ((execute calls store tokens).2.toOption.getD crlf)
  rw [hresponse]
  rfl

/-! ## Commands in capital letters -/

/-- A `PUT` with a key and a value is handed to the store. -/
theorem execute_put {store : σ} {key value : Bytes} (hkey : key ≠ []) (hvalue : value ≠ []) :
    execute calls store [ascii "PUT", key, value] =
      respond (calls.put store key value) "OK PUT\r\n" "OK UPDATE\r\n" := by
  show executeCommand calls store (ascii "PUT") [key, value] = _
  rw [executeCommand_put]
  exact if_neg (by simp [hkey, hvalue])

/-- A `GET` of a key that is there. -/
theorem execute_get {store : σ} {key value : Bytes} (hget : calls.get store key = some value) :
    execute calls store [ascii "GET", key] = (store, .ok (ascii "VALUE " ++ value ++ crlf)) := by
  show executeCommand calls store (ascii "GET") [key] = _
  rw [executeCommand_get]
  simp only [hget]

end CommandProcessor

/-! ## The store -/

namespace KVStore

/-- Without failures, the record is appended to the log. -/
theorem appendRecord_ok (store : KVStore) (padding : Padding) (update : Update Bytes Bytes) :
    ∃ disk, store.appendRecord padding update [] none = ({ store with disk }, .ok ()) := by
  unfold appendRecord
  split
  · have hwrite : ∀ data, WAL.writeAll [] data = (data, .ok ()) := by
      intro data
      cases data <;> rfl
    rw [WAL.append, hwrite]
    exact ⟨_, rfl⟩
  · exact ⟨store.disk, rfl⟩

/-- Without failures, `Put` and `Delete` update the index. -/
theorem write_ok (store : KVStore) (padding : Padding) (update : Update Bytes Bytes) :
    ∃ disk, store.write padding update [] none =
      ({ store with index := (store.index.update update).2, disk },
        .ok (store.index.update update).1) := by
  obtain ⟨disk, happend⟩ := store.appendRecord_ok padding update
  exact ⟨disk, by rw [write, happend]; rfl⟩

/-- A store in an empty directory. -/
def fresh : KVStore := { index := Index.new fun _ _ => false, disk := {} }

/-- The calls of the store without faults throw nothing. -/
theorem neverThrow_calls (padding : Padding) : (calls padding).NeverThrow where
  put store key value := by
    obtain ⟨disk, hwrite⟩ := store.write_ok padding (.put key value)
    exact ⟨_, congrArg Prod.snd hwrite⟩
  delete store key := by
    obtain ⟨disk, hwrite⟩ := store.write_ok padding (.delete key)
    exact ⟨_, congrArg Prod.snd hwrite⟩

end KVStore

end KvStore
