import KvStore.Native.Server
import KvStore.Native.KVStore

/-!
# The command processor

Model of `CommandProcessor` in `src/Protocol.cpp`: commands as lists of tokens, as the server
gets them, or as lines of text. The store is a type `σ` with the calls that commands make on
it; calls that write may throw.
-/

namespace KvStore

/-- The bytes of a text in the source. -/
def ascii (text : String) : Bytes := text.toList.map Char.toUInt8

/-- The calls of `KVStore` that commands make. -/
structure StoreCalls (σ : Type) where
  put : σ → Bytes → Bytes → σ × Except String Bool
  get : σ → Bytes → Option Bytes
  delete : σ → Bytes → σ × Except String Bool
  scan : σ → Bytes → Bytes → List (Bytes × Bytes)
  checkpoint : σ → σ × Except String Bool

/-- The calls of a `KVStore`, when no call on its files fails. -/
def KVStore.calls (padding : Padding) : StoreCalls KVStore where
  put store key value := store.put padding key value [] none
  get := KVStore.get
  delete store key := store.delete padding key [] none
  scan := KVStore.scan
  checkpoint := KVStore.checkpoint

namespace CommandProcessor

/-- `ToUpper`. -/
def toUpper (text : Bytes) : Bytes := text.map Connection.toupper

/-- `SkipSpaces`. -/
def skipSpaces (text : Bytes) (pos : Nat) : Nat :=
  pos + ((text.drop pos).takeWhile isspace).length

/-- `FindTokenEnd`. -/
def findTokenEnd (text : Bytes) (pos : Nat) : Nat :=
  pos + ((text.drop pos).takeWhile fun ch => !isspace ch).length

/-- `CommandProcessor::Trim`. -/
def trim (text : Bytes) : Bytes :=
  ((text.dropWhile isspace).reverse.dropWhile isspace).reverse

/-! ## Responses -/

/-- The response to a `SCAN` that has found these pairs. -/
def scanResponse (pairs : List (Bytes × Bytes)) : Bytes :=
  ascii "RESULT " ++ toDecimal pairs.length ++
    (pairs.flatMap fun pair => ascii " " ++ pair.1 ++ ascii "=" ++ pair.2) ++ crlf

/-- A response that depends on what a call of the store returns. -/
def respond {σ : Type} (result : σ × Except String Bool) (ifTrue ifFalse : String) :
    σ × Except String Bytes :=
  (result.1, result.2.map fun flag => ascii (if flag then ifTrue else ifFalse))

variable {σ : Type} (calls : StoreCalls σ)

/-- `ExecuteCommand`. Only `CHECKPOINT` catches what the store throws. -/
def executeCommand (store : σ) (command : Bytes) (args : List Bytes) :
    σ × Except String Bytes :=
  if command = ascii "PING" then
    (store, .ok (if args = [] then ascii "PONG\r\n" else ascii "ERROR usage: PING\r\n"))
  else if command = ascii "GET" then
    match args with
    | [key] =>
      match calls.get store key with
      | none => (store, .ok (ascii "NOT_FOUND\r\n"))
      | some value => (store, .ok (ascii "VALUE " ++ value ++ crlf))
    | _ => (store, .ok (ascii "ERROR usage: GET <key>\r\n"))
  else if command = ascii "DEL" then
    match args with
    | [key] => respond (calls.delete store key) "OK DELETE\r\n" "NOT_FOUND\r\n"
    | _ => (store, .ok (ascii "ERROR usage: DEL <key>\r\n"))
  else if command = ascii "SCAN" then
    match args with
    | [start, stop] => (store, .ok (scanResponse (calls.scan store start stop)))
    | _ => (store, .ok (ascii "ERROR usage: SCAN <start> <end>\r\n"))
  else if command = ascii "QUIT" then
    (store, .ok (if args = [] then ascii "BYE\r\n" else ascii "ERROR usage: QUIT\r\n"))
  else if command = ascii "CHECKPOINT" then
    if args = [] then
      match calls.checkpoint store with
      | (store, .ok true) => (store, .ok (ascii "OK CHECKPOINT\r\n"))
      | (store, .ok false) => (store, .ok (ascii "ERROR checkpoint unavailable\r\n"))
      | (store, .error _) => (store, .ok (ascii "ERROR checkpoint failed\r\n"))
    else (store, .ok (ascii "ERROR usage: CHECKPOINT\r\n"))
  else if command = ascii "PUT" then
    match args with
    | [key, value] =>
      if key = [] ∨ value = [] then (store, .ok (ascii "ERROR usage: PUT <key> <value>\r\n"))
      else respond (calls.put store key value) "OK PUT\r\n" "OK UPDATE\r\n"
    | _ => (store, .ok (ascii "ERROR usage: PUT <key> <value>\r\n"))
  else (store, .ok (ascii "ERROR unknown command\r\n"))

/-! ## Requests -/

/-- `Execute` on tokens. -/
def execute (store : σ) (tokens : List Bytes) : σ × Except String Bytes :=
  match tokens with
  | [] => (store, .ok (ascii "ERROR empty command\r\n"))
  | first :: args => executeCommand calls store (toUpper first) args

/-- The loop of `Execute` on a line over the arguments from `cursor` on. Every round takes a
    token, so there are no more rounds than bytes. -/
def splitArgs (text : Bytes) : Nat → Nat → List Bytes
  | 0, _ => []
  | fuel + 1, cursor =>
    if cursor < text.length then
      let tokenEnd := findTokenEnd text cursor
      substr text cursor (tokenEnd - cursor) :: splitArgs text fuel (skipSpaces text tokenEnd)
    else []

/-- `Execute` on a line. -/
def executeLine (store : σ) (line : Bytes) : σ × Except String Bytes :=
  let trimmed := trim line
  if trimmed = [] then (store, .ok (ascii "ERROR empty command\r\n"))
  else
    let commandEnd := findTokenEnd trimmed 0
    let command := toUpper (substr trimmed 0 commandEnd)
    let argsBegin := skipSpaces trimmed commandEnd
    -- the value of a `PUT` is the rest of the line
    if command = ascii "PUT" then
      if argsBegin = trimmed.length then
        (store, .ok (ascii "ERROR usage: PUT <key> <value>\r\n"))
      else
        let keyEnd := findTokenEnd trimmed argsBegin
        let valueBegin := skipSpaces trimmed keyEnd
        if valueBegin = trimmed.length then
          (store, .ok (ascii "ERROR usage: PUT <key> <value>\r\n"))
        else
          executeCommand calls store command
            [substr trimmed argsBegin (keyEnd - argsBegin), trimmed.drop valueBegin]
    else executeCommand calls store command (splitArgs trimmed trimmed.length argsBegin)

end CommandProcessor

end KvStore
