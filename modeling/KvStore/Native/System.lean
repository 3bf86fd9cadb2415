import Mathlib
import KvStore.Native.Client
import KvStore.Native.Interruption
import KvStore.Spec.EventTrace

/-!
# Clients and server

The server process of `src/server_main.cpp` and any number of interactive clients of
`src/client_main.cpp`, with the byte streams between them. A client takes typed lines, writes
the request of a line and reads its response before it takes the next line. The streams
deliver bytes in order and in any portions. The server handles one event after another; its
process may end between any two changes of its files, see `CutPoint`, and is then started
again on the same files. Its calls on these files succeed.
-/

namespace KvStore

/-- The bytes that a call of `read` returns. -/
def ReadOutcome.chunk : ReadOutcome → Bytes
  | .bytes chunk => chunk
  | _ => []

/-- Where the loop of `main` of a client is; `buffer` is that of its `LineReader`. -/
inductive ClientState where
  /-- There is no client, or it has ended. -/
  | away
  /-- It waits for a line to be typed in. -/
  | prompt (buffer : Bytes)
  /-- In `WriteAll`, with the bytes that are left to write. -/
  | writing (tokens : List Bytes) (rest buffer : Bytes)
  /-- In `ReadLine`. -/
  | reading (tokens : List Bytes) (buffer : Bytes)

/-- The request that a client waits for. -/
def ClientState.request? : ClientState → Option (List Bytes)
  | .writing tokens _ _ | .reading tokens _ => some tokens
  | _ => none

/-- A line that `std::getline` returns. It is short enough for its tokens to be logged. -/
structure TypedLine where
  text : Bytes
  oneLine : (10 : UInt8) ∉ text
  short : text.length < 2 ^ 32

namespace Client

/-- The spellings of the command word behind which the loop of `main` ends. -/
def quitSpellings : List Bytes :=
  ["QUIT", "quit", "Quit"].map fun word => word.toList.map Char.toUInt8

/-- The loop of `main` takes a line. -/
def takeLine (line buffer : Bytes) : ClientState :=
  match parseInteractiveCommand line with
  -- the exception ends `main`
  | .error _ => .away
  | .ok [] => .prompt buffer
  | .ok tokens => .writing tokens (encodeResp tokens) buffer

/-- `write` has taken so many bytes in `WriteAll`. -/
def afterWrite (tokens : List Bytes) (rest buffer : Bytes) (count : Nat) : ClientState :=
  if rest.drop count = [] then .reading tokens buffer
  else .writing tokens (rest.drop count) buffer

/-- The loop of `main` has printed a response. -/
def afterResponse (tokens : List Bytes) (buffer : Bytes) : ClientState :=
  if quitSpellings.contains (tokens.headD []) then .away else .prompt buffer

end Client

/-- A client, and its connection to the server as far as the server has not accepted or read
    it. -/
structure Link where
  client : ClientState := .away
  /-- The connection is in the backlog of the listening socket. -/
  backlog : Bool := false
  /-- The bytes on their way to the server. -/
  toServer : Bytes := []
  /-- The bytes on their way to the client. -/
  toClient : Bytes := []

/-- The server, and the links with its connections. -/
structure System (ι : Type) where
  server : Reactor ι KVStore
  links : ι → Link := fun _ => {}

/-- What happens in a system. -/
inductive Move (ι : Type) where
  | connect (i : ι)
  | accept (i : ι)
  /-- A line is typed in. -/
  | type (i : ι) (line : TypedLine)
  /-- A call of `write` in `WriteAll`. -/
  | send (i : ι) (count : Nat)
  /-- The server handles an event. -/
  | handle (event : ReadyEvent ι) (padding : Padding)
  /-- A call of `read` in `ReadLine`. -/
  | receive (i : ι) (count : Nat)
  /-- `ReadLine` finds a line. -/
  | finish (i : ι)
  /-- `read` returns zero in `ReadLine`. -/
  | hangUp (i : ι)
  /-- The client ends, wherever it is. -/
  | kill (i : ι)
  /-- The process of the server ends while it handles an event, with so many of the requests
      that it reads executed, and is started again. -/
  | crash (event : ReadyEvent ι) (executed : Nat) (padding : Padding) (cut : CutPoint)
      (coins : Nat → Nat → Bool)

namespace KVStore

/-- The files that are left when the process ends after some requests, while the next one is
    executed. -/
def diskAfter (store : KVStore) (requests : List DecodedRequest) (executed : Nat)
    (padding : Padding) (cut : CutPoint) : Disk :=
  let store := (requests.take executed).foldl
    (fun store request => (CommandProcessor.execute (calls padding) store request.tokens).1) store
  match requests[executed]? with
  | none => store.disk
  | some request => store.diskUntil padding cut request.tokens

end KVStore

namespace System

variable {ι : Type} [DecidableEq ι]

/-- A store that is served and has no clients yet. -/
def start (store : KVStore) : System ι where
  server := { store, connections := fun _ => none }

/-- What is read while an event is handled. -/
def eventTrace (s : System ι) (event : ReadyEvent ι) : Connection.ReadTrace :=
  match s.server.connections event.connection with
  | none => { ending := .closed }
  | some connection => connection.eventTrace event

/-- The calls of `read` return what is on the way to the server. -/
def Delivers (s : System ι) (event : ReadyEvent ι) : Prop :=
  (∀ outcome ∈ event.reads, outcome.chunk.length ≤ Connection.readSize) ∧
    (s.eventTrace event).received <+: (s.links event.connection).toServer

instance (s : System ι) (event : ReadyEvent ι) : Decidable (s.Delivers event) := by
  unfold Delivers
  infer_instance

/-- The system with another link. -/
def withLink (s : System ι) (i : ι) (link : Link) : System ι :=
  { s with links := Function.update s.links i link }

@[simp] theorem links_withLink_self (s : System ι) (i : ι) (link : Link) :
    (s.withLink i link).links i = link :=
  Function.update_self ..

@[simp] theorem links_withLink_of_ne {s : System ι} {i j : ι} {link : Link} (h : j ≠ i) :
    (s.withLink i link).links j = s.links j :=
  Function.update_of_ne h ..

@[simp] theorem server_withLink (s : System ι) (i : ι) (link : Link) :
    (s.withLink i link).server = s.server := rfl

/-- The system with another state of a client. -/
def withClient (s : System ι) (i : ι) (client : ClientState) : System ι :=
  s.withLink i { s.links i with client }

/-- One move, if it is possible. -/
def step (s : System ι) : Move ι → Option (System ι)
  | .connect i =>
    match (s.links i).client, s.server.connections i with
    | .away, none =>
      if (s.links i).backlog then none
      else some (s.withLink i { client := .prompt [], backlog := true })
    | _, _ => none
  | .accept i =>
    if (s.links i).backlog then
      some ({ s with server := s.server.accept i }.withLink i { s.links i with backlog := false })
    else none
  | .type i line =>
    match (s.links i).client with
    | .prompt buffer => some (s.withClient i (Client.takeLine line.text buffer))
    | _ => none
  | .send i count =>
    match (s.links i).client with
    | .writing tokens rest buffer =>
      some (s.withLink i { s.links i with
        client := Client.afterWrite tokens rest buffer count
        toServer := (s.links i).toServer ++ rest.take count })
    | _ => none
  | .handle event padding =>
    if s.Delivers event then
      match s.server.handleConnectionEvent (CommandProcessor.execute (KVStore.calls padding))
          event with
      | (_, .error _) => none
      | (written, .ok server) =>
        let link := s.links event.connection
        some ({ s with server }.withLink event.connection { link with
          toServer := link.toServer.drop (s.eventTrace event).received.length
          toClient := link.toClient ++ written })
    else none
  | .receive i count =>
    match (s.links i).client with
    | .reading tokens buffer =>
      if find buffer 0 = none ∧ 0 < count ∧ count ≤ (s.links i).toClient.length then
        some (s.withLink i { s.links i with
          client := .reading tokens (buffer ++ (s.links i).toClient.take count)
          toClient := (s.links i).toClient.drop count })
      else none
    | _ => none
  | .finish i =>
    match (s.links i).client with
    | .reading tokens buffer =>
      (find buffer 0).map fun pos =>
        s.withClient i (Client.afterResponse tokens (buffer.drop (pos + 2)))
    | _ => none
  | .hangUp i =>
    match (s.links i).client, s.server.connections i with
    | .reading _ buffer, none =>
      if find buffer 0 = none ∧ (s.links i).toClient = [] ∧ (s.links i).backlog = false then
        some (s.withClient i .away)
      else none
    | _, _ => none
  | .kill i => some (s.withClient i .away)
  | .crash event executed padding cut coins =>
    if s.Delivers event then
      match KVStore.construct s.server.store.options coins
          (s.server.store.diskAfter (s.eventTrace event).requests executed padding cut) with
      | .error _ => none
      | .ok store =>
        -- all connections are reset, also those that have not been accepted
        some { server := { store, connections := fun _ => none },
               links := fun i => { s.links i with backlog := false } }
    else none

end System

end KvStore
