import KvStore.Native.Protocol
import Mathlib.Logic.Function.Basic

/-!
# The connections of the server

What the server does when `epoll` reports events on a connection: `ReadFromConnection` reads
what the socket holds, takes the requests that are complete out of it and executes them, and
`WriteToConnection` writes what the socket takes of their responses. `execute` is
`CommandProcessor::Execute` on a store of type `σ`: it returns the response or throws. What
the calls of `read` and `write` return is given; `epoll_ctl` succeeds.
-/

namespace KvStore

/-- What a call of `read` on a socket returns. -/
inductive ReadOutcome where
  /-- Some bytes. -/
  | bytes (chunk : Bytes)
  /-- Zero: the peer has closed. -/
  | closed
  /-- `EAGAIN` or `EWOULDBLOCK`. -/
  | again
  /-- `EINTR`. -/
  | interrupted
  /-- Any other error. -/
  | failed

/-- What a call of `write` on a socket returns. -/
inductive SendOutcome where
  /-- The number of bytes that it has taken. -/
  | wrote (count : Nat)
  /-- `EAGAIN` or `EWOULDBLOCK`. -/
  | again
  /-- `EINTR`. -/
  | interrupted
  /-- Any other error. -/
  | failed

/-- A set of `epoll` events. -/
structure Events where
  epollIn : Bool := false
  epollOut : Bool := false
  epollErr : Bool := false
  epollHup : Bool := false
  epollRdhup : Bool := false
deriving DecidableEq, Repr

/-- `Connection`, and the events that are registered for it with `epoll`. -/
structure Connection where
  codec : RequestCodec := {}
  writeBuffer : Bytes := []
  interestEvents : Events := { epollIn := true, epollRdhup := true }
  closeAfterWrite : Bool := false
  registeredEvents : Events := { epollIn := true, epollRdhup := true }

namespace Connection

/-- The size of the buffer of `ReadFromConnection`. -/
def readSize : Nat := 4096

/-- `std::toupper` in the `C` locale. -/
def toupper (ch : UInt8) : UInt8 := if 97 ≤ ch ∧ ch ≤ 122 then ch - 32 else ch

/-- `FirstCommandTokenUpper`. -/
def firstCommandTokenUpper (line : Bytes) : Bytes := line.map toupper

/-- The command word is `QUIT`. -/
def isQuit (request : DecodedRequest) : Bool :=
  match request.tokens with
  | [] => false
  | first :: _ => firstCommandTokenUpper first = ['Q', 'U', 'I', 'T'].map Char.toUInt8

variable {σ : Type} (execute : σ → List Bytes → σ × Except String Bytes)

/-- The loop of `ReadFromConnection` over the requests of a chunk. -/
def answer (store : σ) (connection : Connection) :
    List DecodedRequest → σ × Except String Connection
  | [] => (store, .ok connection)
  | request :: requests =>
    match execute store request.tokens with
    | (store, .error error) => (store, .error error)
    | (store, .ok response) =>
      answer store
        { connection with
          closeAfterWrite := connection.closeAfterWrite || isQuit request
          writeBuffer := connection.writeBuffer ++ response } requests

/-- How the reading loop ends: there is nothing more to read, the connection has been closed,
    or the exception of a command leaves the function. -/
inductive ReadResult where
  | opened (connection : Connection)
  | closed
  | thrown (error : String)

/-- The reading loop of `ReadFromConnection`, for what the calls of `read` return, and what
    `TryExtractResp` is told when it reserves room for the tokens of a request. -/
def readLoopWith (reserve : Nat → Option String) (store : σ) (connection : Connection) :
    List ReadOutcome → σ × ReadResult
  | [] | .again :: _ => (store, .opened connection)
  | .interrupted :: outcomes => readLoopWith reserve store connection outcomes
  | .failed :: _ | .closed :: _ => (store, .closed)
  | .bytes chunk :: outcomes =>
    match (connection.codec.append chunk).extractRequestsWith reserve with
    -- `ExtractRequests` throws: the requests that it has taken out are lost
    | (.error _, _) => (store, .closed)
    | (.ok requests, codec) =>
      match answer execute store { connection with codec } requests with
      | (store, .error error) => (store, .thrown error)
      | (store, .ok connection) => readLoopWith reserve store connection outcomes

/-- The reading loop when there is room for any number of tokens. -/
def readLoop (store : σ) (connection : Connection) (outcomes : List ReadOutcome) :
    σ × ReadResult :=
  readLoopWith execute (fun _ => none) store connection outcomes

/-- One round of the reading loop. -/
theorem readLoop_bytes (store : σ) (connection : Connection) (chunk : Bytes)
    (outcomes : List ReadOutcome) :
    readLoop execute store connection (.bytes chunk :: outcomes) =
      match (connection.codec.append chunk).extractRequests with
      | (.error _, _) => (store, .closed)
      | (.ok requests, codec) =>
        match answer execute store { connection with codec } requests with
        | (store, .error error) => (store, .thrown error)
        | (store, .ok connection) => readLoop execute store connection outcomes :=
  rfl

/-! ## Writing -/

/-- `SetConnectionInterest`. -/
def setConnectionInterest (connection : Connection) (events : Events) : Connection :=
  if connection.interestEvents = events then connection
  else { connection with interestEvents := events, registeredEvents := events }

/-- The end of `WriteToConnection`, when there is nothing left to write. -/
def finishWriting (connection : Connection) : ReadResult :=
  if connection.closeAfterWrite then .closed
  else .opened (connection.setConnectionInterest { epollIn := true, epollRdhup := true })

/-- What `WriteToConnection` does when the socket takes no more bytes. -/
def awaitWritable (connection : Connection) : ReadResult :=
  .opened (connection.setConnectionInterest
    { epollIn := true, epollOut := true, epollRdhup := true })

/-- `WriteToConnection`, for what the calls of `write` return: the bytes that the socket has
    taken, and whether the connection is still open. A `write` to a socket whose other end has
    gone away does not return `EPIPE` here: it raises `SIGPIPE`, which ends the process, as
    nothing ignores the signal. -/
def writeToConnection (connection : Connection) : List SendOutcome → Bytes × ReadResult
  | [] =>
    ([], if connection.writeBuffer = [] then connection.finishWriting
      else connection.awaitWritable)
  | outcome :: outcomes =>
    if connection.writeBuffer = [] then ([], connection.finishWriting)
    else
      match outcome with
      | .again => ([], connection.awaitWritable)
      | .interrupted => writeToConnection connection outcomes
      | .failed => ([], .closed)
      | .wrote count =>
        let (written, result) := writeToConnection
          { connection with writeBuffer := connection.writeBuffer.drop count } outcomes
        (connection.writeBuffer.take count ++ written, result)

/-! ## Events -/

/-- `ReadFromConnection`: the store, the bytes that the socket has taken, and whether the
    connection is still open. -/
def readFromConnection (store : σ) (connection : Connection) (reads : List ReadOutcome)
    (writes : List SendOutcome) : σ × Bytes × ReadResult :=
  match readLoop execute store connection reads with
  | (store, .opened connection) =>
    -- what the socket holds is read to the end before anything is written
    if connection.writeBuffer = [] then (store, [], .opened connection)
    else (store, connection.writeToConnection writes)
  | (store, result) => (store, [], result)

end Connection

/-- The events that `epoll` reports on a connection, and what the calls of `read` and `write`
    return while they are handled: `writes` in `ReadFromConnection`, `laterWrites` after it. -/
structure ReadyEvent (ι : Type) where
  connection : ι
  events : Events
  reads : List ReadOutcome := []
  writes : List SendOutcome := []
  laterWrites : List SendOutcome := []

/-- `HandleConnectionEvent` for a connection that is in the map. -/
def Connection.handleEvent {ι σ : Type} (execute : σ → List Bytes → σ × Except String Bytes)
    (store : σ) (connection : Connection) (event : ReadyEvent ι) : σ × Bytes × ReadResult :=
  if event.events.epollErr || event.events.epollHup || event.events.epollRdhup then
    (store, [], .closed)
  else
    let (store, written, result) :=
      if event.events.epollIn then
        connection.readFromConnection execute store event.reads event.writes
      else (store, [], .opened connection)
    match result with
    | .opened connection =>
      if event.events.epollOut then
        let (written', result) := connection.writeToConnection event.laterWrites
        (store, written ++ written', result)
      else (store, written, .opened connection)
    | result => (store, written, result)

/-- `ReactorServer::Impl`: the store and the connections in the map `connections_`. -/
structure Reactor (ι σ : Type) where
  store : σ
  connections : ι → Option Connection

namespace Reactor

variable {ι σ : Type} [DecidableEq ι] (execute : σ → List Bytes → σ × Except String Bytes)

/-- The end of `AcceptConnections` for one connection. -/
def accept (r : Reactor ι σ) (i : ι) : Reactor ι σ :=
  { r with connections := Function.update r.connections i (some {}) }

/-- `HandleConnectionEvent`: the bytes that the socket has taken, and the server afterwards,
    or the exception that leaves `Run`. -/
def handleConnectionEvent (r : Reactor ι σ) (event : ReadyEvent ι) :
    Bytes × Except String (Reactor ι σ) :=
  match r.connections event.connection with
  -- closed by an event before this one
  | none => ([], .ok r)
  | some connection =>
    match connection.handleEvent execute r.store event with
    | (store, written, .opened connection) =>
      (written, .ok { store, connections :=
        Function.update r.connections event.connection (some connection) })
    | (store, written, .closed) =>
      (written, .ok { store, connections := Function.update r.connections event.connection none })
    | (_, written, .thrown error) => (written, .error error)

end Reactor

/-- An event that `epoll_wait` reports. -/
inductive LoopEvent (ι : Type) where
  /-- On the listening socket, with the connections that `AcceptConnections` accepts. -/
  | listening (accepted : List ι)
  /-- On a connection. -/
  | ready (event : ReadyEvent ι)

namespace Reactor

variable {ι σ : Type} [DecidableEq ι] (execute : σ → List Bytes → σ × Except String Bytes)

/-- One round of the loop of `Run` over the events that are reported. -/
def handleEvent (r : Reactor ι σ) : LoopEvent ι → Except String (Reactor ι σ)
  | .listening accepted => .ok (accepted.foldl accept r)
  | .ready event => (r.handleConnectionEvent execute event).2

/-- The loop of `Run` over the events that one call of `epoll_wait` reports: the server
    afterwards, or the exception that leaves `Run`. -/
def runBatch (r : Reactor ι σ) : List (LoopEvent ι) → Except String (Reactor ι σ)
  | [] => .ok r
  | event :: batch =>
    match r.handleEvent execute event with
    | .error error => .error error
    | .ok r => r.runBatch batch

end Reactor

end KvStore
