import KvStore.Native.Server
import KvStore.Spec.EventTrace
import Mathlib.Data.List.AList

/-!
# The server and its descriptors

Model of `ReactorServer::Impl` with the descriptors of its sockets. The kernel has a table of
the descriptors of the process and the interest list of the `epoll` instance; it gives a number
to a new socket that may have belonged to another one before. The map `connections_` is keyed by
the number, and so are the events. What `accept`, `read`, `write` and `epoll_wait` return is
given. Every accepted socket has a name of type `ι` that only the kernel knows, and with which
an event is recorded when it is reported.
-/

namespace KvStore

/-- What a descriptor stands for. -/
inductive Description (ι : Type) where
  | listening
  | epoll
  | socket (i : ι)
deriving DecidableEq

/-- The kernel as far as the server uses it: the descriptors that are open, the interest list,
    the sockets that have been accepted with the bytes that have been read from and written to
    them, and how often `close` has been called on a number that was not open. -/
structure Kernel (ι : Type) where
  table : Nat → Option (Description ι) := fun _ => none
  registered : Nat → Option Events := fun _ => none
  accepted : ι → Bool := fun _ => false
  received : ι → Bytes := fun _ => []
  sent : ι → Bytes := fun _ => []
  badCloses : Nat := 0

namespace Kernel

variable {ι : Type}

/-- `fd` is given to a new socket or `epoll` instance. -/
def opened (k : Kernel ι) (fd : Nat) (description : Description ι) : Kernel ι :=
  { k with table := Function.update k.table fd (some description) }

/-- `close`. A socket that is closed leaves the interest list. -/
def close (k : Kernel ι) (fd : Nat) : Kernel ι :=
  match k.table fd with
  | some _ =>
    { k with
      table := Function.update k.table fd none
      registered := Function.update k.registered fd none }
  | none => { k with badCloses := k.badCloses + 1 }

/-- `epoll_ctl` with `EPOLL_CTL_ADD`, if it succeeds. -/
def epollAdd (k : Kernel ι) (fd : Nat) (events : Events) : Option (Kernel ι) :=
  if (k.table fd).isSome && (k.registered fd).isNone then
    some { k with registered := Function.update k.registered fd (some events) }
  else none

/-- `epoll_ctl` with `EPOLL_CTL_MOD`, if it succeeds. -/
def epollMod (k : Kernel ι) (fd : Nat) (events : Events) : Option (Kernel ι) :=
  if (k.registered fd).isSome then
    some { k with registered := Function.update k.registered fd (some events) }
  else none

/-- `epoll_ctl` with `EPOLL_CTL_DEL`, whether it succeeds or not. -/
def epollDel (k : Kernel ι) (fd : Nat) : Kernel ι :=
  { k with registered := Function.update k.registered fd none }

variable [DecidableEq ι]

/-- Bytes are read from and written to the socket behind a descriptor. -/
def transfer (k : Kernel ι) (fd : Nat) (received sent : Bytes) : Kernel ι :=
  match k.table fd with
  | some (.socket i) =>
    { k with
      received := Function.update k.received i (k.received i ++ received)
      sent := Function.update k.sent i (k.sent i ++ sent) }
  | _ => k

end Kernel

/-- What `accept` returns, and what becomes of the new socket. An error is the text of
    `strerror(errno)`. -/
inductive AcceptOutcome (ι : Type) where
  /-- A socket, for which everything succeeds that is not decided by the descriptors. -/
  | accepted (fd : Nat) (i : ι)
  /-- A socket, and one of `SetNonBlocking`, `SetTcpNoDelay` and `epoll_ctl` throws this. -/
  | unusable (fd : Nat) (i : ι) (message : String)
  /-- `EAGAIN` or `EWOULDBLOCK`. -/
  | again
  /-- `EINTR`. -/
  | interrupted
  /-- Any other error. -/
  | failed (error : String)

/-- Where `Run` is. An event of a batch has what its descriptor stood for when it was
    reported. -/
inductive RunPhase (ι : Type) where
  /-- Before `epoll_wait`. -/
  | waiting
  /-- In the loop over the events. -/
  | handling (batch : List (ReadyEvent Nat × Description ι))
  /-- In `AcceptConnections`, before `accept`. -/
  | accepting (batch : List (ReadyEvent Nat × Description ι))
  /-- `Run` has returned, or an exception has left it. -/
  | finished (result : Except String Unit)
  /-- The server has been destroyed. -/
  | destroyed

/-- `ReactorServer::Impl` and the kernel. A `Connection` owns the descriptor that is its key. -/
structure ReactorServer (ι σ : Type) where
  kernel : Kernel ι
  listenFd : Nat
  epollFd : Nat
  store : σ
  connections : AList fun _ : Nat => Connection := ∅
  phase : RunPhase ι := .waiting

namespace ReactorServer

variable {ι σ : Type}

/-! ## The constructor -/

/-- `CreateListenSocket`, for what `socket` returns and what the calls behind it throw. -/
def createListenSocket (k : Kernel ι) (socket : Except String Nat)
    (setup : Except String Unit) : Kernel ι × Except String Nat :=
  match socket with
  | .error error => (k, .error ("socket failed: " ++ error))
  | .ok fd =>
    match setup with
    | .ok () => (k.opened fd .listening, .ok fd)
    | .error message => ((k.opened fd .listening).close fd, .error message)

/-- `CreateEpoll`, for what `epoll_create1` returns. -/
def createEpoll (k : Kernel ι) : Except String Nat → Kernel ι × Except String Nat
  | .error error => (k, .error ("epoll_create1 failed: " ++ error))
  | .ok fd => (k.opened fd .epoll, .ok fd)

/-- The constructor for a store that has been opened, with what `socket`, the calls behind it,
    `epoll_create1`, the allocation of `events_` (which throws if `max_events` is negative) and
    `AddListenSocket` do. What has been constructed is destroyed again when something throws. -/
def construct (store : σ) (socket : Except String Nat) (setup : Except String Unit)
    (epoll : Except String Nat) (events add : Except String Unit) :
    Kernel ι × Except String (ReactorServer ι σ) :=
  match createListenSocket {} socket setup with
  | (k, .error message) => (k, .error message)
  | (k, .ok listenFd) =>
    match createEpoll k epoll with
    | (k, .error message) => (k.close listenFd, .error message)
    | (k, .ok epollFd) =>
      match events with
      | .error message => ((k.close epollFd).close listenFd, .error message)
      | .ok () =>
        match add, k.epollAdd listenFd { epollIn := true } with
        | .ok (), some k => (k, .ok { kernel := k, listenFd, epollFd, store })
        | .error error, _ =>
          ((k.close epollFd).close listenFd,
            .error ("epoll_ctl ADD listen socket failed: " ++ error))
        | .ok (), none =>
          ((k.close epollFd).close listenFd, .error "epoll_ctl ADD listen socket failed: ")

/-! ## Accepting -/

/-- What a connection is registered for when it is accepted. -/
def acceptEvents : Events := { epollIn := true, epollRdhup := true }

/-- The body of the loop of `AcceptConnections`, in front of a batch. -/
def acceptConnection [DecidableEq ι] (s : ReactorServer ι σ)
    (batch : List (ReadyEvent Nat × Description ι)) : AcceptOutcome ι → ReactorServer ι σ
  | .again => { s with phase := .handling batch }
  | .interrupted => s
  | .failed error => { s with phase := .finished (.error ("accept failed: " ++ error)) }
  | .unusable fd i message =>
    let k := { s.kernel.opened fd (.socket i) with
      accepted := Function.update s.kernel.accepted i true }
    { s with kernel := k.close fd, phase := .finished (.error message) }
  | .accepted fd i =>
    let k := { s.kernel.opened fd (.socket i) with
      accepted := Function.update s.kernel.accepted i true }
    match k.epollAdd fd acceptEvents with
    | none =>
      { s with
        kernel := k.close fd
        phase := .finished (.error "epoll_ctl ADD client socket failed: ") }
    | some k =>
      match s.connections.lookup fd with
      | none => { s with kernel := k, connections := s.connections.insert fd {} }
      -- `emplace` keeps the entry, and the new `Connection` is destroyed
      | some _ => { s with kernel := k.close fd }

/-! ## Events -/

/-- `CloseConnection`. -/
def closeConnection (s : ReactorServer ι σ) (fd : Nat) : ReactorServer ι σ :=
  { s with kernel := (s.kernel.epollDel fd).close fd, connections := s.connections.erase fd }

variable [DecidableEq ι] (execute : σ → List Bytes → σ × Except String Bytes)

/-- `HandleConnectionEvent`, in front of the rest of the batch. -/
def handleConnectionEvent (s : ReactorServer ι σ) (event : ReadyEvent Nat)
    (batch : List (ReadyEvent Nat × Description ι)) : ReactorServer ι σ :=
  let fd := event.connection
  match s.connections.lookup fd with
  | none => { s with phase := .handling batch }
  | some connection =>
    match connection.handleEvent execute s.store event with
    | (store, _, .thrown error) => { s with store, phase := .finished (.error error) }
    | (store, written, .closed) =>
      { s with
        store
        kernel := s.kernel.transfer fd (connection.eventTrace event).received written
        phase := .handling batch }.closeConnection fd
    | (store, written, .opened next) =>
      let k := s.kernel.transfer fd (connection.eventTrace event).received written
      if next.registeredEvents = connection.registeredEvents then
        { s with
          store
          kernel := k
          connections := s.connections.insert fd next
          phase := .handling batch }
      else
        match k.epollMod fd next.registeredEvents with
        | some k =>
          { s with
            store
            kernel := k
            connections := s.connections.insert fd next
            phase := .handling batch }
        | none => { s with store, phase := .finished (.error "epoll_ctl MOD failed: ") }

/-- `~Impl`: the connections, the `epoll` instance and the listening socket are closed. -/
def destroy (s : ReactorServer ι σ) : ReactorServer ι σ :=
  { s with
    kernel := ((s.connections.keys.foldl Kernel.close s.kernel).close s.epollFd).close s.listenFd
    connections := ∅
    phase := .destroyed }

/-! ## Steps -/

/-- What `epoll_wait` may report: descriptors of the interest list, each at most once. -/
structure Reports (k : Kernel ι) (batch : List (ReadyEvent Nat × Description ι)) : Prop where
  nodup : (batch.map fun entry => entry.1.connection).Nodup
  registered : ∀ entry ∈ batch, (k.registered entry.1.connection).isSome
  description : ∀ entry ∈ batch, k.table entry.1.connection = some entry.2

/-- What `accept` may return: a number that is free, for a socket that is new. -/
def MayReturn (k : Kernel ι) : AcceptOutcome ι → Prop
  | .accepted fd i | .unusable fd i _ => k.table fd = none ∧ k.accepted i = false
  | _ => True

inductive Label (ι : Type) where
  /-- `epoll_wait` returns. -/
  | wait (batch : List (ReadyEvent Nat × Description ι))
  /-- `epoll_wait` fails. -/
  | fail (error : String)
  /-- `Run` sees `g_should_stop`. -/
  | stop
  | handle
  | accept (outcome : AcceptOutcome ι)
  | destroy

/-- One step. -/
inductive Step : ReactorServer ι σ → Label ι → ReactorServer ι σ → Prop where
  | wait {s : ReactorServer ι σ} {batch : List (ReadyEvent Nat × Description ι)}
      (hphase : s.phase = .waiting) (hreports : Reports s.kernel batch) :
      Step s (.wait batch) { s with phase := .handling batch }
  | fail {s : ReactorServer ι σ} {error : String} (hphase : s.phase = .waiting) :
      Step s (.fail error)
        { s with phase := .finished (.error ("epoll_wait failed: " ++ error)) }
  | stop {s : ReactorServer ι σ} (hphase : s.phase = .waiting) :
      Step s .stop { s with phase := .finished (.ok ()) }
  /-- All events have been handled. -/
  | again {s : ReactorServer ι σ} (hphase : s.phase = .handling []) :
      Step s .handle { s with phase := .waiting }
  /-- The next event is for the listening socket. -/
  | listening {s : ReactorServer ι σ} {event : ReadyEvent Nat} {description : Description ι}
      {batch : List (ReadyEvent Nat × Description ι)}
      (hphase : s.phase = .handling ((event, description) :: batch))
      (hlistening : event.connection = s.listenFd) :
      Step s .handle { s with phase := .accepting batch }
  /-- The next event is for another descriptor. -/
  | connection {s : ReactorServer ι σ} {event : ReadyEvent Nat} {description : Description ι}
      {batch : List (ReadyEvent Nat × Description ι)}
      (hphase : s.phase = .handling ((event, description) :: batch))
      (hconnection : event.connection ≠ s.listenFd) :
      Step s .handle (s.handleConnectionEvent execute event batch)
  | accept {s : ReactorServer ι σ} {outcome : AcceptOutcome ι}
      {batch : List (ReadyEvent Nat × Description ι)} (hphase : s.phase = .accepting batch)
      (hreturn : MayReturn s.kernel outcome) :
      Step s (.accept outcome) (s.acceptConnection batch outcome)
  /-- The server is destroyed when `Run` has ended. -/
  | destroy {s : ReactorServer ι σ} {result : Except String Unit}
      (hphase : s.phase = .finished result) : Step s .destroy s.destroy

end ReactorServer

end KvStore
