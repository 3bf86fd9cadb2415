import KvStore.ForStd.Transition
import KvStore.Spec.CommandExecution
import KvStore.Spec.EventTrace

/-!
# What is registered with `epoll`

The buffer, `close_after_write`, the cached mask and the mask that is registered are changed in
different functions. `Settled` is what holds of them at any time while an event is handled and
nothing is being written, `Armed` what holds when it has been handled: reading keeps the
former, and `WriteToConnection` establishes the latter. `armed_of_run` lifts this to every run
of the event loop.
-/

namespace KvStore

namespace CommandProcessor

/-- No response is empty. -/
def NeverEmpty {σ : Type} (execute : σ → List Bytes → σ × Except String Bytes) : Prop :=
  ∀ {store tokens store' response}, execute store tokens = (store', .ok response) → response ≠ []

/-- `Execute` always returns some text: every response ends with a line end. -/
theorem neverEmpty_execute {σ : Type} (calls : StoreCalls σ) : NeverEmpty (execute calls) := by
  intro store tokens store' response hexecute
  have hreply : (reply calls store tokens).2 ≠ [] := reply_ne_nil store tokens
  rw [reply_of_ok hexecute] at hreply
  exact hreply

end CommandProcessor

namespace Connection

open CommandProcessor

/-- The registration is the cached mask and asks for input. Neither `EPOLLOUT` nor
    `close_after_write` is left over when there is nothing to write. -/
structure Settled (connection : Connection) : Prop where
  registered : connection.registeredEvents = connection.interestEvents
  input : connection.interestEvents.epollIn = true
  hangUp : connection.interestEvents.epollRdhup = true
  output : connection.interestEvents.epollOut = true → connection.writeBuffer ≠ []
  closing : connection.closeAfterWrite = true → connection.writeBuffer ≠ []

/-- Besides, `EPOLLOUT` is asked for when there is something to write. -/
structure Armed (connection : Connection) : Prop extends connection.Settled where
  wakes : connection.writeBuffer ≠ [] → connection.interestEvents.epollOut = true

/-- A connection that has just been accepted. -/
theorem armed_accepted : Armed {} where
  registered := rfl
  input := rfl
  hangUp := rfl
  output h := by cases h
  closing h := by cases h
  wakes h := absurd rfl h

/-- Pending output has a wake-up that is registered with `epoll`. -/
theorem Armed.registered_epollOut {connection : Connection} (h : connection.Armed) :
    connection.registeredEvents.epollOut = true ↔ connection.writeBuffer ≠ [] := by
  rw [h.registered]
  exact ⟨h.output, h.wakes⟩

/-! ## Reading -/

section Reading

variable {σ : Type} {execute : σ → List Bytes → σ × Except String Bytes}

/-- A response that is not empty is put into the buffer. -/
theorem Settled.respond {connection : Connection} (h : connection.Settled) {response : Bytes}
    (hresponse : response ≠ []) (quit : Bool) :
    Settled { connection with
      closeAfterWrite := connection.closeAfterWrite || quit
      writeBuffer := connection.writeBuffer ++ response } where
  registered := h.registered
  input := h.input
  hangUp := h.hangUp
  output _ := List.append_ne_nil_of_right_ne_nil _ hresponse
  closing _ := List.append_ne_nil_of_right_ne_nil _ hresponse

/-- The requests of a chunk. -/
theorem Settled.answer (hexecute : NeverEmpty execute) {store store' : σ}
    {connection next : Connection} {requests : List DecodedRequest} (h : connection.Settled)
    (hanswer : Connection.answer execute store connection requests = (store', .ok next)) :
    next.Settled := by
  induction requests generalizing store connection with
  | nil =>
    cases hanswer
    exact h
  | cons request requests ih =>
    rw [Connection.answer] at hanswer
    split at hanswer
    · cases hanswer
    · rename_i response hrequest
      exact ih (h.respond (hexecute hrequest) _) hanswer

/-- The reading loop, up to where it finds nothing more to read. -/
theorem Settled.readLoop (hexecute : NeverEmpty execute) {store store' : σ}
    {connection next : Connection} {outcomes : List ReadOutcome} (h : connection.Settled)
    (hloop : Connection.readLoop execute store connection outcomes = (store', .opened next)) :
    next.Settled := by
  -- by induction on the calls of `read`
  induction outcomes generalizing store connection with
  | nil =>
    cases hloop
    exact h
  | cons outcome outcomes ih =>
    cases outcome with
    | again =>
      cases hloop
      exact h
    | interrupted => exact ih h hloop
    | failed => cases hloop
    | closed => cases hloop
    | bytes chunk =>
      rw [Connection.readLoop_bytes] at hloop
      split at hloop
      · cases hloop
      · -- the codec is not looked at
        rename_i codec _
        have hcodec : Settled { connection with codec } := ⟨h.1, h.2, h.3, h.4, h.5⟩
        split at hloop
        · cases hloop
        · rename_i hanswer
          exact ih (hcodec.answer hexecute hanswer) hloop

end Reading

/-! ## Writing -/

/-- `SetConnectionInterest` leaves the new mask in the cache and registered. -/
theorem setConnectionInterest_eq {connection : Connection} (events : Events)
    (h : connection.registeredEvents = connection.interestEvents) :
    connection.setConnectionInterest events =
      { connection with interestEvents := events, registeredEvents := events } := by
  unfold setConnectionInterest
  split
  · rename_i heq
    subst heq
    cases connection
    cases h
    rfl
  · rfl

/-- What `WriteToConnection` leaves is armed, whatever it has found in the buffer. -/
theorem armed_of_write {connection next : Connection}
    (hregistered : connection.registeredEvents = connection.interestEvents)
    {outcomes : List SendOutcome} {written : Bytes}
    (hwrite : connection.writeToConnection outcomes = (written, .opened next)) : next.Armed := by
  obtain ⟨_, left, -, hcases⟩ := connection.writeToConnection_cases outcomes
  rw [hwrite] at hcases
  obtain ⟨hleft, heq⟩ | ⟨-, heq⟩ | ⟨-, heq⟩ := hcases
  · -- `EAGAIN`: the rest of the buffer waits for the socket
    rw [awaitWritable, setConnectionInterest_eq _ (by exact hregistered)] at heq
    cases heq
    exact ⟨⟨rfl, rfl, rfl, fun _ => hleft, fun _ => hleft⟩, fun _ => rfl⟩
  · -- drained: a connection that is marked has been closed
    unfold finishWriting at heq
    split at heq
    · cases heq
    · rename_i hclose
      rw [setConnectionInterest_eq _ (by exact hregistered)] at heq
      cases heq
      have hout : ({ epollIn := true, epollRdhup := true } : Events).epollOut ≠ true := by decide
      exact ⟨⟨rfl, rfl, rfl, fun h => absurd h hout, fun h => absurd h hclose⟩,
        fun h => absurd rfl h⟩
  · cases heq

/-! ## Events -/

section Events

variable {ι σ : Type} {execute : σ → List Bytes → σ × Except String Bytes}

/-- `ReadFromConnection` writes whenever there is something to write. -/
theorem Armed.readFromConnection (hexecute : NeverEmpty execute) {store store' : σ}
    {connection next : Connection} {reads : List ReadOutcome} {writes : List SendOutcome}
    {written : Bytes} (h : connection.Armed)
    (hread : Connection.readFromConnection execute store connection reads writes =
      (store', written, .opened next)) : next.Armed := by
  unfold Connection.readFromConnection at hread
  split at hread
  · rename_i between hloop
    have hsettled : between.Settled := h.toSettled.readLoop hexecute hloop
    split at hread
    · rename_i hnil
      cases hread
      exact ⟨hsettled, fun hbuffer => absurd hnil hbuffer⟩
    · exact armed_of_write hsettled.registered (congrArg Prod.snd hread)
  · -- the connection has been closed, or an exception has been thrown
    rename_i hopened _
    cases hread
    exact (hopened _ rfl).elim

/-- `HandleConnectionEvent` leaves the connection armed, if it does not close it. -/
theorem Armed.handleEvent (hexecute : NeverEmpty execute) {store store' : σ}
    {connection next : Connection} {event : ReadyEvent ι} {written : Bytes}
    (h : connection.Armed)
    (hhandle : connection.handleEvent execute store event = (store', written, .opened next)) :
    next.Armed := by
  unfold Connection.handleEvent at hhandle
  split at hhandle
  · cases hhandle
  · -- what is there after `EPOLLIN` has been looked at
    have hbetween {store₁ : σ} {written₁ : Bytes} {between : Connection}
        (hread : (if event.events.epollIn then
            connection.readFromConnection execute store event.reads event.writes
          else (store, [], .opened connection)) = (store₁, written₁, .opened between)) :
        between.Armed := by
      split at hread
      · exact h.readFromConnection hexecute hread
      · cases hread
        exact h
    generalize (if event.events.epollIn then
        connection.readFromConnection execute store event.reads event.writes
      else (store, [], .opened connection)) = afterRead at hhandle hbetween
    -- `EPOLLOUT` is looked at only if the connection is still open
    obtain ⟨store₁, written₁, between | - | error⟩ := afterRead
    · have harmed : between.Armed := hbetween rfl
      simp only at hhandle
      split at hhandle
      · obtain ⟨-, hwrite⟩ := Prod.mk.inj hhandle
        exact armed_of_write harmed.registered (Prod.ext rfl (Prod.mk.inj hwrite).2)
      · cases hhandle
        exact harmed
    · cases hhandle
    · cases hhandle

end Events

end Connection

namespace Reactor

open Connection CommandProcessor

variable {ι σ : Type} [DecidableEq ι]

/-- Every connection in the map is armed. -/
def Armed (r : Reactor ι σ) : Prop :=
  ∀ i connection, r.connections i = some connection → connection.Armed

/-- A change of one entry of the map. -/
private theorem Armed.update {r : Reactor ι σ} (h : r.Armed) (store : σ) (i : ι)
    {entry : Option Connection} (hentry : ∀ connection, entry = some connection →
      connection.Armed) :
    Armed { store, connections := Function.update r.connections i entry } := by
  intro j connection hconnection
  by_cases hj : j = i
  · subst hj
    exact hentry connection ((Function.update_self j entry r.connections).symm.trans hconnection)
  · exact h j connection ((Function.update_of_ne hj entry r.connections).symm.trans hconnection)

/-- The connections that are accepted. -/
theorem Armed.accept {r : Reactor ι σ} (h : r.Armed) (accepted : List ι) :
    (accepted.foldl Reactor.accept r).Armed := by
  induction accepted generalizing r with
  | nil => exact h
  | cons i accepted ih =>
    refine ih (h.update r.store i fun connection hconnection => ?_)
    cases hconnection
    exact armed_accepted

/-- One event, on the listening socket or on a connection. -/
theorem Armed.handleEvent {execute : σ → List Bytes → σ × Except String Bytes}
    (hexecute : NeverEmpty execute) {r r' : Reactor ι σ} (h : r.Armed) {event : LoopEvent ι}
    (hhandle : r.handleEvent execute event = .ok r') : r'.Armed := by
  cases event with
  | listening accepted =>
    cases hhandle
    exact h.accept accepted
  | ready event =>
    rw [Reactor.handleEvent, handleConnectionEvent] at hhandle
    cases hconnection : r.connections event.connection with
    | none =>
      rw [hconnection] at hhandle
      cases hhandle
      exact h
    | some connection =>
      have harmed : connection.Armed := h _ _ hconnection
      rw [hconnection] at hhandle
      obtain ⟨store, written, result, hevent⟩ :
          ∃ store written result,
            connection.handleEvent execute r.store event = (store, written, result) :=
        ⟨_, _, _, rfl⟩
      simp only [hevent] at hhandle
      cases result with
      | opened next =>
        -- the entry of this connection is replaced by what is left of it
        cases hhandle
        refine h.update _ _ fun connection' hnext => ?_
        cases hnext
        exact harmed.handleEvent hexecute hevent
      | closed =>
        cases hhandle
        exact h.update _ _ fun _ hnext => by cases hnext
      | thrown error => cases hhandle

/-- `Run` when it begins: there are no connections. -/
def listening (start : σ) : Reactor ι σ where
  store := start
  connections _ := none

/-- The event loop: a step handles one event, and no exception leaves it. -/
def Loop (execute : σ → List Bytes → σ × Except String Bytes) (r : Reactor ι σ)
    (event : LoopEvent ι) (r' : Reactor ι σ) : Prop :=
  r.handleEvent execute event = .ok r'

/-- After every event that is handled, the connections in the map are registered for what they
    wait for: pending output always has a wake-up, and so has a connection that is to be
    closed. -/
theorem armed_of_run {calls : StoreCalls σ} {start : σ} {r : Reactor ι σ}
    (hrun : Run (Loop (execute calls)) (fun _ _ => True) (listening start) r) {i : ι}
    {connection : Connection} (hconnection : r.connections i = some connection) :
    connection.interestEvents = connection.registeredEvents ∧
      (connection.interestEvents.epollOut = true ↔ connection.writeBuffer ≠ []) ∧
      connection.interestEvents.epollIn = true ∧ connection.interestEvents.epollRdhup = true ∧
      (connection.closeAfterWrite = true → connection.writeBuffer ≠ []) ∧
      (connection.writeBuffer ≠ [] ∨ connection.closeAfterWrite = true →
        connection.registeredEvents.epollOut = true) := by
  have hstart : (listening start : Reactor ι σ).Armed := by
    intro j connection hnone
    cases hnone
  have harmed : connection.Armed :=
    hrun.invariant hstart (fun h _ hstep => h.handleEvent (neverEmpty_execute calls) hstep) i
      connection hconnection
  refine ⟨harmed.registered.symm, ⟨harmed.output, harmed.wakes⟩, harmed.input, harmed.hangUp,
    harmed.closing, fun hpending => harmed.registered_epollOut.mpr ?_⟩
  exact hpending.elim id harmed.closing

/-- A `QUIT` of whose response two bytes are written: the connection waits for the socket. -/
def quitEvent : LoopEvent Unit :=
  .ready { connection := (), events := { epollIn := true },
           reads := [.bytes (encodeResp [ascii "QUIT"]), .again], writes := [.wrote 2, .again] }

/-- It is still registered for `EPOLLOUT`. -/
theorem armed_of_run_quit :
    ∃ (r : Reactor Unit KVStore) (connection : Connection),
      r.connections () = some connection ∧ connection.closeAfterWrite = true ∧
        connection.registeredEvents.epollOut = true := by
  have haccept : Loop (execute (KVStore.calls {})) (listening KVStore.fresh)
      (.listening [()]) ((listening KVStore.fresh).accept ()) := rfl
  have hquit : ∃ r, Loop (execute (KVStore.calls {})) ((listening KVStore.fresh).accept ())
      quitEvent r ∧
        ∃ connection, r.connections () = some connection ∧ connection.closeAfterWrite = true :=
    ⟨_, rfl, _, rfl, rfl⟩
  obtain ⟨r, hstep, connection, hconnection, hclose⟩ := hquit
  have hrun : Run (Loop (execute (KVStore.calls {}))) (fun _ _ => True)
      (listening KVStore.fresh) r := (Run.refl.tail _ trivial haccept).tail _ trivial hstep
  exact ⟨r, connection, hconnection, hclose,
    (armed_of_run hrun hconnection).2.2.2.2.2 (.inr hclose)⟩

end Reactor

end KvStore
