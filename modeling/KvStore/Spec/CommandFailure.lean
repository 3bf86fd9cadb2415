import KvStore.Native.FaultyStore
import KvStore.Spec.ReactorCorrect

/-!
# Commands that make the store throw

`execute_of_storeThrows` says what becomes of an exception of the store: `CHECKPOINT` answers
with an error line, from `PUT` and `DEL` it escapes. `failures_contained_iff` says when one
batch of events survives the failures in it: the requests that make the store throw have to
be `CHECKPOINT`s. Otherwise the exception leaves `Run`.
-/

namespace KvStore

namespace CommandProcessor

variable {σ : Type} {calls : StoreCalls σ}

/-- What the call that a command makes on the store returns, if it makes one that may throw. -/
def storeCall (calls : StoreCalls σ) (store : σ) (command : Bytes) (args : List Bytes) :
    Option (Except String Bool) :=
  if command = ascii "DEL" then
    match args with
    | [key] => some (calls.delete store key).2
    | _ => none
  else if command = ascii "CHECKPOINT" then
    if args = [] then some (calls.checkpoint store).2 else none
  else if command = ascii "PUT" then
    match args with
    | [key, value] => if key = [] ∨ value = [] then none else some (calls.put store key value).2
    | _ => none
  else none

/-- The execution of a request makes the store throw. -/
def StoreThrows (calls : StoreCalls σ) (store : σ) (tokens : List Bytes) : Prop :=
  ∃ first args error, tokens = first :: args ∧
    storeCall calls store (toUpper first) args = some (.error error)

/-- The command word is `CHECKPOINT`. -/
def isCheckpoint (tokens : List Bytes) : Bool :=
  match tokens with
  | [] => false
  | first :: _ => toUpper first = ascii "CHECKPOINT"

/-- A line that reports an error. -/
def IsErrorLine (response : Bytes) : Prop := ascii "ERROR " <+: response ∧ IsLine response

/-- An exception that is not caught. -/
def Escapes (result : σ × Except String Bytes) : Prop := ∃ error, result.2 = .error error

/-- A command that returns a response lets no exception out. -/
theorem not_escapes_ok {store : σ} {response : Bytes} : ¬ Escapes (store, .ok response) := by
  intro ⟨error, herror⟩
  cases herror

/-- A response that depends on a call escapes if the call throws. -/
theorem escapes_respond {result : σ × Except String Bool} {ifTrue ifFalse : String} :
    Escapes (respond result ifTrue ifFalse) ↔ ∃ error, result.2 = .error error := by
  unfold Escapes respond
  cases result.2 with
  | error error => simp [Except.map]
  | ok flag => simp [Except.map]

/-- A command that makes no call on the store that may throw, and returns. -/
private theorem escapes_iff_of_none {result : σ × Except String Bytes} {store : σ} {command : Bytes}
    {args : List Bytes} (hresult : ∃ response, result.2 = .ok response)
    (hcall : storeCall calls store command args = none) :
    Escapes result ↔ command ≠ ascii "CHECKPOINT" ∧
      ∃ error, storeCall calls store command args = some (.error error) := by
  obtain ⟨response, hresponse⟩ := hresult
  rw [Escapes, hresponse, hcall]
  simp

/-- What `ExecuteCommand` makes of an exception of the store. -/
theorem escapes_executeCommand (calls : StoreCalls σ) (store : σ) (command : Bytes)
    (args : List Bytes) :
    Escapes (executeCommand calls store command args) ↔
      command ≠ ascii "CHECKPOINT" ∧
        ∃ error, storeCall calls store command args = some (.error error) := by
  by_cases hknown : command ∈ commandWords
  · simp only [commandWords, List.mem_cons, List.not_mem_nil, or_false] at hknown
    rcases hknown with rfl | rfl | rfl | rfl | rfl | rfl | rfl
    · -- `PING`
      rw [executeCommand_ping]
      exact escapes_iff_of_none ⟨_, rfl⟩ rfl
    · -- `GET`
      rw [executeCommand_get]
      refine escapes_iff_of_none ?_ rfl
      split
      · split <;> exact ⟨_, rfl⟩
      · exact ⟨_, rfl⟩
    · -- `DEL`
      rw [executeCommand_del]
      split
      · rename_i key
        have hcall : storeCall calls store (ascii "DEL") [key] =
            some (calls.delete store key).2 := if_pos rfl
        have hcheckpoint : ascii "DEL" ≠ ascii "CHECKPOINT" := by decide
        rw [escapes_respond, hcall]
        simp [hcheckpoint]
      · rename_i hargs
        refine escapes_iff_of_none ⟨_, rfl⟩ ?_
        unfold storeCall
        rw [if_pos rfl]
        split
        · exact absurd rfl (hargs _)
        · rfl
    · -- `SCAN`
      rw [executeCommand_scan]
      refine escapes_iff_of_none ?_ rfl
      split <;> exact ⟨_, rfl⟩
    · -- `QUIT`
      rw [executeCommand_quit]
      exact escapes_iff_of_none ⟨_, rfl⟩ rfl
    · -- every exception of `CHECKPOINT` is caught
      rw [executeCommand_checkpoint]
      refine iff_of_false ?_ fun h => h.1 rfl
      split
      · split <;> exact not_escapes_ok
      · exact not_escapes_ok
    · -- `PUT`
      rw [executeCommand_put]
      split
      · rename_i key value
        have hcheckpoint : ascii "PUT" ≠ ascii "CHECKPOINT" := by decide
        have hcall : storeCall calls store (ascii "PUT") [key, value] =
            if key = [] ∨ value = [] then none else some (calls.put store key value).2 := by
          unfold storeCall
          iterate 2 refine (if_neg (by decide)).trans ?_
          exact if_pos rfl
        split
        · rename_i hempty
          exact escapes_iff_of_none ⟨_, rfl⟩ (hcall.trans (if_pos hempty))
        · rename_i hempty
          rw [escapes_respond, hcall]
          simp [hcheckpoint, hempty]
      · rename_i hargs
        refine escapes_iff_of_none ⟨_, rfl⟩ ?_
        unfold storeCall
        rw [if_neg (by decide), if_neg (by decide), if_pos rfl]
        split
        · exact absurd rfl (hargs _ _)
        · rfl
  · rw [executeCommand_unknown calls store args hknown]
    refine escapes_iff_of_none ⟨_, rfl⟩ ?_
    simp only [commandWords, List.mem_cons, List.not_mem_nil, or_false, not_or] at hknown
    simp only [storeCall, hknown, if_false]

/-- An exception escapes from `Execute` if the store throws, except for `CHECKPOINT`. -/
theorem escapes_execute {store : σ} {tokens : List Bytes} :
    Escapes (execute calls store tokens) ↔
      StoreThrows calls store tokens ∧ isCheckpoint tokens = false := by
  cases tokens with
  | nil =>
    constructor
    · exact fun h => absurd h not_escapes_ok
    · intro ⟨⟨first, args, error, hnil, _⟩, _⟩
      cases hnil
  | cons first args =>
    rw [execute, escapes_executeCommand, isCheckpoint]
    simp [StoreThrows, and_comm]

/-- `CHECKPOINT` answers with an error line when the store throws. -/
theorem execute_checkpoint {store : σ} {tokens : List Bytes} (hcheckpoint : isCheckpoint tokens)
    (hthrows : StoreThrows calls store tokens) :
    (execute calls store tokens).2 = .ok (ascii "ERROR checkpoint failed\r\n") := by
  obtain ⟨first, args, error, rfl, hcall⟩ := hthrows
  have hcommand : toUpper first = ascii "CHECKPOINT" := of_decide_eq_true hcheckpoint
  have hargs : args = [] ∧ (calls.checkpoint store).2 = .error error := by
    unfold storeCall at hcall
    rw [if_neg (by rw [hcommand]; decide), if_pos hcommand] at hcall
    exact (Option.ite_none_right_eq_some.mp hcall).imp id Option.some.inj
  show (executeCommand calls store (toUpper first) args).2 = _
  rw [hcommand, hargs.1, executeCommand_checkpoint, if_pos rfl]
  split
  · rename_i heq
    rw [heq] at hargs
    cases hargs.2
  · rename_i heq
    rw [heq] at hargs
    cases hargs.2
  · rfl

end CommandProcessor

namespace Connection

open CommandProcessor

section Executions

variable {σ : Type} (execute : σ → List Bytes → σ × Except String Bytes)

/-- The requests that are executed one after another, up to one that throws, each with the
    store on which it is executed. -/
def executions (store : σ) : List DecodedRequest → List (σ × DecodedRequest)
  | [] => []
  | request :: requests =>
    (store, request) ::
      match execute store request.tokens with
      | (store, .ok _) => executions store requests
      | (_, .error _) => []

/-- An exception escapes from one of the requests. -/
def AnyEscapes (store : σ) (requests : List DecodedRequest) : Prop :=
  ∃ entry ∈ executions execute store requests, Escapes (execute entry.1 entry.2.tokens)

variable {execute}

theorem not_anyEscapes_nil {store : σ} : ¬ AnyEscapes execute store [] := by
  intro ⟨entry, hentry, _⟩
  cases hentry

/-- Behind a command that returns, the others decide. -/
theorem anyEscapes_cons_ok {store store' : σ} {request : DecodedRequest} {response : Bytes}
    {requests : List DecodedRequest}
    (h : execute store request.tokens = (store', .ok response)) :
    AnyEscapes execute store (request :: requests) ↔ AnyEscapes execute store' requests := by
  unfold AnyEscapes
  rw [executions]
  simp only [h, List.exists_mem_cons_iff]
  exact or_iff_right not_escapes_ok

/-- A command that throws decides by itself. -/
theorem anyEscapes_cons_error {store store' : σ} {request : DecodedRequest} {error : String}
    {requests : List DecodedRequest}
    (h : execute store request.tokens = (store', .error error)) :
    AnyEscapes execute store (request :: requests) := by
  refine ⟨(store, request), ?_, error, by rw [h]⟩
  rw [executions]
  exact List.mem_cons_self

/-- The requests of a chunk: an exception ends the loop, or the requests behind them are
    executed on the store that they leave. -/
theorem answer_cases (execute : σ → List Bytes → σ × Except String Bytes) (store : σ)
    (connection : Connection) (requests : List DecodedRequest) :
    (∃ store' error, answer execute store connection requests = (store', .error error) ∧
      ∀ more, AnyEscapes execute store (requests ++ more)) ∨
    ∃ store' connection', answer execute store connection requests = (store', .ok connection') ∧
      connection'.codec = connection.codec ∧
      ∀ more, AnyEscapes execute store (requests ++ more) ↔ AnyEscapes execute store' more := by
  -- by induction on the requests: what follows one that throws is not executed
  induction requests generalizing store connection with
  | nil => exact .inr ⟨store, connection, rfl, rfl, fun _ => Iff.rfl⟩
  | cons request requests ih =>
    rcases hexecute : execute store request.tokens with ⟨store', error | response⟩
    · -- the request throws
      refine .inl ⟨store', error, ?_, fun _ => anyEscapes_cons_error hexecute⟩
      rw [answer]
      simp only [hexecute]
    · have hanswer : answer execute store connection (request :: requests) =
          answer execute store'
            { connection with
              closeAfterWrite := connection.closeAfterWrite || isQuit request
              writeBuffer := connection.writeBuffer ++ response } requests := by
        rw [answer]
        simp only [hexecute]
      rw [hanswer]
      obtain ⟨store'', error, heq, hescapes⟩ | ⟨store'', next, heq, hcodec, hescapes⟩ :=
        ih store' { connection with
          closeAfterWrite := connection.closeAfterWrite || isQuit request
          writeBuffer := connection.writeBuffer ++ response }
      · exact .inl ⟨store'', error, heq, fun more => (anyEscapes_cons_ok hexecute).mpr
          (hescapes more)⟩
      · exact .inr ⟨store'', next, heq, hcodec, fun more => (anyEscapes_cons_ok hexecute).trans
          (hescapes more)⟩

/-- An exception leaves the reading loop if it escapes from a request that is read. -/
theorem readLoop_thrown_iff {store : σ} {connection : Connection}
    {outcomes : List ReadOutcome} :
    (∃ error, (readLoop execute store connection outcomes).2 = .thrown error) ↔
      AnyEscapes execute store (readTrace connection.codec outcomes).requests := by
  -- an ending behind which no request is executed
  have hnone {store : σ} {result : ReadResult} (hresult : ∀ error, result ≠ .thrown error) :
      (∃ error, result = .thrown error) ↔ AnyEscapes execute store [] :=
    iff_of_false (fun ⟨error, herror⟩ => hresult error herror) not_anyEscapes_nil
  induction outcomes generalizing store connection with
  | nil => exact hnone fun _ => ReadResult.noConfusion
  | cons outcome outcomes ih =>
    cases outcome with
    | interrupted => exact ih
    | again => exact hnone fun _ => ReadResult.noConfusion
    | closed => exact hnone fun _ => ReadResult.noConfusion
    | failed => exact hnone fun _ => ReadResult.noConfusion
    | bytes chunk =>
      rw [readLoop_bytes, readTrace]
      rcases (connection.codec.append chunk).extractRequests with ⟨error | requests, codec⟩
      · exact hnone fun _ => ReadResult.noConfusion
      · simp only
        obtain ⟨store', error, heq, hescapes⟩ | ⟨store', next, heq, hcodec, hescapes⟩ :=
          answer_cases execute store { connection with codec } requests
        · simp only [heq]
          exact iff_of_true ⟨error, rfl⟩ (hescapes _)
        · -- the loop goes on with the next call of `read`
          simp only [heq]
          rw [hescapes, ← show next.codec = codec from hcodec]
          exact ih

end Executions

section Events

variable {ι σ : Type} {execute : σ → List Bytes → σ × Except String Bytes}

/-- Writing throws nothing. -/
theorem writeToConnection_ne_thrown (connection : Connection) (outcomes : List SendOutcome)
    (error : String) : (connection.writeToConnection outcomes).2 ≠ .thrown error := by
  obtain ⟨written, left, -, hcases⟩ := connection.writeToConnection_cases outcomes
  rcases hcases with ⟨-, heq⟩ | ⟨-, heq⟩ | ⟨-, heq⟩
  · rw [heq, awaitWritable]
    exact ReadResult.noConfusion
  · rw [heq, finishWriting]
    split
    · exact ReadResult.noConfusion
    · exact ReadResult.noConfusion
  · rw [heq]
    exact ReadResult.noConfusion

/-- `ReadFromConnection` throws what its reading loop throws. -/
theorem readFromConnection_thrown_iff {store : σ} {connection : Connection}
    {reads : List ReadOutcome} {writes : List SendOutcome} :
    (∃ error, (readFromConnection execute store connection reads writes).2.2 = .thrown error) ↔
      ∃ error, (readLoop execute store connection reads).2 = .thrown error := by
  unfold readFromConnection
  rcases readLoop execute store connection reads with ⟨store', next | - | error⟩
  · have hright : ¬ ∃ error, ReadResult.opened next = .thrown error := by simp
    simp only [hright, iff_false, not_exists]
    intro error
    split
    · exact ReadResult.noConfusion
    · exact writeToConnection_ne_thrown _ _ _
  · exact Iff.rfl
  · exact Iff.rfl

/-- An exception leaves `HandleConnectionEvent` if it escapes from a request that is read. -/
theorem handleEvent_thrown_iff {store : σ} {connection : Connection} {event : ReadyEvent ι} :
    (∃ error, (connection.handleEvent execute store event).2.2 = .thrown error) ↔
      AnyEscapes execute store (connection.eventTrace event).requests := by
  by_cases hhung : hungUp event.events = true
  · -- the connection is closed at once
    have htrace : connection.eventTrace event = { ending := .waits connection.codec } :=
      if_neg (by simp [hhung])
    unfold hungUp at hhung
    rw [htrace, handleEvent, if_pos hhung]
    exact iff_of_false (by simp) not_anyEscapes_nil
  have hhung' : hungUp event.events = false := by simpa using hhung
  unfold hungUp at hhung
  rw [handleEvent, if_neg hhung]
  by_cases hin : event.events.epollIn = true
  · have htrace : connection.eventTrace event = readTrace connection.codec event.reads :=
      if_pos ⟨hhung', hin⟩
    rw [htrace, ← readLoop_thrown_iff,
      ← @readFromConnection_thrown_iff _ execute store connection event.reads event.writes, hin]
    rcases readFromConnection execute store connection event.reads event.writes with
      ⟨store', written, next | - | error⟩
    · have hright : ¬ ∃ error, ReadResult.opened next = .thrown error := by simp
      simp only [hright, iff_false, not_exists, if_true]
      intro error
      split
      · exact writeToConnection_ne_thrown _ _ _
      · exact ReadResult.noConfusion
    · exact Iff.rfl
    · exact Iff.rfl
  · -- nothing is read
    have htrace : connection.eventTrace event = { ending := .waits connection.codec } :=
      if_neg fun h => hin h.2
    rw [htrace, if_neg hin]
    refine iff_of_false ?_ not_anyEscapes_nil
    simp only [not_exists]
    intro error
    split
    · exact writeToConnection_ne_thrown _ _ _
    · exact ReadResult.noConfusion

end Events

end Connection

namespace Reactor

open Connection CommandProcessor

variable {ι σ : Type} [DecidableEq ι]

section Batches

variable (execute : σ → List Bytes → σ × Except String Bytes)

/-- The requests that are executed while an event is handled, each with the store on which it
    is executed. -/
def executedBy (r : Reactor ι σ) : LoopEvent ι → List (σ × DecodedRequest)
  | .listening _ => []
  | .ready event =>
    match r.connections event.connection with
    | none => []
    | some connection => executions execute r.store (connection.eventTrace event).requests

/-- The requests that are executed in a batch, up to one whose exception leaves `Run`. -/
def executedIn (r : Reactor ι σ) : List (LoopEvent ι) → List (σ × DecodedRequest)
  | [] => []
  | event :: batch =>
    r.executedBy execute event ++
      match r.handleEvent execute event with
      | .error _ => []
      | .ok r => r.executedIn batch

variable {execute}

/-- An event stops `Run` if an exception escapes from a request that is executed. -/
theorem handleEvent_error_iff {r : Reactor ι σ} {event : LoopEvent ι} :
    (∃ error, r.handleEvent execute event = .error error) ↔
      ∃ entry ∈ r.executedBy execute event, Escapes (execute entry.1 entry.2.tokens) := by
  cases event with
  | listening accepted => simp [handleEvent, executedBy]
  | ready event =>
    rw [handleEvent, handleConnectionEvent, executedBy]
    cases hconnection : r.connections event.connection with
    | none => simp
    | some connection =>
      refine Iff.trans ?_ handleEvent_thrown_iff
      rcases hevent : connection.handleEvent execute r.store event with
        ⟨store, written, next | - | error⟩
      · simp [hevent]
      · simp [hevent]
      · simp [hevent]

/-- A batch is handled to its end if no exception escapes. -/
theorem runBatch_ok_iff {r : Reactor ι σ} {batch : List (LoopEvent ι)} :
    (∃ r', r.runBatch execute batch = .ok r') ↔
      ∀ entry ∈ r.executedIn execute batch, ¬ Escapes (execute entry.1 entry.2.tokens) := by
  -- by induction on the events, which the first exception ends
  induction batch generalizing r with
  | nil => simp [runBatch, executedIn]
  | cons event batch ih =>
    have herror := @handleEvent_error_iff _ _ _ execute r event
    rw [runBatch, executedIn]
    cases hhandle : r.handleEvent execute event with
    | error error =>
      obtain ⟨entry, hentry, hescapes⟩ := herror.mp ⟨error, hhandle⟩
      refine iff_of_false (by simp) fun hnone => hnone entry ?_ hescapes
      exact List.mem_append_left _ hentry
    | ok next =>
      simp only
      rw [ih]
      -- the event was handled, so nothing escaped from its requests
      have hfirst : ∀ entry ∈ r.executedBy execute event,
          ¬ Escapes (execute entry.1 entry.2.tokens) := by
        intro entry hentry hescapes
        obtain ⟨error, hfails⟩ := herror.mpr ⟨entry, hentry, hescapes⟩
        cases hhandle.symm.trans hfails
      constructor
      · intro hrest entry hentry
        exact (List.mem_append.mp hentry).elim (hfirst entry) (hrest entry)
      · exact fun hall entry hentry => hall entry (List.mem_append_right _ hentry)

/-- Two parts of a batch, one after the other. -/
theorem runBatch_append {r r' : Reactor ι σ} {before after : List (LoopEvent ι)} :
    r.runBatch execute (before ++ after) = .ok r' ↔
      ∃ r₁, r.runBatch execute before = .ok r₁ ∧ r₁.runBatch execute after = .ok r' := by
  induction before generalizing r with
  | nil => simp [runBatch]
  | cons event before ih =>
    rw [List.cons_append, runBatch, runBatch]
    cases r.handleEvent execute event with
    | error error => simp
    | ok next => exact ih

/-- An event on one connection leaves the others as they are. -/
theorem handleConnectionEvent_frame {r r' : Reactor ι σ} {event : ReadyEvent ι}
    {written : Bytes} (h : r.handleConnectionEvent execute event = (written, .ok r')) {i : ι}
    (hi : i ≠ event.connection) : r'.connections i = r.connections i := by
  unfold handleConnectionEvent at h
  split at h
  · cases h
    rfl
  · split at h
    · cases h
      exact Function.update_of_ne hi _ _
    · cases h
      exact Function.update_of_ne hi _ _
    · cases h

end Batches

/-- The failures in a batch are contained. -/
structure FailuresContained (calls : StoreCalls σ) (r : Reactor ι σ)
    (batch : List (LoopEvent ι)) : Prop where
  /-- A request that makes the store throw is answered with an error line. -/
  errorLine : ∀ entry ∈ r.executedIn (execute calls) batch,
    StoreThrows calls entry.1 entry.2.tokens →
      ∃ response, (execute calls entry.1 entry.2.tokens).2 = .ok response ∧ IsErrorLine response
  /-- `Run` goes on behind the batch. -/
  goesOn : ∃ r', r.runBatch (execute calls) batch = .ok r'
  /-- Every event is handled, leaves the other connections as they are, and those behind it
      are handled as well. -/
  handled : ∀ {before event after}, batch = before ++ .ready event :: after →
    ∃ r₁ written r₂ r', r.runBatch (execute calls) before = .ok r₁ ∧
      r₁.handleConnectionEvent (execute calls) event = (written, .ok r₂) ∧
      (∀ i ≠ event.connection, r₂.connections i = r₁.connections i) ∧
      r₂.runBatch (execute calls) after = .ok r'

/-- Each event of a batch that is handled to its end. -/
private theorem exists_handled {calls : StoreCalls σ} {r r' : Reactor ι σ}
    {before after : List (LoopEvent ι)} {event : ReadyEvent ι}
    (h : r.runBatch (execute calls) (before ++ .ready event :: after) = .ok r') :
    ∃ r₁ written r₂ r', r.runBatch (execute calls) before = .ok r₁ ∧
      r₁.handleConnectionEvent (execute calls) event = (written, .ok r₂) ∧
      (∀ i ≠ event.connection, r₂.connections i = r₁.connections i) ∧
      r₂.runBatch (execute calls) after = .ok r' := by
  obtain ⟨r₁, hbefore, hrest⟩ := runBatch_append.mp h
  rw [runBatch, handleEvent] at hrest
  rcases hhandle : r₁.handleConnectionEvent (execute calls) event with ⟨written, error | r₂⟩
  · simp only [hhandle] at hrest
    cases hrest
  · simp only [hhandle] at hrest
    exact ⟨r₁, written, r₂, r', hbefore, hhandle,
      fun i hi => handleConnectionEvent_frame hhandle hi, hrest⟩

/-- The failures in a batch are contained exactly if the requests that make the store throw
    are `CHECKPOINT`s. -/
theorem failures_contained_iff (calls : StoreCalls σ) (r : Reactor ι σ)
    (batch : List (LoopEvent ι)) :
    r.FailuresContained calls batch ↔
      ∀ entry ∈ r.executedIn (execute calls) batch,
        StoreThrows calls entry.1 entry.2.tokens → isCheckpoint entry.2.tokens = true := by
  constructor
  · intro h entry hentry hthrows
    by_contra hcheckpoint
    have hescapes : Escapes (execute calls entry.1 entry.2.tokens) :=
      escapes_execute.mpr ⟨hthrows, by simpa using hcheckpoint⟩
    exact runBatch_ok_iff.mp h.goesOn entry hentry hescapes
  · intro h
    have hgoesOn : ∃ r', r.runBatch (execute calls) batch = .ok r' := by
      refine runBatch_ok_iff.mpr fun entry hentry hescapes => ?_
      obtain ⟨hthrows, hcheckpoint⟩ := escapes_execute.mp hescapes
      exact absurd (h entry hentry hthrows) (by simp [hcheckpoint])
    refine ⟨fun entry hentry hthrows => ?_, hgoesOn, fun hbatch => ?_⟩
    · -- `CHECKPOINT` catches what it throws and answers with an error
      exact ⟨_, execute_checkpoint (h entry hentry hthrows) hthrows, by decide, by decide⟩
    · subst hbatch
      obtain ⟨r', hrun⟩ := hgoesOn
      exact exists_handled hrun

/-! ## A full disk -/

/-- A request comes in on a connection. -/
def requestEvent (i : ι) (tokens : List Bytes) : LoopEvent ι :=
  .ready { connection := i, events := { epollIn := true }, reads := [.bytes (encodeResp tokens)] }

/-- A server with two connections, in an empty directory on a disk that is full. -/
def onFullDisk : Reactor Bool FaultyStore where
  store := { store := KVStore.fresh, faults := [{ writes := [.failed "No space left on device"] }] }
  connections _ := some {}

/-- A `PUT` on one connection and a `PING` on the other. -/
def putAndPing : List (LoopEvent Bool) :=
  [requestEvent false [ascii "PUT", ascii "k", ascii "v"], requestEvent true [ascii "PING"]]

/-- The exception of the `PUT` leaves `Run`, and the `PING` is not handled. -/
theorem failed_put_leaves_run :
    onFullDisk.runBatch (execute (FaultyStore.calls {})) putAndPing =
        .error "write failed: No space left on device" ∧
      ¬ onFullDisk.FailuresContained (FaultyStore.calls {}) putAndPing := by
  have hrun : onFullDisk.runBatch (execute (FaultyStore.calls {})) putAndPing =
      .error "write failed: No space left on device" := rfl
  refine ⟨hrun, fun h => ?_⟩
  obtain ⟨r', hgoesOn⟩ := h.goesOn
  cases hrun.symm.trans hgoesOn

end Reactor

end KvStore
