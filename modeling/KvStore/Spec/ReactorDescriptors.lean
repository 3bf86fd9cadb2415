import KvStore.Native.ReactorServer
import KvStore.Spec.ReactorCorrect

/-!
# The descriptors of the server

The kernel gives a number that has been closed to the next socket, so within one batch an event
for a number could come to stand for another connection. It never does: `epoll_wait` reports a
number once, and only the event of a connection closes it. `descriptors_safe` says this for
every run, and that no descriptor is closed twice or left open. The server with descriptors
therefore does what the one does that knows the connections by their names (`Matches`).
-/

namespace KvStore

/-! ## The kernel -/

namespace Kernel

variable {ι : Type} {k : Kernel ι} {fd : Nat}

@[simp] theorem table_opened (description : Description ι) (fd' : Nat) :
    (k.opened fd description).table fd' = if fd' = fd then some description else k.table fd' :=
  Function.update_apply _ _ _ _

@[simp] theorem registered_opened (description : Description ι) :
    (k.opened fd description).registered = k.registered :=
  rfl

@[simp] theorem badCloses_opened (description : Description ι) :
    (k.opened fd description).badCloses = k.badCloses :=
  rfl

/-- A descriptor that is open is closed. -/
theorem close_eq (h : (k.table fd).isSome) :
    k.close fd = { k with
      table := Function.update k.table fd none
      registered := Function.update k.registered fd none } := by
  obtain ⟨description, hdescription⟩ := Option.isSome_iff_exists.mp h
  simp only [close, hdescription]

/-- Closing takes one number from the table. -/
theorem table_close (h : (k.table fd).isSome) (fd' : Nat) :
    (k.close fd).table fd' = if fd' = fd then none else k.table fd' := by
  rw [close_eq h]
  exact Function.update_apply _ _ _ _

/-- A descriptor that is closed is no longer watched. -/
theorem registered_close (h : (k.table fd).isSome) (fd' : Nat) :
    (k.close fd).registered fd' = if fd' = fd then none else k.registered fd' := by
  rw [close_eq h]
  exact Function.update_apply _ _ _ _

/-- Closing an open descriptor is no mistake. -/
theorem badCloses_close (h : (k.table fd).isSome) : (k.close fd).badCloses = k.badCloses := by
  rw [close_eq h]

/-- Different descriptors that are open are closed one after another. -/
theorem foldl_close {fds : List Nat} (hnodup : fds.Nodup)
    (hopen : ∀ fd ∈ fds, (k.table fd).isSome) :
    (fds.foldl close k).badCloses = k.badCloses ∧
      ∀ fd, (fds.foldl close k).table fd = if fd ∈ fds then none else k.table fd := by
  induction fds generalizing k with
  | nil => simp
  | cons fd fds ih =>
    obtain ⟨hnot, hnodup⟩ := List.nodup_cons.mp hnodup
    have hfd := hopen fd List.mem_cons_self
    -- the others are still open when the first one has been closed
    obtain ⟨hbad, htable⟩ := @ih (k.close fd) hnodup fun fd' hfd' => by
      have hne : fd' ≠ fd := fun heq => hnot (heq ▸ hfd')
      rw [table_close hfd, if_neg hne]
      exact hopen fd' (List.mem_cons_of_mem _ hfd')
    rw [List.foldl_cons]
    refine ⟨hbad.trans (badCloses_close hfd), fun fd' => ?_⟩
    rw [htable, table_close hfd]
    by_cases hne : fd' = fd <;> simp [hne, hnot]

variable [DecidableEq ι]

/-- Bytes go to the socket behind the descriptor. -/
theorem transfer_eq {i : ι} (h : k.table fd = some (.socket i)) (received sent : Bytes) :
    k.transfer fd received sent = { k with
      received := Function.update k.received i (k.received i ++ received)
      sent := Function.update k.sent i (k.sent i ++ sent) } := by
  simp only [transfer, h]

end Kernel

namespace ReactorServer

open Reactor (History)

variable {ι σ : Type} {s : ReactorServer ι σ}

/-- `Run` has not ended. -/
def Running (s : ReactorServer ι σ) : Prop :=
  match s.phase with
  | .waiting | .handling _ | .accepting _ => True
  | _ => False

/-- The server has not been destroyed. -/
def Alive (s : ReactorServer ι σ) : Prop :=
  match s.phase with
  | .destroyed => False
  | _ => True

/-- The events that are left to handle. -/
def batch (s : ReactorServer ι σ) : List (ReadyEvent Nat × Description ι) :=
  match s.phase with
  | .handling batch | .accepting batch => batch
  | _ => []

/-! ## The invariant -/

/-- The descriptors until the server is destroyed. -/
structure Inv (s : ReactorServer ι σ) : Prop where
  alive : s.Alive
  listen : ∀ fd, s.kernel.table fd = some .listening ↔ fd = s.listenFd
  epoll : ∀ fd, s.kernel.table fd = some .epoll ↔ fd = s.epollFd
  sockets : ∀ fd, (∃ i, s.kernel.table fd = some (.socket i)) ↔ fd ∈ s.connections
  registered : ∀ fd, s.kernel.registered fd =
    if fd = s.listenFd then some { epollIn := true }
    else (s.connections.lookup fd).map Connection.registeredEvents
  named : ∀ {fd i}, s.kernel.table fd = some (.socket i) → s.kernel.accepted i = true
  distinct : ∀ {fd fd' i}, s.kernel.table fd = some (.socket i) →
    s.kernel.table fd' = some (.socket i) → fd = fd'
  nodup : (s.batch.map fun entry => entry.1.connection).Nodup
  /-- The events that are left belong to what they have been reported for. -/
  reported : ∀ entry ∈ s.batch, s.kernel.table entry.1.connection = some entry.2 ∧
    entry.2 ≠ .epoll
  badCloses : s.kernel.badCloses = 0

/-- The server with descriptors and the one that knows the connections by their names. -/
structure Matches (s : ReactorServer ι σ) (h : History ι σ) : Prop where
  store : h.reactor.store = s.store
  connections : ∀ i connection, h.reactor.connections i = some connection ↔
    ∃ fd, s.kernel.table fd = some (.socket i) ∧ s.connections.lookup fd = some connection
  accepted : h.accepted = s.kernel.accepted
  received : h.received = s.kernel.received
  sent : h.sent = s.kernel.sent

/-! ## The constructor -/

/-- What the constructor makes. -/
def start (store : σ) (listenFd epollFd : Nat) : ReactorServer ι σ where
  kernel :=
    { table := Function.update (Function.update (fun _ => none) listenFd (some .listening)) epollFd
        (some .epoll)
      registered := Function.update (fun _ => none) listenFd (some { epollIn := true }) }
  listenFd := listenFd
  epollFd := epollFd
  store := store

/-- The constructor makes a server, or leaves nothing open. -/
theorem construct_cases (store : σ) {socket epoll : Except String Nat}
    (setup events add : Except String Unit)
    (hdifferent : ∀ fd fd', socket = .ok fd → epoll = .ok fd' → fd' ≠ fd)
    {k : Kernel ι} {result : Except String (ReactorServer ι σ)}
    (hconstruct : construct store socket setup epoll events add = (k, result)) :
    (∃ listenFd epollFd, epollFd ≠ listenFd ∧ result = .ok (start store listenFd epollFd)) ∨
      ∃ message, result = .error message ∧ (∀ fd, k.table fd = none) ∧ k.badCloses = 0 := by
  unfold construct createListenSocket createEpoll at hconstruct
  cases socket with
  | error error =>
    cases hconstruct
    exact .inr ⟨_, rfl, fun _ => rfl, rfl⟩
  | ok listenFd =>
    have hlisten : ((Kernel.opened {} listenFd .listening : Kernel ι).table listenFd).isSome := by
      simp
    have hclosed (fd : Nat) :
        ((Kernel.opened {} listenFd .listening : Kernel ι).close listenFd).table fd = none := by
      rw [Kernel.table_close hlisten, Kernel.table_opened]
      split <;> rfl
    cases setup with
    | error message =>
      -- `CreateListenSocket` closes the socket itself
      cases hconstruct
      exact .inr ⟨_, rfl, hclosed, Kernel.badCloses_close hlisten⟩
    | ok _ =>
      cases epoll with
      | error error =>
        -- the member that owns the socket is destroyed
        cases hconstruct
        exact .inr ⟨_, rfl, hclosed, Kernel.badCloses_close hlisten⟩
      | ok epollFd =>
        have hne : epollFd ≠ listenFd := hdifferent listenFd epollFd rfl rfl
        let both : Kernel ι := (Kernel.opened {} listenFd .listening).opened epollFd .epoll
        have hepoll : (both.table epollFd).isSome := by simp [both]
        have hlisten' : ((both.close epollFd).table listenFd).isSome := by
          rw [Kernel.table_close hepoll, if_neg hne.symm]
          simp [both, hne.symm]
        have hclosed' (fd : Nat) : ((both.close epollFd).close listenFd).table fd = none := by
          rw [Kernel.table_close hlisten', Kernel.table_close hepoll]
          by_cases hfd : fd = listenFd <;> by_cases hfd' : fd = epollFd <;> simp [both, hfd, hfd']
        have hbad : ((both.close epollFd).close listenFd).badCloses = 0 := by
          rw [Kernel.badCloses_close hlisten', Kernel.badCloses_close hepoll]
          rfl
        have hadd : both.epollAdd listenFd { epollIn := true } =
            some (start store listenFd epollFd : ReactorServer ι σ).kernel := by
          have hopen : ((both.table listenFd).isSome &&
              (both.registered listenFd).isNone) = true := by
            simp [both, hne.symm]
          rw [Kernel.epollAdd, if_pos hopen]
          rfl
        -- if something throws, both members are destroyed, the last one first
        cases events with
        | error message =>
          cases hconstruct
          exact .inr ⟨_, rfl, hclosed', hbad⟩
        | ok _ =>
          cases add with
          | error error =>
            cases hconstruct
            exact .inr ⟨_, rfl, hclosed', hbad⟩
          | ok _ =>
            simp only [both] at hadd
            simp only [hadd] at hconstruct
            cases hconstruct
            exact .inl ⟨listenFd, epollFd, hne, rfl⟩

/-- After the constructor only its two descriptors are open. -/
theorem inv_start (store : σ) {listenFd epollFd : Nat} (hne : epollFd ≠ listenFd) :
    (start store listenFd epollFd : ReactorServer ι σ).Inv := by
  have htable (fd : Nat) : (start store listenFd epollFd : ReactorServer ι σ).kernel.table fd =
      if fd = epollFd then some .epoll else if fd = listenFd then some .listening else none := by
    show Function.update (Function.update _ _ _) _ _ _ = _
    rw [Function.update_apply, Function.update_apply]
  -- the listening socket and the `epoll` instance are all that is open
  have hsocket {fd : Nat} {i : ι} :
      (start store listenFd epollFd : ReactorServer ι σ).kernel.table fd ≠ some (.socket i) := by
    rw [htable]
    intro h
    split at h
    · cases h
    · split at h <;> cases h
  refine ⟨trivial, fun fd => ?_, fun fd => ?_, fun fd => ?_, fun fd => ?_,
    fun h => absurd h hsocket, fun h => absurd h hsocket, List.nodup_nil,
    fun entry hentry => absurd hentry List.not_mem_nil, rfl⟩
  · rw [htable]
    show _ ↔ fd = listenFd
    by_cases hfd : fd = epollFd
    · simp [hfd, hne]
    · by_cases hfd' : fd = listenFd
      · rw [if_neg hfd, if_pos hfd']
        exact iff_of_true rfl hfd'
      · simp [hfd, hfd']
  · rw [htable]
    by_cases hfd : fd = epollFd
    · simp [hfd, start]
    · by_cases hfd' : fd = listenFd <;> simp [hfd, hfd', start, hne.symm]
  · refine iff_of_false ?_ (AList.notMem_empty fd)
    rintro ⟨i, hi⟩
    exact hsocket hi
  · show Function.update (fun _ => none) listenFd _ fd =
      if fd = listenFd then _ else ((∅ : AList fun _ : Nat => Connection).lookup fd).map _
    rw [Function.update_apply, AList.lookup_empty]
    rfl

/-! ## Steps -/

/-- A step that leaves the descriptors alone. -/
theorem Inv.of_kernel (h : s.Inv) {t : ReactorServer ι σ}
    (htable : t.kernel.table = s.kernel.table)
    (hregistered : t.kernel.registered = s.kernel.registered)
    (haccepted : t.kernel.accepted = s.kernel.accepted)
    (hbad : t.kernel.badCloses = s.kernel.badCloses) (hlisten : t.listenFd = s.listenFd)
    (hepoll : t.epollFd = s.epollFd) (hconnections : t.connections = s.connections)
    (halive : t.Alive) (hbatch : t.batch <:+ s.batch) : t.Inv where
  alive := halive
  listen := by
    rw [htable, hlisten]
    exact h.listen
  epoll := by
    rw [htable, hepoll]
    exact h.epoll
  sockets := by
    rw [htable, hconnections]
    exact h.sockets
  registered := by
    rw [hregistered, hlisten, hconnections]
    exact h.registered
  named := by
    rw [htable, haccepted]
    exact h.named
  distinct := by
    rw [htable]
    exact h.distinct
  nodup := h.nodup.sublist (hbatch.sublist.map _)
  reported entry hentry := by
    rw [htable]
    -- an event that is left was reported for the same description
    exact h.reported entry (hbatch.subset hentry)
  badCloses := hbad.trans h.badCloses

/-- The next events are handled, or something else begins. -/
theorem Inv.advance (h : s.Inv) {phase : RunPhase ι}
    (halive : ({ s with phase } : ReactorServer ι σ).Alive)
    (hbatch : ({ s with phase } : ReactorServer ι σ).batch <:+ s.batch) :
    Inv { s with phase } :=
  h.of_kernel rfl rfl rfl rfl rfl rfl rfl halive hbatch

/-- What `epoll_wait` reports. -/
theorem Inv.wait (h : s.Inv) {batch : List (ReadyEvent Nat × Description ι)}
    (hreports : Reports s.kernel batch) : Inv { s with phase := .handling batch } where
  alive := trivial
  listen := h.listen
  epoll := h.epoll
  sockets := h.sockets
  registered := h.registered
  named := h.named
  distinct := h.distinct
  nodup := hreports.nodup
  reported entry hentry := by
    have htable := hreports.description entry hentry
    refine ⟨htable, fun hepoll => ?_⟩
    -- the `epoll` instance is not in its own interest list
    have hregistered := hreports.registered entry hentry
    rw [hepoll] at htable
    have hfd := (h.epoll _).mp htable
    rw [h.registered, if_neg fun hlisten => by
      rw [(h.listen _).mpr hlisten] at htable
      cases htable] at hregistered
    have hmem : entry.1.connection ∈ s.connections := by
      rw [← AList.lookup_isSome]
      simpa using hregistered
    obtain ⟨i, hi⟩ := (h.sockets _).mpr hmem
    rw [hi] at htable
    cases htable
  badCloses := h.badCloses

/-- A connection has a number of its own. -/
theorem Inv.socket_ne (h : s.Inv) {fd : Nat} {i : ι}
    (hsocket : s.kernel.table fd = some (.socket i)) : fd ≠ s.listenFd ∧ fd ≠ s.epollFd := by
  constructor
  · intro heq
    rw [(h.listen fd).mpr heq] at hsocket
    cases hsocket
  · intro heq
    rw [(h.epoll fd).mpr heq] at hsocket
    cases hsocket

/-- A number that is free belongs to no connection. -/
theorem Inv.free (h : s.Inv) {fd : Nat} (hfree : s.kernel.table fd = none) :
    fd ≠ s.listenFd ∧ fd ≠ s.epollFd ∧ fd ∉ s.connections ∧ s.kernel.registered fd = none := by
  have hlisten : fd ≠ s.listenFd := fun heq => by
    rw [(h.listen fd).mpr heq] at hfree
    cases hfree
  have hepoll : fd ≠ s.epollFd := fun heq => by
    rw [(h.epoll fd).mpr heq] at hfree
    cases hfree
  have hconnections : fd ∉ s.connections := fun hmem => by
    obtain ⟨i, hi⟩ := (h.sockets fd).mpr hmem
    rw [hi] at hfree
    cases hfree
  refine ⟨hlisten, hepoll, hconnections, ?_⟩
  rw [h.registered, if_neg hlisten, AList.lookup_eq_none.mpr hconnections]
  rfl

/-- `CloseConnection`, when no event is left for the descriptor. -/
theorem Inv.closeConnection (h : s.Inv) {fd : Nat} {i : ι}
    (hsocket : s.kernel.table fd = some (.socket i))
    (hbatch : ∀ entry ∈ s.batch, entry.1.connection ≠ fd) : (s.closeConnection fd).Inv := by
  have hopen : ((s.kernel.epollDel fd).table fd).isSome := by
    show (s.kernel.table fd).isSome
    rw [hsocket]
    rfl
  obtain ⟨hlisten, hepoll⟩ := h.socket_ne hsocket
  -- the table changes at the number that is closed only
  have htable (fd' : Nat) : (s.closeConnection fd).kernel.table fd' =
      if fd' = fd then none else s.kernel.table fd' :=
    Kernel.table_close hopen fd'
  refine ⟨h.alive, fun fd' => ?_, fun fd' => ?_, fun fd' => ?_, fun fd' => ?_,
    fun {fd' i'} hi' => ?_, fun {fd' fd'' i'} hi' hi'' => ?_, h.nodup, fun entry hentry => ?_,
    (Kernel.badCloses_close hopen).trans h.badCloses⟩
  · rw [htable]
    by_cases hfd : fd' = fd
    · rw [if_pos hfd, hfd]
      exact iff_of_false (Option.some_ne_none _).symm hlisten
    · rw [if_neg hfd]
      exact h.listen fd'
  · rw [htable]
    by_cases hfd : fd' = fd
    · rw [if_pos hfd, hfd]
      exact iff_of_false (Option.some_ne_none _).symm hepoll
    · rw [if_neg hfd]
      exact h.epoll fd'
  · rw [htable]
    show _ ↔ fd' ∈ s.connections.erase fd
    rw [AList.mem_erase]
    by_cases hfd : fd' = fd
    · simp [hfd]
    · simp only [ne_eq, hfd, not_false_eq_true, if_false, true_and]
      exact h.sockets fd'
  · have hregistered : (s.closeConnection fd).kernel.registered fd' =
        if fd' = fd then none else s.kernel.registered fd' := by
      refine (Kernel.registered_close hopen fd').trans ?_
      split
      · rfl
      · exact Function.update_of_ne ‹_› _ _
    rw [hregistered]
    show _ = if fd' = s.listenFd then _ else ((s.connections.erase fd).lookup fd').map _
    by_cases hfd : fd' = fd
    · rw [hfd, if_pos rfl, if_neg hlisten, AList.lookup_erase]
      rfl
    · rw [if_neg hfd, AList.lookup_erase_ne hfd]
      exact h.registered fd'
  · rw [htable] at hi'
    have haccepted : (s.closeConnection fd).kernel.accepted = s.kernel.accepted := by
      show ((s.kernel.epollDel fd).close fd).accepted = _
      rw [Kernel.close_eq hopen]
      rfl
    rw [haccepted]
    split at hi'
    · cases hi'
    · exact h.named hi'
  · rw [htable] at hi' hi''
    split at hi' <;> split at hi''
    · cases hi'
    · cases hi'
    · cases hi''
    · exact h.distinct hi' hi''
  · -- no event that is left is for this number
    obtain ⟨hentry', hnot⟩ := h.reported entry hentry
    exact ⟨by rw [htable, if_neg (hbatch entry hentry), hentry'], hnot⟩

/-- A connection stays open, and is registered for other events. -/
theorem Inv.register (h : s.Inv) {fd : Nat} (hmem : fd ∈ s.connections) (next : Connection) :
    Inv { s with
      kernel := { s.kernel with
        registered := Function.update s.kernel.registered fd (some next.registeredEvents) }
      connections := s.connections.insert fd next } := by
  obtain ⟨i, hsocket⟩ := (h.sockets fd).mpr hmem
  have hlisten := (h.socket_ne hsocket).1
  refine ⟨h.alive, h.listen, h.epoll, fun fd' => ?_, fun fd' => ?_, h.named, h.distinct, h.nodup,
    h.reported, h.badCloses⟩
  · show _ ↔ fd' ∈ s.connections.insert fd next
    rw [AList.mem_insert, h.sockets]
    exact ⟨.inr, fun hfd' => hfd'.elim (fun heq => heq ▸ hmem) id⟩
  · show Function.update s.kernel.registered fd _ fd' =
      if fd' = s.listenFd then _ else ((s.connections.insert fd next).lookup fd').map _
    rw [Function.update_apply]
    -- the new events are registered for this number only
    by_cases hfd : fd' = fd
    · rw [hfd, if_pos rfl, if_neg hlisten, AList.lookup_insert]
      rfl
    · rw [if_neg hfd, AList.lookup_insert_ne hfd]
      exact h.registered fd'

/-- The server is destroyed: no descriptor is left, and none has been closed twice. -/
theorem Inv.destroy (h : s.Inv) :
    (∀ fd, s.destroy.kernel.table fd = none) ∧ s.destroy.kernel.badCloses = 0 := by
  have hkeys : ∀ fd ∈ s.connections.keys, (s.kernel.table fd).isSome := by
    intro fd hfd
    obtain ⟨i, hi⟩ := (h.sockets fd).mpr (AList.mem_keys.mpr hfd)
    rw [hi]
    rfl
  obtain ⟨hbad, htable⟩ := Kernel.foldl_close s.connections.keys_nodup hkeys
  have hnot {fd : Nat} (hfd : ∀ i, s.kernel.table fd ≠ some (.socket i)) :
      fd ∉ s.connections.keys := fun hmem => by
    obtain ⟨i, hi⟩ := (h.sockets fd).mpr (AList.mem_keys.mpr hmem)
    exact hfd i hi
  -- one number stands for one thing
  have hne : s.listenFd ≠ s.epollFd := fun heq => by
    have hlisten := (h.listen s.listenFd).mpr rfl
    rw [(h.epoll _).mpr heq] at hlisten
    cases hlisten
  let closed := s.connections.keys.foldl Kernel.close s.kernel
  have hepoll : (closed.table s.epollFd).isSome := by
    have htable' := (h.epoll s.epollFd).mpr rfl
    rw [htable, if_neg (hnot fun i hi => by rw [hi] at htable'; cases htable'), htable']
    rfl
  have hlisten : ((closed.close s.epollFd).table s.listenFd).isSome := by
    have htable' := (h.listen s.listenFd).mpr rfl
    rw [Kernel.table_close hepoll, if_neg hne, htable,
      if_neg (hnot fun i hi => by rw [hi] at htable'; cases htable'), htable']
    rfl
  constructor
  · intro fd
    show ((closed.close s.epollFd).close s.listenFd).table fd = none
    rw [Kernel.table_close hlisten, Kernel.table_close hepoll, htable]
    split
    · rfl
    · split
      · rfl
      · split
        · rfl
        · -- nothing else was open
          rename_i hlisten' hepoll' hconnections
          cases hfd : s.kernel.table fd with
          | none => rfl
          | some description =>
            cases description with
            | listening => exact absurd ((h.listen fd).mp hfd) hlisten'
            | epoll => exact absurd ((h.epoll fd).mp hfd) hepoll'
            | socket i =>
              exact absurd (AList.mem_keys.mp ((h.sockets fd).mp ⟨i, hfd⟩)) hconnections
  · show ((closed.close s.epollFd).close s.listenFd).badCloses = 0
    rw [Kernel.badCloses_close hlisten, Kernel.badCloses_close hepoll]
    exact hbad.trans h.badCloses

variable [DecidableEq ι]

/-- The kernel with a new socket. -/
def accepted (k : Kernel ι) (fd : Nat) (i : ι) : Kernel ι :=
  { k.opened fd (.socket i) with accepted := Function.update k.accepted i true }

/-- A socket that is accepted comes into the interest list and into the map. -/
theorem Inv.acceptConnection_eq (h : s.Inv) {fd : Nat} (hfree : s.kernel.table fd = none) (i : ι)
    (batch : List (ReadyEvent Nat × Description ι)) :
    s.acceptConnection batch (.accepted fd i) =
      { s with
        kernel := { accepted s.kernel fd i with
          registered := Function.update s.kernel.registered fd (some acceptEvents) }
        connections := s.connections.insert fd {} } := by
  obtain ⟨-, -, hconnections, hregistered⟩ := h.free hfree
  -- the number was free, so it is not registered yet
  have hadd : (accepted s.kernel fd i).epollAdd fd acceptEvents = some
      { accepted s.kernel fd i with
        registered := Function.update s.kernel.registered fd (some acceptEvents) } := by
    have hopen : (((accepted s.kernel fd i).table fd).isSome &&
        ((accepted s.kernel fd i).registered fd).isNone) = true := by
      simp [accepted, hregistered]
    rw [Kernel.epollAdd, if_pos hopen]
    rfl
  unfold acceptConnection
  unfold accepted at hadd
  simp only [hadd, AList.lookup_eq_none.mpr hconnections]
  rfl

/-- `AcceptConnections` accepts a socket. -/
theorem Inv.accept (h : s.Inv) {fd : Nat} {i : ι} (hfree : s.kernel.table fd = none)
    (hnew : s.kernel.accepted i = false) :
    Inv { s with
      kernel := { accepted s.kernel fd i with
        registered := Function.update s.kernel.registered fd (some acceptEvents) }
      connections := s.connections.insert fd {} } := by
  obtain ⟨hlisten, hepoll, hconnections, -⟩ := h.free hfree
  -- no open socket has this name
  have hother {fd' : Nat} {i' : ι} (hi' : s.kernel.table fd' = some (.socket i')) : i' ≠ i := by
    rintro rfl
    rw [h.named hi'] at hnew
    cases hnew
  refine ⟨h.alive, fun fd' => ?_, fun fd' => ?_, fun fd' => ?_, fun fd' => ?_,
    fun {fd' i'} hi' => ?_, fun {fd' fd'' i'} hi' hi'' => ?_, h.nodup, fun entry hentry => ?_,
    h.badCloses⟩
  · show (s.kernel.opened fd (.socket i)).table fd' = _ ↔ _
    rw [Kernel.table_opened]
    by_cases hfd : fd' = fd
    · simp [hfd, hlisten]
    · rw [if_neg hfd]
      exact h.listen fd'
  · show (s.kernel.opened fd (.socket i)).table fd' = _ ↔ _
    rw [Kernel.table_opened]
    by_cases hfd : fd' = fd
    · simp [hfd, hepoll]
    · rw [if_neg hfd]
      exact h.epoll fd'
  · show (∃ i', (s.kernel.opened fd (.socket i)).table fd' = some (.socket i')) ↔ _
    rw [Kernel.table_opened, AList.mem_insert]
    by_cases hfd : fd' = fd
    · simp [hfd]
    · simp only [hfd, false_or]
      exact h.sockets fd'
  · show Function.update s.kernel.registered fd _ fd' = _
    rw [Function.update_apply]
    by_cases hfd : fd' = fd
    · -- a new connection is registered for what it says
      subst hfd
      rw [if_pos rfl, if_neg hlisten, AList.lookup_insert]
      rfl
    · rw [if_neg hfd, AList.lookup_insert_ne hfd]
      exact h.registered fd'
  · change (s.kernel.opened fd (.socket i)).table fd' = _ at hi'
    show Function.update s.kernel.accepted i true i' = true
    rw [Kernel.table_opened] at hi'
    rw [Function.update_apply]
    split at hi'
    · cases hi'
      rw [if_pos rfl]
    · rw [if_neg (hother hi')]
      exact h.named hi'
  · change (s.kernel.opened fd (.socket i)).table fd' = _ at hi'
    change (s.kernel.opened fd (.socket i)).table fd'' = _ at hi''
    rw [Kernel.table_opened] at hi' hi''
    split at hi' <;> split at hi''
    · rename_i hfd' hfd''
      rw [hfd', hfd'']
    · cases hi'
      exact absurd rfl (hother hi'')
    · cases hi''
      exact absurd rfl (hother hi')
    · exact h.distinct hi' hi''
  · -- an event that is left is not for the new number, which was free
    obtain ⟨htable, hnot⟩ := h.reported entry hentry
    refine ⟨?_, hnot⟩
    show (s.kernel.opened fd (.socket i)).table entry.1.connection = _
    rw [Kernel.table_opened, if_neg fun heq => by
      rw [heq, hfree] at htable
      cases htable]
    exact htable

/-- A socket that is closed at once. -/
theorem Inv.unusable (h : s.Inv) {fd : Nat} {i : ι} (hfree : s.kernel.table fd = none)
    (message : String) :
    Inv { s with
      kernel := (accepted s.kernel fd i).close fd
      phase := .finished (.error message) } := by
  obtain ⟨-, -, -, hregistered⟩ := h.free hfree
  have hopen : ((accepted s.kernel fd i).table fd).isSome := by simp [accepted]
  -- the socket is closed again, so the table is as before
  have htable : ((accepted s.kernel fd i).close fd).table = s.kernel.table := by
    funext fd'
    rw [Kernel.table_close hopen]
    by_cases hfd : fd' = fd
    · rw [if_pos hfd, hfd, hfree]
    · rw [if_neg hfd]
      exact (Kernel.table_opened _ _).trans (if_neg hfd)
  have hregistered' : ((accepted s.kernel fd i).close fd).registered = s.kernel.registered := by
    funext fd'
    rw [Kernel.registered_close hopen]
    by_cases hfd : fd' = fd
    · rw [if_pos hfd, hfd, hregistered]
    · rw [if_neg hfd]
      rfl
  refine ⟨trivial, ?_, ?_, ?_, ?_, fun {fd' i'} hi' => ?_, fun {fd' fd'' i'} hi' hi'' => ?_,
    List.nodup_nil, fun entry hentry => absurd hentry List.not_mem_nil,
    (Kernel.badCloses_close hopen).trans h.badCloses⟩
  · simp only [htable]
    exact h.listen
  · simp only [htable]
    exact h.epoll
  · simp only [htable]
    exact h.sockets
  · simp only [hregistered']
    exact h.registered
  · simp only [htable] at hi'
    rw [Kernel.close_eq hopen]
    show Function.update s.kernel.accepted i true i' = true
    rw [Function.update_apply]
    split
    · rfl
    · exact h.named hi'
  · simp only [htable] at hi' hi''
    exact h.distinct hi' hi''

/-! ## Events -/

omit [DecidableEq ι] in
/-- The next event belongs to a connection that is in the map. -/
theorem Inv.next_socket (h : s.Inv) {event : ReadyEvent Nat} {description : Description ι}
    {rest : List (ReadyEvent Nat × Description ι)}
    (hphase : s.phase = .handling ((event, description) :: rest))
    (hconnection : event.connection ≠ s.listenFd) :
    ∃ i connection, description = .socket i ∧
      s.kernel.table event.connection = some (.socket i) ∧
      s.connections.lookup event.connection = some connection ∧
      s.kernel.registered event.connection = some connection.registeredEvents := by
  have hbatch : s.batch = (event, description) :: rest := by
    rw [batch, hphase]
  obtain ⟨htable, hepoll⟩ := h.reported (event, description) (hbatch ▸ List.mem_cons_self)
  -- the event was reported for what is still open under the number
  cases description with
  | listening => exact absurd ((h.listen _).mp htable) hconnection
  | epoll => exact absurd rfl hepoll
  | socket i =>
    have hmem := (h.sockets event.connection).mp ⟨i, htable⟩
    obtain ⟨connection, hlookup⟩ := Option.isSome_iff_exists.mp (AList.lookup_isSome.mpr hmem)
    refine ⟨i, connection, rfl, htable, hlookup, ?_⟩
    rw [h.registered, if_neg hconnection, hlookup]
    rfl

/-- What `HandleConnectionEvent` does with the next event. -/
theorem Inv.handle_cases (h : s.Inv) (execute : σ → List Bytes → σ × Except String Bytes)
    {event : ReadyEvent Nat} {description : Description ι}
    {rest : List (ReadyEvent Nat × Description ι)}
    (hphase : s.phase = .handling ((event, description) :: rest))
    (hconnection : event.connection ≠ s.listenFd) :
    ∃ i connection store written, s.kernel.table event.connection = some (.socket i) ∧
      s.connections.lookup event.connection = some connection ∧
      ((∃ error, s.handleConnectionEvent execute event rest =
          { s with store, phase := .finished (.error error) }) ∨
        (connection.handleEvent execute s.store event = (store, written, .closed) ∧
          s.handleConnectionEvent execute event rest =
            { s with
              store
              kernel := s.kernel.transfer event.connection
                (connection.eventTrace event).received written
              phase := .handling rest }.closeConnection event.connection) ∨
        ∃ next, connection.handleEvent execute s.store event = (store, written, .opened next) ∧
          s.handleConnectionEvent execute event rest =
            { s with
              store
              kernel :=
                { s.kernel.transfer event.connection
                    (connection.eventTrace event).received written with
                  registered := Function.update s.kernel.registered event.connection
                    (some next.registeredEvents) }
              connections := s.connections.insert event.connection next
              phase := .handling rest }) := by
  obtain ⟨i, connection, -, htable, hlookup, hregistered⟩ := h.next_socket hphase hconnection
  rcases hevent : connection.handleEvent execute s.store event with ⟨store, written, result⟩
  refine ⟨i, connection, store, written, htable, hlookup, ?_⟩
  unfold handleConnectionEvent
  simp only [hlookup, hevent]
  -- an exception ends `Run`, and a connection that is closed is erased
  cases result with
  | thrown error => exact .inl ⟨error, rfl⟩
  | closed => exact .inr (.inl ⟨rfl, rfl⟩)
  | opened next =>
    refine .inr (.inr ⟨next, rfl, ?_⟩)
    have htransfer := Kernel.transfer_eq htable (connection.eventTrace event).received written
    by_cases hsame : next.registeredEvents = connection.registeredEvents
    · -- the events that are registered stay as they are
      have hupdate : Function.update s.kernel.registered event.connection
          (some next.registeredEvents) = s.kernel.registered := by
        rw [hsame, ← hregistered, Function.update_eq_self]
      simp only [if_pos hsame, hupdate, htransfer]
    · -- `epoll_ctl` succeeds, because the connection is registered
      have hmod : (s.kernel.transfer event.connection (connection.eventTrace event).received
          written).epollMod event.connection next.registeredEvents = some
          { s.kernel.transfer event.connection (connection.eventTrace event).received written with
            registered := Function.update s.kernel.registered event.connection
              (some next.registeredEvents) } := by
        rw [htransfer, Kernel.epollMod, if_pos (by simp only [hregistered, Option.isSome_some])]
      simp only [if_neg hsame, hmod]

/-- The kernel has the same descriptors when bytes have been transferred. -/
theorem Inv.transfer (h : s.Inv) {fd : Nat} {i : ι}
    (htable : s.kernel.table fd = some (.socket i)) (received sent : Bytes) (store : σ)
    (phase : RunPhase ι) (halive : ({ s with phase } : ReactorServer ι σ).Alive)
    (hbatch : ({ s with phase } : ReactorServer ι σ).batch <:+ s.batch) :
    Inv { s with store, kernel := s.kernel.transfer fd received sent, phase } := by
  refine h.of_kernel ?_ ?_ ?_ ?_ rfl rfl rfl halive hbatch <;>
    rw [Kernel.transfer_eq htable]

variable {execute : σ → List Bytes → σ × Except String Bytes}

/-- Every step keeps the invariant until the server is destroyed. -/
theorem Inv.step (h : s.Inv) {label : Label ι} {t : ReactorServer ι σ}
    (hstep : Step execute s label t) : t.Inv ∨
      t.phase = .destroyed ∧ t.connections = ∅ ∧ (∀ fd, t.kernel.table fd = none) ∧
        t.kernel.badCloses = 0 := by
  cases hstep with
  | wait hphase hreports => exact .inl (h.wait hreports)
  | fail hphase | stop hphase => exact .inl (h.advance trivial (List.nil_suffix))
  | again hphase => exact .inl (h.advance trivial (List.nil_suffix))
  | @listening event description batch hphase hlistening =>
    refine .inl (h.advance trivial ?_)
    show batch <:+ s.batch
    rw [ReactorServer.batch, hphase]
    exact List.suffix_cons _ _
  | @connection event description batch hphase hconnection =>
    have hbatch : s.batch = (event, description) :: batch := by
      rw [ReactorServer.batch, hphase]
    have hsuffix : batch <:+ s.batch := hbatch ▸ List.suffix_cons _ _
    obtain ⟨i, connection, store, written, htable, hlookup, hcases⟩ :=
      h.handle_cases execute hphase hconnection
    refine .inl ?_
    rcases hcases with ⟨error, heq⟩ | ⟨-, heq⟩ | ⟨next, -, heq⟩ <;> rw [heq]
    · exact h.of_kernel rfl rfl rfl rfl rfl rfl rfl trivial List.nil_suffix
    · have htransfer := h.transfer htable (connection.eventTrace event).received written store
        (.handling batch) trivial hsuffix
      have htable' : (s.kernel.transfer event.connection (connection.eventTrace event).received
          written).table event.connection = some (.socket i) := by
        rw [Kernel.transfer_eq htable]
        exact htable
      refine htransfer.closeConnection htable' fun entry hentry heq => ?_
      -- `epoll_wait` reports a descriptor once
      have hnodup := h.nodup
      rw [hbatch, List.map_cons, List.nodup_cons] at hnodup
      exact hnodup.1 (List.mem_map.mpr ⟨entry, hentry, heq⟩)
    · have hmem : event.connection ∈ s.connections := (h.sockets _).mp ⟨i, htable⟩
      have hregister := (h.transfer htable (connection.eventTrace event).received written store
        (.handling batch) trivial hsuffix).register hmem next
      have hregistered : (s.kernel.transfer event.connection (connection.eventTrace event).received
          written).registered = s.kernel.registered := by
        rw [Kernel.transfer_eq htable]
      simp only [hregistered] at hregister
      exact hregister
  | @accept outcome batch hphase hreturn =>
    have hbatch : s.batch = batch := by
      rw [ReactorServer.batch, hphase]
    cases outcome with
    | accepted fd i =>
      rw [h.acceptConnection_eq hreturn.1]
      exact .inl (h.accept hreturn.1 hreturn.2)
    -- `SetNonBlocking` or `SetTcpNoDelay` has thrown
    | unusable fd i message => exact .inl (h.unusable hreturn.1 message)
    | again => exact .inl (h.advance trivial (hbatch ▸ List.suffix_rfl))
    | interrupted => exact .inl h
    | failed error => exact .inl (h.advance trivial List.nil_suffix)
  | destroy hphase => exact .inr ⟨rfl, rfl, h.destroy.1, h.destroy.2⟩

/-! ## The connections by name -/

omit [DecidableEq ι] in
/-- What is handled depends on the name of the connection as little as on its number. -/
theorem handleEvent_name {κ : Type} (store : σ) (connection : Connection)
    (event : ReadyEvent Nat) (i : κ) :
    connection.handleEvent execute store { event with connection := i } =
      connection.handleEvent execute store event :=
  rfl

/-- The event with the name of its connection. -/
def named (event : ReadyEvent Nat) (i : ι) : ReadyEvent ι :=
  { event with connection := i }

/-- A socket is accepted. -/
theorem Matches.accept {h : History ι σ} (hmatches : s.Matches h) (hinv : s.Inv) {fd : Nat} {i : ι}
    (hfree : s.kernel.table fd = none) (hnew : s.kernel.accepted i = false)
    (batch : List (ReadyEvent Nat × Description ι)) :
    ∃ h', History.Step execute h (.accept i) h' ∧
      (s.acceptConnection batch (.accepted fd i)).Matches h' := by
  refine ⟨_, .accept (by rw [hmatches.accepted, hnew]), ?_⟩
  rw [hinv.acceptConnection_eq hfree]
  refine ⟨hmatches.store, fun i' connection => ?_, ?_, hmatches.received, hmatches.sent⟩
  · show Function.update h.reactor.connections i (some {}) i' = some connection ↔
      ∃ fd', (s.kernel.opened fd (.socket i)).table fd' = some (.socket i') ∧
        (s.connections.insert fd {}).lookup fd' = some connection
    simp only [Kernel.table_opened]
    -- the connection that is accepted is found under the new number only
    by_cases hi : i' = i
    · subst hi
      rw [Function.update_self]
      constructor
      · intro heq
        exact ⟨fd, if_pos rfl, by rw [AList.lookup_insert, heq]⟩
      · rintro ⟨fd', htable, hlookup⟩
        by_cases hfd : fd' = fd
        · rw [hfd, AList.lookup_insert] at hlookup
          exact hlookup
        · -- the name is new
          rw [if_neg hfd] at htable
          rw [hinv.named htable] at hnew
          cases hnew
    · rw [Function.update_of_ne hi, hmatches.connections]
      refine exists_congr fun fd' => ?_
      by_cases hfd : fd' = fd
      · subst hfd
        rw [if_pos rfl, hfree]
        exact iff_of_false (fun hnone => Option.some_ne_none _ hnone.1.symm) fun hsocket =>
          hi (Description.socket.inj (Option.some.inj hsocket.1)).symm
      · rw [if_neg hfd, AList.lookup_insert_ne hfd]
  · show Function.update h.accepted i true = Function.update s.kernel.accepted i true
    rw [hmatches.accepted]

omit [DecidableEq ι] in
/-- Different sockets have different numbers. -/
theorem ne_of_sockets {fd fd' : Nat} {i i' : ι} (hfd : s.kernel.table fd = some (.socket i))
    (hfd' : s.kernel.table fd' = some (.socket i')) (hne : i' ≠ i) : fd' ≠ fd := by
  rintro rfl
  exact hne (Description.socket.inj (Option.some.inj (hfd'.symm.trans hfd)))

section

variable {h : History ι σ} (hmatches : s.Matches h) (hinv : s.Inv) {fd : Nat} {i : ι}
  (htable : s.kernel.table fd = some (.socket i)) (received sent : Bytes) (store : σ)
  (phase : RunPhase ι) (executed : List (ι × DecodedRequest))

include hmatches hinv htable

/-- Bytes are transferred, and the connection stays open. -/
theorem Matches.opened (next : Connection) :
    Matches
      { s with
        store
        kernel :=
          { s.kernel.transfer fd received sent with
            registered := Function.update s.kernel.registered fd (some next.registeredEvents) }
        connections := s.connections.insert fd next
        phase }
      { h with
        reactor := { store, connections := Function.update h.reactor.connections i (some next) }
        received := Function.update h.received i (h.received i ++ received)
        sent := Function.update h.sent i (h.sent i ++ sent)
        executed } := by
  rw [Kernel.transfer_eq htable]
  refine ⟨rfl, fun i' connection => ?_, hmatches.accepted, ?_, ?_⟩
  · show Function.update h.reactor.connections i (some next) i' = some connection ↔
      ∃ fd', s.kernel.table fd' = some (.socket i') ∧
        (s.connections.insert fd next).lookup fd' = some connection
    -- no other number belongs to this connection
    by_cases hi : i' = i
    · subst hi
      rw [Function.update_self]
      constructor
      · intro heq
        exact ⟨fd, htable, by rw [AList.lookup_insert, heq]⟩
      · rintro ⟨fd', htable', hlookup'⟩
        obtain rfl := hinv.distinct htable' htable
        rwa [AList.lookup_insert] at hlookup'
    · rw [Function.update_of_ne hi, hmatches.connections]
      refine exists_congr fun fd' => and_congr_right fun htable' => ?_
      rw [AList.lookup_insert_ne (ne_of_sockets htable htable' hi)]
  · rw [hmatches.received]
  · rw [hmatches.sent]

/-- Bytes are transferred, and the connection is closed. -/
theorem Matches.closed :
    Matches
      ({ s with
        store
        kernel := s.kernel.transfer fd received sent
        phase }.closeConnection fd)
      { h with
        reactor := { store, connections := Function.update h.reactor.connections i none }
        received := Function.update h.received i (h.received i ++ received)
        sent := Function.update h.sent i (h.sent i ++ sent)
        executed } := by
  rw [Kernel.transfer_eq htable]
  let k : Kernel ι :=
    { s.kernel with
      received := Function.update s.kernel.received i (s.kernel.received i ++ received)
      sent := Function.update s.kernel.sent i (s.kernel.sent i ++ sent) }
  have hopen : ((k.epollDel fd).table fd).isSome := by
    show (s.kernel.table fd).isSome
    rw [htable]
    rfl
  have hclose := Kernel.close_eq hopen
  refine ⟨rfl, fun i' connection => ?_, ?_, ?_, ?_⟩
  · show Function.update h.reactor.connections i none i' = some connection ↔
      ∃ fd', ((k.epollDel fd).close fd).table fd' = some (.socket i') ∧
        (s.connections.erase fd).lookup fd' = some connection
    simp only [Kernel.table_close hopen]
    -- the connection is gone under its number, and it had no other
    by_cases hi : i' = i
    · subst hi
      rw [Function.update_self]
      refine iff_of_false (Option.some_ne_none _).symm ?_
      rintro ⟨fd', htable', hlookup'⟩
      by_cases hfd : fd' = fd
      · rw [hfd, AList.lookup_erase] at hlookup'
        cases hlookup'
      · rw [if_neg hfd] at htable'
        exact hfd (hinv.distinct htable' htable)
    · rw [Function.update_of_ne hi, hmatches.connections]
      refine exists_congr fun fd' => ?_
      by_cases hfd : fd' = fd
      · -- the number that is closed was not that of another connection
        rw [if_pos hfd]
        exact iff_of_false (fun hsocket => ne_of_sockets htable hsocket.1 hi hfd) fun hnone =>
          Option.some_ne_none _ hnone.1.symm
      · rw [if_neg hfd, AList.lookup_erase_ne hfd]
        rfl
  · show h.accepted = ((k.epollDel fd).close fd).accepted
    rw [hclose, hmatches.accepted]
    rfl
  · show Function.update h.received i _ = ((k.epollDel fd).close fd).received
    rw [hclose, hmatches.received]
    rfl
  · show Function.update h.sent i _ = ((k.epollDel fd).close fd).sent
    rw [hclose, hmatches.sent]
    rfl

end

/-- The next event is handled. -/
theorem Matches.handle {h : History ι σ} (hmatches : s.Matches h) (hinv : s.Inv)
    {event : ReadyEvent Nat} {description : Description ι}
    {rest : List (ReadyEvent Nat × Description ι)}
    (hphase : s.phase = .handling ((event, description) :: rest))
    (hconnection : event.connection ≠ s.listenFd)
    (hrunning : (s.handleConnectionEvent execute event rest).Running) :
    ∃ i h', History.Step execute h (.handle (named event i)) h' ∧
      (s.handleConnectionEvent execute event rest).Matches h' := by
  obtain ⟨i, connection, store, written, htable, hlookup, hcases⟩ :=
    hinv.handle_cases execute hphase hconnection
  -- the server keyed by connections has the same connection
  have hconnected : h.reactor.connections i = some connection :=
    (hmatches.connections i connection).mpr ⟨event.connection, htable, hlookup⟩
  have htrace : h.trace (named event i) = connection.eventTrace event := by
    simp only [History.trace, named, hconnected]
    rfl
  refine ⟨i, ?_⟩
  rcases hcases with ⟨error, heq⟩ | ⟨hevent, heq⟩ | ⟨next, hevent, heq⟩
  · -- an exception ends `Run`
    rw [heq] at hrunning
    exact hrunning.elim
  · have hhandle : h.reactor.handleConnectionEvent execute (named event i) = (written, .ok
        { store, connections := Function.update h.reactor.connections i none }) := by
      rw [← hmatches.store] at hevent
      simp only [Reactor.handleConnectionEvent, named, hconnected, handleEvent_name, hevent]
    refine ⟨_, .handle hhandle, ?_⟩
    rw [heq, htrace]
    exact hmatches.closed hinv htable _ written store (.handling rest) _
  · have hhandle : h.reactor.handleConnectionEvent execute (named event i) = (written, .ok
        { store, connections := Function.update h.reactor.connections i (some next) }) := by
      rw [← hmatches.store] at hevent
      simp only [Reactor.handleConnectionEvent, named, hconnected, handleEvent_name, hevent]
    refine ⟨_, .handle hhandle, ?_⟩
    rw [heq, htrace]
    exact hmatches.opened hinv htable _ written store (.handling rest) _ next

omit [DecidableEq ι] in
/-- A step that leaves the connections alone. -/
theorem Matches.advance {h : History ι σ} (hmatches : s.Matches h) (phase : RunPhase ι) :
    Matches { s with phase } h :=
  ⟨hmatches.store, hmatches.connections, hmatches.accepted, hmatches.received, hmatches.sent⟩

/-- `Run` has not ended before a step if it has not ended afterwards. -/
theorem Step.running {label : Label ι} {t : ReactorServer ι σ} (hstep : Step execute s label t)
    (hrunning : t.Running) : s.Running := by
  cases hstep with
  | wait hphase | fail hphase | stop hphase | again hphase | listening hphase
  | connection hphase | accept hphase =>
    rw [Running, hphase]
    trivial
  | destroy => exact hrunning.elim

/-- A step is at most one step of the server that knows the connections by their names. -/
theorem Matches.step {h : History ι σ} (hmatches : s.Matches h) (hinv : s.Inv) {label : Label ι}
    {t : ReactorServer ι σ} (hstep : Step execute s label t) (hrunning : t.Running) :
    ∃ h', Run (History.Step execute) (fun _ _ => True) h h' ∧ t.Matches h' := by
  cases hstep with
  | wait | again | listening => exact ⟨h, .refl, hmatches.advance _⟩
  | fail | stop | destroy => exact hrunning.elim
  | connection hphase hconnection =>
    obtain ⟨i, h', hhandle, hmatches'⟩ := hmatches.handle hinv hphase hconnection hrunning
    exact ⟨h', .tail _ .refl trivial hhandle, hmatches'⟩
  | @accept outcome batch hphase hreturn =>
    cases outcome with
    | accepted fd i =>
      obtain ⟨h', haccept, hmatches'⟩ := hmatches.accept hinv hreturn.1 hreturn.2 batch
      exact ⟨h', .tail _ .refl trivial haccept, hmatches'⟩
    | again => exact ⟨h, .refl, hmatches.advance _⟩
    | interrupted => exact ⟨h, .refl, hmatches⟩
    | unusable | failed => exact hrunning.elim

omit [DecidableEq ι] in
/-- The new server corresponds to the one that is keyed by connections. -/
theorem matches_start (store : σ) (listenFd epollFd : Nat) :
    (start store listenFd epollFd : ReactorServer ι σ).Matches (.begin store) := by
  refine ⟨rfl, fun i connection => ?_, rfl, rfl, rfl⟩
  refine iff_of_false (Option.some_ne_none _).symm ?_
  rintro ⟨fd, -, hlookup⟩
  rw [start, AList.lookup_empty] at hlookup
  cases hlookup

/-! ## Runs -/

variable (execute) in
/-- What holds of the descriptors all the time. -/
structure Safe (store : σ) (s : ReactorServer ι σ) : Prop where
  /-- `close` has been called for open descriptors only. -/
  badCloses : s.kernel.badCloses = 0
  /-- The sockets that are open are those of the connections. -/
  sockets : ∀ fd, (∃ i, s.kernel.table fd = some (.socket i)) ↔ fd ∈ s.connections
  /-- An event is handled for what it has been reported for. -/
  handled : ∀ event description rest, s.phase = .handling ((event, description) :: rest) →
    s.kernel.table event.connection = some description ∧
      (event.connection ≠ s.listenFd → ∃ i connection, description = .socket i ∧
        s.connections.lookup event.connection = some connection ∧
        s.kernel.registered event.connection = some connection.registeredEvents)
  /-- The connections behave as if they were known by their names. -/
  named : s.Running → ∃ h, Run (History.Step execute) (fun _ _ => True) (.begin store) h ∧
    s.Matches h
  /-- Nothing stays open. -/
  destroyed : s.phase = .destroyed → ∀ fd, s.kernel.table fd = none

/-- What every step keeps. -/
def Underway (execute : σ → List Bytes → σ × Except String Bytes) (store : σ)
    (s : ReactorServer ι σ) : Prop :=
  s.Inv ∧ (s.Running → ∃ h, Run (History.Step execute) (fun _ _ => True) (.begin store) h ∧
    s.Matches h)

/-- What is left when the server has been destroyed. -/
def Ended (s : ReactorServer ι σ) : Prop :=
  s.phase = .destroyed ∧ s.connections = ∅ ∧ (∀ fd, s.kernel.table fd = none) ∧
    s.kernel.badCloses = 0

/-- A server that has been constructed is under way. -/
theorem underway_start (store : σ) {listenFd epollFd : Nat} (hne : epollFd ≠ listenFd) :
    Underway execute store (start store listenFd epollFd : ReactorServer ι σ) :=
  ⟨inv_start store hne, fun _ => ⟨_, .refl, matches_start store listenFd epollFd⟩⟩

/-- A step leaves the server under way, or it has ended. -/
theorem Underway.step {store : σ} (h : Underway execute store s) {label : Label ι}
    {t : ReactorServer ι σ} (hstep : Step execute s label t) :
    Underway execute store t ∨ t.Ended := by
  refine (h.1.step hstep).imp (fun hinv => ⟨hinv, fun hrunning => ?_⟩) id
  obtain ⟨history, hrun, hmatches⟩ := h.2 (hstep.running hrunning)
  obtain ⟨history', hrun', hmatches'⟩ := hmatches.step h.1 hstep hrunning
  exact ⟨history', hrun.trans hrun', hmatches'⟩

/-- Nothing happens after the destructor. -/
theorem Ended.not_step {label : Label ι} {t : ReactorServer ι σ} (h : s.Ended) :
    ¬ Step execute s label t := by
  intro hstep
  have hphase := h.1
  cases hstep with
  | wait hphase' | fail hphase' | stop hphase' | again hphase' | listening hphase'
  | connection hphase' | accept hphase' | destroy hphase' =>
    rw [hphase] at hphase'
    cases hphase'

/-- A run leaves the server under way, or it has ended. -/
theorem Underway.run {store : σ} (h : Underway execute store s) {t : ReactorServer ι σ}
    (hrun : Run (Step execute) (fun _ _ => True) s t) : Underway execute store t ∨ t.Ended := by
  refine @Run.invariant _ _ _ _ (fun t => Underway execute store t ∨ t.Ended) _ _ hrun (.inl h)
    fun hkeep _ hstep => ?_
  rcases hkeep with hunderway | hended
  · exact hunderway.step hstep
  · exact absurd hstep hended.not_step

/-- A server under way is safe. -/
theorem Underway.safe {store : σ} (h : Underway execute store s) : Safe execute store s where
  badCloses := h.1.badCloses
  sockets := h.1.sockets
  handled event description rest hphase := by
    have hbatch : s.batch = (event, description) :: rest := by
      rw [batch, hphase]
    have htable := (h.1.reported (event, description) (hbatch ▸ List.mem_cons_self)).1
    refine ⟨htable, fun hconnection => ?_⟩
    obtain ⟨i, connection, hdescription, -, hlookup, hregistered⟩ :=
      h.1.next_socket hphase hconnection
    exact ⟨i, connection, hdescription, hlookup, hregistered⟩
  named := h.2
  destroyed hphase := by
    have halive := h.1.alive
    rw [Alive, hphase] at halive
    exact halive.elim

/-- A server that has ended is safe: nothing is open. -/
theorem Ended.safe (h : s.Ended) (store : σ) : Safe execute store s where
  badCloses := h.2.2.2
  sockets fd := by
    rw [h.2.1, h.2.2.1]
    refine iff_of_false ?_ (AList.notMem_empty fd)
    rintro ⟨i, hi⟩
    cases hi
  handled event description rest hphase := by
    rw [h.1] at hphase
    cases hphase
  named hrunning := by
    rw [Running, h.1] at hrunning
    exact hrunning.elim
  destroyed _ := h.2.2.1

/-- The constructor leaves nothing open when it throws. Otherwise, whatever the calls of the
    kernel return, the descriptors are safe in every state: an event is handled for what it has
    been reported for, although numbers are used again, and no descriptor is closed twice or
    left open. -/
theorem descriptors_safe {store : σ} {socket epoll : Except String Nat}
    {setup events add : Except String Unit} {k : Kernel ι} {result : Except String (ReactorServer ι σ)}
    (hdifferent : ∀ fd fd', socket = .ok fd → epoll = .ok fd' → fd' ≠ fd)
    (hconstruct : construct store socket setup epoll events add = (k, result)) :
    (∀ message, result = .error message → (∀ fd, k.table fd = none) ∧ k.badCloses = 0) ∧
      ∀ s t, result = .ok s → Run (Step execute) (fun _ _ => True) s t → Safe execute store t := by
  obtain ⟨listenFd, epollFd, hne, hresult⟩ | ⟨message, hresult, hclosed⟩ :=
    construct_cases store setup events add hdifferent hconstruct
  · refine ⟨fun message hmessage => ?_, fun s t hs hrun => ?_⟩
    · rw [hresult] at hmessage
      cases hmessage
    · rw [hresult] at hs
      obtain rfl := Except.ok.inj hs
      exact ((underway_start store hne).run hrun).elim Underway.safe fun hended =>
        hended.safe store
  · refine ⟨fun _ _ => hclosed, fun s t hs => ?_⟩
    rw [hresult] at hs
    cases hs

/-- A client connects, the next one gets its number while the batch with the end of the first
    one is still handled, and the server goes on. -/
theorem descriptors_safe_reused :
    ∃ t : ReactorServer Bool Unit, t.kernel.accepted false ∧
      t.kernel.table 5 = some (.socket true) ∧ 5 ∈ t.connections ∧ t.kernel.badCloses = 0 := by
  let execute : Unit → List Bytes → Unit × Except String Bytes := fun s _ => (s, .ok [])
  let listening : ReadyEvent Nat × Description Bool :=
    ({ connection := 3, events := { epollIn := true } }, .listening)
  let gone : ReadyEvent Nat × Description Bool :=
    ({ connection := 5, events := { epollRdhup := true } }, .socket false)
  let s : ReactorServer Bool Unit := start () 3 4
  have hrun : Run (Step execute) (fun _ _ => True) s s := .refl
  have hrun := hrun.tail (.wait [listening]) trivial (.wait rfl
    { nodup := by decide
      registered := by
        simp only [List.mem_cons, List.not_mem_nil, or_false, forall_eq]
        rfl
      description := by
        simp only [List.mem_cons, List.not_mem_nil, or_false, forall_eq]
        rfl })
  have hrun := hrun.tail .handle trivial (.listening rfl rfl)
  have hrun := hrun.tail (.accept (.accepted 5 false)) trivial (.accept rfl (by exact ⟨rfl, rfl⟩))
  have hrun := hrun.tail (.accept .again) trivial (.accept rfl (by exact trivial))
  have hrun := hrun.tail .handle trivial (.again rfl)
  -- one batch closes number 5 and accepts another connection under it
  have hrun := hrun.tail (.wait [gone, listening]) trivial (.wait rfl
    { nodup := by decide
      registered := by
        simp only [List.mem_cons, List.not_mem_nil, or_false, forall_eq_or_imp, forall_eq]
        exact ⟨rfl, rfl⟩
      description := by
        simp only [List.mem_cons, List.not_mem_nil, or_false, forall_eq_or_imp, forall_eq]
        exact ⟨rfl, rfl⟩ })
  have hrun := hrun.tail .handle trivial (.connection rfl (by decide))
  have hrun := hrun.tail .handle trivial (.listening rfl rfl)
  have hrun := hrun.tail (.accept (.accepted 5 true)) trivial (.accept rfl (by exact ⟨rfl, rfl⟩))
  have hconstruct : construct () (.ok 3) (.ok ()) (.ok 4) (.ok ()) (.ok ()) =
      (s.kernel, .ok s) := by
    rfl
  have hdifferent : ∀ fd fd', (.ok 3 : Except String Nat) = .ok fd →
      (.ok 4 : Except String Nat) = .ok fd' → fd' ≠ fd := by
    rintro fd fd' ⟨⟩ ⟨⟩
    decide
  have hsafe := (descriptors_safe hdifferent hconstruct).2 s _ rfl hrun
  exact ⟨_, rfl, rfl, (hsafe.sockets 5).mp ⟨true, rfl⟩, hsafe.badCloses⟩

end ReactorServer

end KvStore
