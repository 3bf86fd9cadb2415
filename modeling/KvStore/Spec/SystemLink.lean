import KvStore.ForStd.AtomicObject
import KvStore.Spec.SystemRequests

/-!
# One link of a system

`Linked` relates a client, the bytes between it and the server, and the connection of the
server to the phase of the client in the atomic object: a request is on its way while its call
has not taken effect, and its response is on its way afterwards. The lemmas say what the moves
of a system make of this.
-/

namespace KvStore

open AtomicObject (Phase)

namespace Link

variable (link : Link) (connection : Option Connection)

/-- The server has accepted the connection or is still going to do so. -/
def Alive : Prop := link.backlog = true ∨ connection.isSome = true

/-- The bytes that the server has not made requests of yet. -/
def incoming : Bytes := (connection.elim [] fun c => c.codec.buffer) ++ link.toServer

/-- The bytes that the client has not read yet. -/
def outgoing : Bytes := link.toClient ++ connection.elim [] Connection.writeBuffer

/-- No request is on its way. -/
def Quiet : Prop := link.Alive connection → link.incoming connection = []

/-- A request is on its way, with these bytes left to write. -/
structure Underway (tokens : List Bytes) (rest : Bytes) : Prop where
  sendable : Sendable tokens
  bytes : link.Alive connection → link.incoming connection ++ rest = encodeResp tokens
  torn : ∀ c, connection = some c → c.codec.buffer.length < (encodeResp tokens).length

variable {link connection}

/-- What the client does plays no part. -/
theorem Underway.withClient {tokens : List Bytes} {rest : Bytes}
    (h : link.Underway connection tokens rest) (client : ClientState) :
    Underway { link with client } connection tokens rest :=
  ⟨h.sendable, h.bytes, h.torn⟩

end Link

/-- What a link has to do with the phase of its client in the atomic object. -/
inductive Linked (link : Link) (connection : Option Connection) :
    Phase (List Bytes) Bytes → Prop where
  | away (hclient : link.client = .away) (hquiet : link.Quiet connection) :
      Linked link connection .idle
  | orphaned {tokens : List Bytes} {rest : Bytes} (hclient : link.client = .away)
      (hunderway : link.Underway connection tokens rest) :
      Linked link connection (.orphaned tokens)
  | prompt (hclient : link.client = .prompt []) (hquiet : link.Quiet connection)
      (hout : link.outgoing connection = []) : Linked link connection .idle
  | writing {tokens : List Bytes} {rest : Bytes} (hclient : link.client = .writing tokens rest [])
      (hrest : rest ≠ []) (hunderway : link.Underway connection tokens rest)
      (hout : link.outgoing connection = []) : Linked link connection (.called tokens)
  | reading {tokens : List Bytes} (hclient : link.client = .reading tokens [])
      (hunderway : link.Underway connection tokens [])
      (hout : link.outgoing connection = []) : Linked link connection (.called tokens)
  | answered {tokens : List Bytes} {buffer response : Bytes}
      (hclient : link.client = .reading tokens buffer) (hline : IsLine response)
      (hquiet : link.Quiet connection) (hpre : buffer ++ link.toClient <+: response)
      (hout : link.Alive connection → buffer ++ link.outgoing connection = response) :
      Linked link connection (.done tokens response)

variable {link : Link} {connection : Option Connection} {phase : Phase (List Bytes) Bytes}

/-! ## The moves of a client -/

/-- A client without a connection. -/
theorem linked_new : Linked {} none .idle :=
  .away rfl fun halive => by simp [Link.Alive] at halive

/-- A client connects. -/
theorem linked_connect : Linked { client := .prompt [], backlog := true } none .idle :=
  .prompt rfl (fun _ => rfl) rfl

/-- The server accepts a connection. -/
theorem Linked.accept (h : Linked link none phase) (hbacklog : link.backlog = true) :
    Linked { link with backlog := false } (some {}) phase := by
  have halive : link.Alive none := .inl hbacklog
  have hquiet (hq : link.Quiet none) : Link.Quiet { link with backlog := false } (some {}) :=
    fun _ => hq halive
  have hunderway {tokens : List Bytes} {rest : Bytes} (hu : link.Underway none tokens rest) :
      Link.Underway { link with backlog := false } (some {}) tokens rest := by
    refine ⟨hu.sendable, fun _ => hu.bytes halive, ?_⟩
    rintro c hc
    obtain rfl := Option.some.inj hc
    simp [encodeResp]
  cases h with
  | away hclient hq => exact .away hclient (hquiet hq)
  | orphaned hclient hu => exact .orphaned hclient (hunderway hu)
  | prompt hclient hq hout => exact .prompt hclient (hquiet hq) hout
  | writing hclient hrest hu hout => exact .writing hclient hrest (hunderway hu) hout
  | reading hclient hu hout => exact .reading hclient (hunderway hu) hout
  | answered hclient hline hq hpre hout =>
    exact .answered hclient hline (hquiet hq) hpre fun _ => hout halive

/-- A client that is at its prompt has no call. -/
theorem Linked.of_prompt (h : Linked link connection phase) {buffer : Bytes}
    (hclient : link.client = .prompt buffer) :
    buffer = [] ∧ phase = .idle ∧ link.Quiet connection ∧ link.outgoing connection = [] := by
  cases h with
  | prompt hclient' hquiet hout =>
    cases hclient.symm.trans hclient'
    exact ⟨rfl, rfl, hquiet, hout⟩
  | away hclient' | orphaned hclient' | writing hclient' | reading hclient' | answered hclient' =>
    cases hclient.symm.trans hclient'

/-- A request is typed in. -/
theorem linked_type (hquiet : link.Quiet connection) (hout : link.outgoing connection = [])
    {tokens : List Bytes} (hsend : Sendable tokens) :
    Linked { link with client := .writing tokens (encodeResp tokens) [] } connection
      (.called tokens) := by
  have hne : encodeResp tokens ≠ [] := by simp [encodeResp]
  refine .writing rfl hne ⟨hsend, ?_, ?_⟩ hout
  · intro halive
    show link.incoming connection ++ _ = _
    rw [hquiet halive, List.nil_append]
  · rintro c rfl
    -- nothing is in the codec either
    have hincoming := hquiet (.inr rfl)
    have hbuffer : c.codec.buffer = [] := (List.append_eq_nil_iff.mp hincoming).1
    rw [hbuffer]
    exact List.length_pos_iff.mpr hne

/-- Some bytes of a request are written. -/
theorem Linked.send (h : Linked link connection phase) {tokens : List Bytes} {rest buffer : Bytes}
    (hclient : link.client = .writing tokens rest buffer) (count : Nat) :
    Linked { link with
      client := Client.afterWrite tokens rest buffer count
      toServer := link.toServer ++ rest.take count } connection phase := by
  cases h with
  | writing hclient' hrest hunderway hout =>
    cases hclient.symm.trans hclient'
    have hunderway' : Link.Underway { link with
        client := Client.afterWrite tokens rest [] count
        toServer := link.toServer ++ rest.take count } connection tokens (rest.drop count) := by
      refine ⟨hunderway.sendable, fun halive => ?_, hunderway.torn⟩
      have hbytes := hunderway.bytes halive
      rw [Link.incoming, List.append_assoc] at hbytes ⊢
      rw [← hbytes]
      simp only [List.append_assoc, List.take_append_drop]
    unfold Client.afterWrite at hunderway' ⊢
    -- the client begins to read once the whole request is written
    by_cases hdone : rest.drop count = []
    · rw [if_pos hdone] at hunderway' ⊢
      exact .reading rfl (hdone ▸ hunderway') hout
    · rw [if_neg hdone] at hunderway' ⊢
      exact .writing rfl hdone hunderway' hout
  | away hclient' | orphaned hclient' | prompt hclient' | reading hclient' | answered hclient' =>
    cases hclient.symm.trans hclient'

/-- Some bytes of a response are read. -/
theorem Linked.receive (h : Linked link connection phase) {tokens : List Bytes} {buffer : Bytes}
    (hclient : link.client = .reading tokens buffer) {count : Nat} (hpos : 0 < count)
    (hcount : count ≤ link.toClient.length) :
    Linked { link with
      client := .reading tokens (buffer ++ link.toClient.take count)
      toClient := link.toClient.drop count } connection phase := by
  cases h with
  | reading hclient' _ hout =>
    -- there is nothing to read yet
    have hnil : link.toClient = [] := (List.append_eq_nil_iff.mp hout).1
    rw [hnil, List.length_nil] at hcount
    omega
  | answered hclient' hline hquiet hpre hout =>
    cases hclient.symm.trans hclient'
    refine .answered rfl hline hquiet ?_ fun halive => ?_
    · rwa [List.append_assoc, List.take_append_drop]
    · rw [← hout halive, Link.outgoing, Link.outgoing]
      simp only [List.append_assoc, List.take_append_drop, ← List.append_assoc (link.toClient.take _)]
  | away hclient' | orphaned hclient' | prompt hclient' | writing hclient' =>
    cases hclient.symm.trans hclient'

/-- A buffer in front of a line that holds a line end holds the whole line. -/
theorem eq_of_find {buffer response : Bytes} {pos : Nat} (hline : IsLine response)
    (hpre : buffer <+: response) (hfind : find buffer 0 = some pos) :
    buffer = response ∧ pos + 2 = response.length := by
  obtain ⟨rest, rfl⟩ := hpre
  have hle := (find_le hfind).2
  have hfirst := find_append hfind (Nat.zero_le _) rest
  rw [find, List.drop_zero, hline.2, Option.map_some, Option.some.injEq, Nat.zero_add] at hfirst
  have hcrlf := hline.1.length_le
  simp only [crlf, List.length_cons, List.length_nil, List.length_append] at hcrlf hfirst
  have hrest : rest = [] := List.eq_nil_of_length_eq_zero (by omega)
  subst hrest
  simp only [List.append_nil, List.length_nil, true_and] at hfirst ⊢
  omega

/-- `ReadLine` returns the response, and nothing is left behind it. -/
theorem Linked.finish (h : Linked link connection phase) {tokens : List Bytes} {buffer : Bytes}
    (hclient : link.client = .reading tokens buffer) {pos : Nat}
    (hfind : find buffer 0 = some pos) :
    phase = .done tokens (substr buffer 0 (pos + 2)) ∧
      Linked { link with client := Client.afterResponse tokens (buffer.drop (pos + 2)) } connection
        .idle := by
  cases h with
  | reading hclient' =>
    cases hclient.symm.trans hclient'
    cases hfind
  | answered hclient' hline hquiet hpre hout =>
    cases hclient.symm.trans hclient'
    obtain ⟨rfl, hlength⟩ := eq_of_find hline ((List.prefix_append _ _).trans hpre) hfind
    -- the line that is taken is all that the connection has sent
    have htoClient : link.toClient = [] := by
      have hle := hpre.length_le
      rw [List.length_append] at hle
      exact List.eq_nil_of_length_eq_zero (by omega)
    have houtgoing : link.outgoing connection = [] := by
      cases connection with
      | none => exact (List.append_nil _).trans htoClient
      | some c => exact List.append_right_eq_self.mp (hout (.inr rfl))
    refine ⟨?_, ?_⟩
    · rw [hlength, substr, List.drop_zero, List.take_length]
    · rw [hlength, List.drop_length]
      unfold Client.afterResponse
      split
      · exact .away rfl hquiet
      · exact .prompt rfl hquiet houtgoing
  | away hclient' | orphaned hclient' | prompt hclient' | writing hclient' =>
    cases hclient.symm.trans hclient'

/-- The phase of a client that has given up. -/
def leave : Phase (List Bytes) Bytes → Phase (List Bytes) Bytes
  | .called tokens | .orphaned tokens => .orphaned tokens
  | .idle | .done _ _ => .idle

/-- A client ends. -/
theorem Linked.leave (h : Linked link connection phase) :
    Linked { link with client := .away } connection (leave phase) := by
  cases h with
  | away _ hquiet => exact .away rfl hquiet
  | orphaned _ hunderway => exact .orphaned rfl (hunderway.withClient .away)
  | prompt _ hquiet => exact .away rfl hquiet
  | writing _ _ hunderway => exact .orphaned rfl (hunderway.withClient .away)
  | reading _ hunderway => exact .orphaned rfl (hunderway.withClient .away)
  | answered _ _ hquiet => exact .away rfl hquiet

/-! ## The moves of the server -/

section Server

variable {ι : Type} {c : Connection} {event : ReadyEvent ι}

/-- The link after an event in which the server has written these bytes. -/
def Link.afterEvent (link : Link) (received : Nat) (written : Bytes) : Link :=
  { link with toServer := link.toServer.drop received, toClient := link.toClient ++ written }

/-- An event on a connection on which a request is on its way. -/
theorem Link.Underway.eventTrace {tokens : List Bytes} {rest : Bytes}
    (h : link.Underway (some c) tokens rest)
    (hchunks : ∀ outcome ∈ event.reads, outcome.chunk.length ≤ Connection.readSize)
    (hpre : (c.eventTrace event).received <+: link.toServer) :
    ((c.eventTrace event).requests = [{ tokens }] ∧ rest = [] ∧
        link.toServer.drop (c.eventTrace event).received.length = [] ∧
        ∀ codec, (c.eventTrace event).ending = .waits codec → codec.buffer = []) ∨
      ((c.eventTrace event).requests = [] ∧
        ∀ codec, (c.eventTrace event).ending = .waits codec →
          codec.buffer.length < (encodeResp tokens).length ∧
          codec.buffer ++ link.toServer.drop (c.eventTrace event).received.length =
            link.incoming (some c)) := by
  have hbytes := h.bytes (.inr rfl)
  obtain ⟨behind, hbehind⟩ := hpre
  have hdrop : link.toServer.drop (c.eventTrace event).received.length = behind := by
    rw [← hbehind, List.drop_left]
  have hincoming : link.incoming (some c) =
      c.codec.buffer ++ (c.eventTrace event).received ++ behind := by
    rw [List.append_assoc, hbehind]
    rfl
  -- what the codec holds, what is read and what is behind it make up the request
  rw [hincoming, List.append_assoc] at hbytes
  rw [hdrop]
  rcases (Connection.eventTrace_request h.sendable (h.torn c rfl) hchunks ⟨_, hbytes⟩).2 with
    ⟨hwhole, hrequests, hcodec⟩ | ⟨hless, hrequests, hcodec⟩
  · -- the request is complete, so nothing is behind it
    rw [hwhole, List.append_right_eq_self, List.append_eq_nil_iff] at hbytes
    exact .inl ⟨hrequests, hbytes.2, hbytes.1, hcodec⟩
  · refine .inr ⟨hrequests, fun codec hwaits => ?_⟩
    rw [hcodec codec hwaits, hincoming]
    exact ⟨hless, rfl⟩

/-- An event on a connection on which no request is on its way. -/
theorem Link.Quiet.eventTrace (h : link.Quiet (some c))
    (hchunks : ∀ outcome ∈ event.reads, outcome.chunk.length ≤ Connection.readSize)
    (hpre : (c.eventTrace event).received <+: link.toServer) :
    (c.eventTrace event).requests = [] ∧
      link.toServer.drop (c.eventTrace event).received.length = [] ∧
      ∀ codec, (c.eventTrace event).ending = .waits codec → codec.buffer = [] := by
  obtain ⟨hbuffer, htoServer⟩ := List.append_eq_nil_iff.mp (h (.inr rfl))
  have hbuffer : c.codec.buffer = [] := hbuffer
  have hreceived : (c.eventTrace event).received = [] := by
    rw [htoServer] at hpre
    exact List.prefix_nil.mp hpre
  have hsend : Sendable [] := ⟨by simp, by simp, by decide⟩
  have hless : c.codec.buffer.length < (encodeResp []).length := by simp [hbuffer, encodeResp]
  rcases (Connection.eventTrace_request hsend hless hchunks (by simp [hbuffer, hreceived])).2 with
    ⟨hwhole, -, -⟩ | ⟨-, hrequests, hcodec⟩
  · rw [hbuffer, hreceived] at hwhole
    simp [encodeResp] at hwhole
  · refine ⟨hrequests, by simp [htoServer], fun codec hwaits => ?_⟩
    rw [hcodec codec hwaits, hbuffer, hreceived]
    rfl

open Connection (Handled)

variable {output written : Bytes} {result : Connection.ReadResult}

/-- What is on the way to the client after an event. -/
theorem outgoing_afterEvent (h : Handled c event output written result) (link : Link)
    (received : Nat) :
    (link.afterEvent received written).toClient <+: link.toClient ++ output ∧
      ∀ next, result.connection? = some next →
        (link.afterEvent received written).outgoing (some next) = link.toClient ++ output ∧
          (c.eventTrace event).ending = .waits next.codec := by
  rcases h.cases with ⟨next, rfl, hwaits, houtput, -⟩ | ⟨rfl, hpre⟩
  · refine ⟨?_, ?_⟩
    · rw [houtput, ← List.append_assoc]
      exact List.prefix_append _ _
    · rintro next' hnext
      obtain rfl := Option.some.inj hnext
      refine ⟨?_, hwaits⟩
      rw [houtput, ← List.append_assoc]
      rfl
  · exact ⟨(List.prefix_append_right_inj _).mpr hpre, fun next hnext => by cases hnext⟩

/-- No request is on its way after an event that has left nothing to read. -/
theorem quiet_afterEvent (h : Handled c event output written result) (hbacklog : link.backlog = false)
    {received : Nat} (hdrop : link.toServer.drop received = [])
    (hcodec : ∀ codec, (c.eventTrace event).ending = .waits codec → codec.buffer = []) :
    (link.afterEvent received written).Quiet result.connection? := by
  intro halive
  rcases halive with hbacklog' | hsome
  · exact absurd (hbacklog.symm.trans hbacklog') Bool.false_ne_true
  · obtain ⟨next, hnext⟩ := Option.isSome_iff_exists.mp hsome
    have hwaits := ((outgoing_afterEvent h link received).2 next hnext).2
    rw [hnext]
    show next.codec.buffer ++ link.toServer.drop received = []
    rw [hdrop, hcodec _ hwaits]
    rfl

/-- What one event makes of a link: the server executes nothing, and the phase stays; or it
    executes the request that was on its way, and the call takes effect. -/
theorem Linked.handle {σ : Type} {run : σ → List Bytes → σ × Bytes} {store : σ}
    (h : Linked link (some c) phase) (hbacklog : link.backlog = false)
    (hchunks : ∀ outcome ∈ event.reads, outcome.chunk.length ≤ Connection.readSize)
    (hpre : (c.eventTrace event).received <+: link.toServer)
    (hhandled : Handled c event
      (c.writeBuffer ++ Connection.responses run store (c.eventTrace event).requests) written
      result) :
    ((c.eventTrace event).requests = [] ∧
        Linked (link.afterEvent (c.eventTrace event).received.length written) result.connection?
          phase) ∨
      ∃ tokens, (c.eventTrace event).requests = [{ tokens }] ∧ Sendable tokens ∧
        ((phase = .called tokens ∧ (IsLine (run store tokens).2 →
            Linked (link.afterEvent (c.eventTrace event).received.length written)
              result.connection? (.done tokens (run store tokens).2))) ∨
          (phase = .orphaned tokens ∧
            Linked (link.afterEvent (c.eventTrace event).received.length written)
              result.connection? .idle)) := by
  have hout := outgoing_afterEvent hhandled link (c.eventTrace event).received.length
  have hquiet' (hdrop : link.toServer.drop (c.eventTrace event).received.length = [])
      (hcodec : ∀ codec, (c.eventTrace event).ending = .waits codec → codec.buffer = []) :=
    quiet_afterEvent hhandled hbacklog hdrop hcodec
  -- a link on which no response is on its way stays so if nothing is executed
  have hempty (hrequests : (c.eventTrace event).requests = []) (hnil : link.outgoing (some c) = []) :
      (link.afterEvent (c.eventTrace event).received.length written).outgoing
        result.connection? = [] := by
    obtain ⟨htoClient, hbuffer⟩ := List.append_eq_nil_iff.mp hnil
    have hbuffer : c.writeBuffer = [] := hbuffer
    have houtput : link.toClient ++
        (c.writeBuffer ++ Connection.responses run store (c.eventTrace event).requests) = [] := by
      rw [htoClient, hbuffer, hrequests]
      rfl
    rw [houtput] at hout
    cases hnext : result.connection? with
    | none => exact (List.append_nil _).trans (List.prefix_nil.mp hout.1)
    | some next => exact (hout.2 next hnext).1
  -- a request that is not complete is still on its way
  have hunderway {tokens : List Bytes} {rest : Bytes}
      (hu : link.Underway (some c) tokens rest)
      (hcodec : ∀ codec, (c.eventTrace event).ending = .waits codec →
        codec.buffer.length < (encodeResp tokens).length ∧
        codec.buffer ++ link.toServer.drop (c.eventTrace event).received.length =
          link.incoming (some c)) :
      (link.afterEvent (c.eventTrace event).received.length written).Underway
        result.connection? tokens rest := by
    refine ⟨hu.sendable, fun halive => ?_, fun next hnext => ?_⟩
    · rcases halive with hbacklog' | hsome
      · exact absurd (hbacklog.symm.trans hbacklog') Bool.false_ne_true
      · obtain ⟨next, hnext⟩ := Option.isSome_iff_exists.mp hsome
        have hincoming := (hcodec _ (hout.2 next hnext).2).2
        rw [hnext, ← hu.bytes (.inr rfl), ← hincoming]
        rfl
    · exact (hcodec _ (hout.2 next hnext).2).1
  -- only an orphaned request, or one whose response the client reads, can be complete
  cases h with
  | away hclient hquiet =>
    obtain ⟨hrequests, hdrop, hcodec⟩ := hquiet.eventTrace hchunks hpre
    exact .inl ⟨hrequests, .away hclient (hquiet' hdrop hcodec)⟩
  | @orphaned tokens rest hclient hu =>
    rcases hu.eventTrace hchunks hpre with ⟨hrequests, -, hdrop, hcodec⟩ | ⟨hrequests, hcodec⟩
    · exact .inr ⟨tokens, hrequests, hu.sendable,
        .inr ⟨rfl, .away hclient (hquiet' hdrop hcodec)⟩⟩
    · exact .inl ⟨hrequests, .orphaned hclient (hunderway hu hcodec)⟩
  | prompt hclient hquiet hnil =>
    obtain ⟨hrequests, hdrop, hcodec⟩ := hquiet.eventTrace hchunks hpre
    exact .inl ⟨hrequests, .prompt hclient (hquiet' hdrop hcodec) (hempty hrequests hnil)⟩
  | @writing tokens rest hclient hrest hu hnil =>
    -- a request that is not written whole cannot be complete
    rcases hu.eventTrace hchunks hpre with ⟨-, hdone, -⟩ | ⟨hrequests, hcodec⟩
    · exact absurd hdone hrest
    · exact .inl ⟨hrequests, .writing hclient hrest (hunderway hu hcodec) (hempty hrequests hnil)⟩
  | @reading tokens hclient hu hnil =>
    rcases hu.eventTrace hchunks hpre with ⟨hrequests, -, hdrop, hcodec⟩ | ⟨hrequests, hcodec⟩
    · refine .inr ⟨tokens, hrequests, hu.sendable, .inl ⟨rfl, fun hline => ?_⟩⟩
      -- the response is all that is on its way to the client
      obtain ⟨htoClient, hbuffer⟩ := List.append_eq_nil_iff.mp hnil
      have hbuffer : c.writeBuffer = [] := hbuffer
      have houtput : link.toClient ++
          (c.writeBuffer ++ Connection.responses run store (c.eventTrace event).requests) =
          (run store tokens).2 := by
        rw [htoClient, hbuffer, hrequests]
        exact List.append_nil _
      rw [houtput] at hout
      refine .answered hclient hline (hquiet' hdrop hcodec) hout.1 fun halive => ?_
      rcases halive with hbacklog' | hsome
      · exact absurd (hbacklog.symm.trans hbacklog') Bool.false_ne_true
      · obtain ⟨next, hnext⟩ := Option.isSome_iff_exists.mp hsome
        rw [hnext]
        exact (hout.2 next hnext).1
    · exact .inl ⟨hrequests, .reading hclient (hunderway hu hcodec) (hempty hrequests hnil)⟩
  | @answered tokens buffer response hclient hline hquiet hprefix hwhole =>
    obtain ⟨hrequests, hdrop, hcodec⟩ := hquiet.eventTrace hchunks hpre
    have houtput : buffer ++ (link.toClient ++
        (c.writeBuffer ++ Connection.responses run store (c.eventTrace event).requests)) =
        response := by
      rw [hrequests, ← hwhole (.inr rfl)]
      show buffer ++ (link.toClient ++ (c.writeBuffer ++ [])) = _
      rw [List.append_nil]
      rfl
    refine .inl ⟨hrequests, .answered hclient hline (hquiet' hdrop hcodec) ?_ fun halive => ?_⟩
    · rw [← houtput]
      exact (List.prefix_append_right_inj _).mpr hout.1
    · rcases halive with hbacklog' | hsome
      · exact absurd (hbacklog.symm.trans hbacklog') Bool.false_ne_true
      · obtain ⟨next, hnext⟩ := Option.isSome_iff_exists.mp hsome
        rw [hnext, (hout.2 next hnext).1, houtput]

end Server

/-! ## The end of the server process -/

/-- A link whose connection has been reset. -/
def Link.reset (link : Link) : Link := { link with backlog := false }

/-- A link that has been reset has no connection. -/
theorem Link.not_alive_reset : ¬ link.reset.Alive none := by
  rintro (hbacklog | hsome)
  · cases hbacklog
  · cases hsome

theorem Link.quiet_reset : link.reset.Quiet none := fun halive => absurd halive not_alive_reset

/-- A request stays under way when its connection is reset. -/
theorem Link.Underway.reset {tokens : List Bytes} {rest : Bytes}
    (h : link.Underway connection tokens rest) : link.reset.Underway none tokens rest :=
  ⟨h.sendable, fun halive => absurd halive not_alive_reset, fun _ hc => by cases hc⟩

/-- Nothing is on the way to the client of a connection that is reset if nothing was before. -/
theorem Link.outgoing_reset (h : link.outgoing connection = []) : link.reset.outgoing none = [] :=
  (List.append_nil _).trans (List.append_eq_nil_iff.mp h).1

/-- The process of the server ends, and nothing has been executed for the client. -/
theorem Linked.reset (h : Linked link connection phase) : Linked link.reset none phase := by
  cases h with
  | away hclient => exact .away hclient Link.quiet_reset
  | orphaned hclient hu => exact .orphaned hclient hu.reset
  | prompt hclient _ hout => exact .prompt hclient Link.quiet_reset (Link.outgoing_reset hout)
  | writing hclient hrest hu hout =>
    exact .writing hclient hrest hu.reset (Link.outgoing_reset hout)
  | reading hclient hu hout => exact .reading hclient hu.reset (Link.outgoing_reset hout)
  | answered hclient hline _ hpre =>
    exact .answered hclient hline Link.quiet_reset hpre fun halive =>
      absurd halive Link.not_alive_reset

/-- The process of the server ends after a request of the client, or in the middle of it: no
    response will come. -/
theorem Linked.resetExecuted {ι : Type} {c : Connection} {event : ReadyEvent ι}
    (h : Linked link (some c) phase)
    (hchunks : ∀ outcome ∈ event.reads, outcome.chunk.length ≤ Connection.readSize)
    (hpre : (c.eventTrace event).received <+: link.toServer)
    {request : DecodedRequest} {requests : List DecodedRequest}
    (hrequests : (c.eventTrace event).requests = request :: requests) :
    requests = [] ∧ Sendable request.tokens ∧
      ((phase = .called request.tokens ∧
          ∀ response, IsLine response → Linked link.reset none (.done request.tokens response)) ∨
        (phase = .orphaned request.tokens ∧ Linked link.reset none .idle)) := by
  -- a request that is executed is the one on its way
  have hrequest {tokens : List Bytes} {rest : Bytes} (hu : link.Underway (some c) tokens rest) :
      requests = [] ∧ request.tokens = tokens ∧ rest = [] := by
    rcases hu.eventTrace hchunks hpre with ⟨hone, hrest, -⟩ | ⟨hnone, -⟩
    · cases hrequests.symm.trans hone
      exact ⟨rfl, rfl, hrest⟩
    · cases hrequests.symm.trans hnone
  cases h with
  | away _ hquiet | prompt _ hquiet | answered _ _ hquiet =>
    cases hrequests.symm.trans (hquiet.eventTrace hchunks hpre).1
  | orphaned hclient hu =>
    obtain ⟨hnil, rfl, -⟩ := hrequest hu
    exact ⟨hnil, hu.sendable, .inr ⟨rfl, .away hclient Link.quiet_reset⟩⟩
  -- a request of which something is left to write is not executed
  | writing _ hrest hu => exact absurd (hrequest hu).2.2 hrest
  | reading hclient hu hout =>
    obtain ⟨hnil, rfl, -⟩ := hrequest hu
    refine ⟨hnil, hu.sendable, .inl ⟨rfl, fun response hline => ?_⟩⟩
    refine .answered hclient hline Link.quiet_reset ?_ fun halive =>
      absurd halive Link.not_alive_reset
    have htoClient : link.toClient = [] := (List.append_eq_nil_iff.mp hout).1
    show [] ++ link.toClient <+: response
    rw [htoClient]
    exact List.nil_prefix

end KvStore
