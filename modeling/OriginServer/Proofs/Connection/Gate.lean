import OriginServer.Proofs.Connection.Calls
import OriginServer.Proofs.Connection.Pipeline
import OriginServer.Proofs.Connection.Wire
import OriginServer.Proofs.Text.Letters

namespace OriginServer

open OriginServer.Http OriginServer.WebSocket

/-- The request that stands at the front of the bytes. -/
def requestIn (setting : Setting) (bytes : Bytes) : StoredMessage :=
  Stream.request setting bytes (readMessage setting.config.limits.messageConfig.limits bytes).1

/-- A complete request whose first `Host` field names the domain, and the reply to it. -/
structure Admitted (setting : Setting) (domain : String) (request : Bytes) (reply : Reply) :
    Prop where
  replied : Replied setting domain request reply
  kind : (requestIn setting request).kind? = some .request
  host : ∃ host, (requestIn setting request).field? "Host" = some host ∧
    HostName.names host domain = true

theorem Replied.admitted {setting : Setting} {domain : String} {request : Bytes} {reply : Reply}
    (h : Replied setting domain request reply) : Admitted setting domain request reply :=
  have ⟨hkind, hhost⟩ := Reply.toMessage_admitted h.reply
  ⟨h, hkind, hhost⟩

/-- Output is a frame of the server. -/
def Output.IsFrame (o : Output) : Prop :=
  ∃ opcode payload, o = .bytes (frameBytes opcode true payload none)

section Outputs

/-- How many responses that switch the protocol there are. -/
def switches (output : List Output) : Nat :=
  output.countP (Output.announces .switchingProtocols)

theorem switches_append (first later : List Output) :
    switches (first ++ later) = switches first + switches later :=
  List.countP_append

theorem switches_eq_zero {output : List Output}
    (h : ∀ o ∈ output, o.announces .switchingProtocols = false) : switches output = 0 :=
  List.countP_eq_zero.2 fun o ho => Bool.eq_false_iff.1 (h o ho)

theorem switches_of_frames {output : List Output} (h : ∀ o ∈ output, o.IsFrame) :
    switches output = 0 := by
  refine switches_eq_zero fun o ho => ?_
  obtain ⟨opcode, payload, rfl⟩ := h o ho
  exact Output.announces_frame _ opcode payload

theorem switches_accepted (key : Bytes) :
    switches [.bytes (Handshake.acceptedResponse key).wire] = 1 := by
  have hstart : Response.startText { status := .switchingProtocols } <+:
      (Handshake.acceptedResponse key).wire := by
    have hs : (Handshake.acceptedResponse key).startText =
        Response.startText { status := .switchingProtocols } := by
      simp [Handshake.acceptedResponse, Response.startText]
    rw [Response.wire, Response.head, hs, List.append_assoc, List.append_assoc]
    exact List.prefix_append _ _
  exact List.countP_eq_length.2 fun o ho => by
    rw [List.mem_singleton.1 ho]
    exact List.isPrefixOf_iff_prefix.2 hstart

/-- A reply accepts an upgrade request with the response for that, or it keeps the protocol. -/
theorem Replied.switches_or {setting : Setting} {domain : String} {request : Bytes} {reply : Reply}
    (h : Replied setting domain request reply) :
    (∃ key, Handshake.Asks (requestIn setting request) key ∧
      reply = ⟨[.bytes (Handshake.acceptedResponse key).wire], true⟩) ∨
    reply.upgrades = false ∧ switches reply.output = 0 := by
  obtain ⟨key, hasks, rfl⟩ | ⟨s, hs, rfl⟩ := Reply.toMessage_answer h.reply
  · exact .inl ⟨key, hasks, rfl⟩
  · exact .inr ⟨Reply.upgrades_ofServed s,
      switches_eq_zero (Reply.announces_ofServed hs.status_ne_switching)⟩

/-- All that a WebSocket puts out are frames. -/
theorem Effect.Course.frames {f g : Face} {effects : List Effect} {closes : Bool}
    (hc : Effect.Course f effects g closes) (hp : f.protocol = .webSocket) :
    ∀ o ∈ effects.flatMap Effect.output, o.IsFrame := by
  induction hc with
  | nil f => exact List.forall_mem_nil _
  | closed _ hl => exact List.forall_mem_singleton.2 ⟨_, _, rfl⟩
  | cons hs _ ih =>
    rw [List.flatMap_cons]
    cases hs with
    | bound hd => exact List.forall_mem_append.2 ⟨List.forall_mem_nil _, ih hp⟩
    | answered hp' h => cases hp.symm.trans hp'
    | switched hp' hd => cases hp.symm.trans hp'
    | ponged _ hl =>
      exact List.forall_mem_append.2 ⟨List.forall_mem_singleton.2 ⟨_, _, rfl⟩, ih hp⟩
    | delivered _ => exact List.forall_mem_append.2 ⟨List.forall_mem_nil _, ih hp⟩

end Outputs

section Requests

theorem Stream.readRequest_cases {setting : Setting} (s : Stream)
    (hs : setting.config.limits.messageConfig.hasSlots = true) :
    (∃ request rest reply, s.waiting = request ++ rest ∧
      Replied setting s.domain request reply ∧ readRequest setting s = s.accept rest reply) ∨
    (readRequest setting s).output = [] ∧ (readRequest setting s).result ≠ .close ∧
      ∀ s', (readRequest setting s).result ≠ .next s' := by
  unfold readRequest
  split
  · exact .inr ⟨rfl, nofun, nofun⟩
  · exact .inr ⟨rfl, nofun, nofun⟩
  · rename_i parts next hr
    -- The request is what was read, and its reply does not depend on what stands behind it.
    obtain ⟨request, hw, hpos, hclosed⟩ := readMessage_closed hr
    have htaken : readMessage setting.config.limits.messageConfig.limits request =
        (parts, .done () ⟨request.length, []⟩) := by
      have h := hclosed []
      rwa [List.append_nil, hpos] at h
    have hm := Reply.toMessage_congr (request_sameHead htaken next.rest) setting s.domain
    rw [hw, ← hm]
    split
    · exact .inr ⟨rfl, nofun, nofun⟩
    · rename_i reply hreply
      refine .inl ⟨request, next.rest, reply, rfl, ⟨hs, congrArg Prod.snd htaken, ?_⟩, rfl⟩
      rw [htaken]
      exact hreply

/-- A stream in HTTP takes a complete request off and replies to it, or it does nothing. -/
theorem Stream.popRequest_cases (setting : Setting) (s : Stream) :
    (∃ request rest reply, s.waiting = request ++ rest ∧
      Replied setting s.domain request reply ∧ popRequest setting s = s.accept rest reply) ∨
    (popRequest setting s).output = [] ∧ (popRequest setting s).result ≠ .close ∧
      ∀ s', (popRequest setting s).result ≠ .next s' := by
  by_cases hw : s.waiting = []
  · rw [popRequest_nil hw]
    exact .inr ⟨rfl, nofun, nofun⟩
  · cases hs : setting.config.limits.messageConfig.hasSlots with
    | false =>
      rw [popRequest_of_no_slots hs hw]
      exact .inr ⟨rfl, nofun, nofun⟩
    | true =>
      rw [popRequest_eq hs]
      exact s.readRequest_cases hs

end Requests

/-- What comes of the bytes that a connection with HTTP has to read, and the protocol that it ends
with. Requests that name the domain are answered, and no bytes are left out between them. -/
inductive Dispatch (setting : Setting) (domain : String) (input : Bytes) (output : List Output) :
    Protocol → Prop
  | stays (exchanges : List (Bytes × Reply)) (rest : Bytes)
      (hi : input = (exchanges.map (·.1)).flatten ++ rest)
      (ho : output = exchanges.flatMap (·.2.output))
      (ha : ∀ e ∈ exchanges, Admitted setting domain e.1 e.2) (hs : switches output = 0) :
      Dispatch setting domain input output .http
  /-- The last request asks for a WebSocket and gets it. Behind it there are only frames. -/
  | switched (exchanges : List (Bytes × Reply)) (rest : Bytes) {request key : Bytes}
      {frames : List Output}
      (hi : input = (exchanges.map (·.1)).flatten ++ (request ++ rest))
      (ho : output = exchanges.flatMap (·.2.output) ++
        .bytes (Handshake.acceptedResponse key).wire :: frames)
      (ha : ∀ e ∈ exchanges, Admitted setting domain e.1 e.2)
      (hl : Admitted setting domain request
        ⟨[.bytes (Handshake.acceptedResponse key).wire], true⟩)
      (hk : Handshake.Asks (requestIn setting request) key)
      (hf : ∀ o ∈ frames, o.IsFrame) (hs : switches output = 1) :
      Dispatch setting domain input output .webSocket

namespace Dispatch

variable {setting : Setting} {domain : String} {request input : Bytes} {reply : Reply}
  {output : List Output} {protocol : Protocol}

theorem idle (setting : Setting) (domain : String) (input : Bytes) :
    Dispatch setting domain input [] .http :=
  .stays [] input rfl rfl (List.forall_mem_nil _) rfl

/-- One more request in front, which does not switch the protocol. -/
theorem cons (h : Replied setting domain request reply) (hn : switches reply.output = 0)
    (hd : Dispatch setting domain input output protocol) :
    Dispatch setting domain (request ++ input) (reply.output ++ output) protocol := by
  have hcount (l : List Output) : switches (reply.output ++ l) = switches l := by
    rw [switches_append, hn, Nat.zero_add]
  cases hd with
  | stays exchanges rest hi ho ha hs =>
    refine .stays ((request, reply) :: exchanges) rest ?_ ?_
      (List.forall_mem_cons.2 ⟨h.admitted, ha⟩) ((hcount _).trans hs)
    · rw [hi, List.map_cons, List.flatten_cons, List.append_assoc]
    · rw [ho, List.flatMap_cons]
  | switched exchanges rest hi ho ha hl hk hf hs =>
    refine .switched ((request, reply) :: exchanges) rest ?_ ?_
      (List.forall_mem_cons.2 ⟨h.admitted, ha⟩) hl hk hf ((hcount _).trans hs)
    · rw [hi, List.map_cons, List.flatten_cons, List.append_assoc]
    · rw [ho, List.flatMap_cons, List.append_assoc]

/-- A request that switches the protocol. -/
theorem last {key : Bytes} {frames : List Output} (rest : Bytes)
    (h : Replied setting domain request ⟨[.bytes (Handshake.acceptedResponse key).wire], true⟩)
    (hk : Handshake.Asks (requestIn setting request) key) (hf : ∀ o ∈ frames, o.IsFrame) :
    Dispatch setting domain (request ++ rest)
      ([.bytes (Handshake.acceptedResponse key).wire] ++ frames) .webSocket := by
  have hs : switches ([.bytes (Handshake.acceptedResponse key).wire] ++ frames) = 1 := by
    rw [switches_append, switches_accepted, switches_of_frames hf]
  exact .switched [] rest rfl rfl (List.forall_mem_nil _) h.admitted hk hf hs

end Dispatch

namespace Connection

variable {setting : Setting} {pools : Pools} {c : Connection} {domain : String}

/-- A connection in HTTP takes a complete request off and replies to it, or nothing comes of the
attempt. -/
theorem pop_http (hb : c.buffer.Sound) (hp : pools.Keyed)
    (hr : setting.config.limits.bufferSize ≤ Buffer.maxStore) (hd : c.domain = some domain)
    (hc : c.protocol = .http) :
    (∃ request rest reply, c.buffer.content = request ++ rest ∧
      Replied setting domain request reply ∧
      (pop setting pools c).outcome = .ok .next ∧ (pop setting pools c).output = reply.output ∧
      (pop setting pools c).connection.buffer.content = rest ∧
      (pop setting pools c).connection.protocol =
        if reply.upgrades then .webSocket else .http) ∨
    (pop setting pools c).output = [] ∧ (pop setting pools c).connection.protocol = .http ∧
      (pop setting pools c).outcome ≠ .ok .close ∧ (pop setting pools c).outcome ≠ .ok .next := by
  have hf := (pop_follows hb hp hr).advance
  have hpops := pop_pops setting pools hd
  generalize pop setting pools c = t at hf hpops ⊢
  have hname : c.stream.domain = domain := congrArg (Option.getD · "") hd
  have hs : Stream.pop setting c.stream = Stream.popRequest setting c.stream := by
    have hprotocol : c.stream.protocol = .http := hc
    rw [Stream.pop, hprotocol]
  rw [hs] at hf
  obtain ⟨request, rest, reply, hw, hreply, hpop⟩ | ⟨hout, hclose, hnext⟩ :=
    Stream.popRequest_cases setting c.stream
  · have ha : t.advance = c.stream.accept rest reply := hf.trans hpop
    obtain ⟨ho, hstream⟩ := Turn.outcome_of_next (congrArg Progress.result ha)
    have hprotocol : t.connection.protocol = if reply.upgrades then .webSocket else c.protocol :=
      congrArg Stream.protocol hstream
    rw [hc] at hprotocol
    exact .inl ⟨request, rest, reply, hw, hname ▸ hreply, ho, congrArg Progress.output ha,
      congrArg Stream.waiting hstream, hprotocol⟩
  · rw [← hf] at hout hclose hnext
    have hquiet : t.output = [] := hout
    refine .inr ⟨hquiet, ?_, ?_, ?_⟩
    · cases hpops with
      | quiet hface ho hn hc' => exact (congrArg Face.protocol hface).trans hc
      | closed hws => cases hws.symm.trans hc
      | @effect e g hstep hface ho hn hc' =>
        have hg : g.protocol = .http := by
          cases hstep with
          | switched hp' hd' => cases ho.symm.trans hquiet
          | bound hn => exact hc
          | answered hp' h => exact hc
          | ponged hp' hl => exact hc
          | delivered hp' => exact hc
        exact (congrArg Face.protocol hface).trans hg
    · intro ho
      exact hclose (by simp only [Turn.advance, ho])
    · intro ho
      exact hnext t.connection.stream (by simp only [Turn.advance, ho])

/-- Nothing comes of an attempt in HTTP that does not take a request off. -/
theorem pop_quiet (hb : c.buffer.Sound) (hp : pools.Keyed)
    (hr : setting.config.limits.bufferSize ≤ Buffer.maxStore) (hd : c.domain = some domain)
    (hc : c.protocol = .http) (hn : (pop setting pools c).outcome ≠ .ok .next) :
    (pop setting pools c).output = [] ∧ (pop setting pools c).connection.protocol = .http ∧
      (pop setting pools c).outcome ≠ .ok .close := by
  obtain ⟨_, _, _, _, _, ho, _⟩ | ⟨hout, hprotocol, hclose, -⟩ := pop_http hb hp hr hd hc
  · exact absurd ho hn
  · exact ⟨hout, hprotocol, hclose⟩

/-- What a connection with HTTP takes until it has to wait. -/
theorem drain_dispatch (hb : c.buffer.Sound) (hp : pools.Keyed)
    (hr : setting.config.limits.bufferSize ≤ Buffer.maxStore) (hd : c.domain = some domain)
    (hc : c.protocol = .http) :
    Dispatch setting domain c.buffer.content (drain setting pools c).output
      (drain setting pools c).connection.protocol := by
  fun_induction drain setting pools c with
  | case1 pools c cause h =>
    obtain ⟨hout, hprotocol, -⟩ := pop_quiet hb hp hr hd hc (by simp [h])
    dsimp only
    rw [hout, hprotocol]
    exact .idle setting domain _
  | case2 pools c h =>
    obtain ⟨hout, hprotocol, -⟩ := pop_quiet hb hp hr hd hc (by simp [h])
    dsimp only
    rw [hout, hprotocol]
    exact .idle setting domain _
  | case3 pools c h =>
    obtain ⟨-, -, hclose⟩ := pop_quiet hb hp hr hd hc (by simp [h])
    exact absurd h hclose
  | case4 pools c h first rest ih =>
    have hkeeps : (pop setting pools c).Keeps c := (pop_follows hb hp hr).keeps
    obtain ⟨request, behind, reply, hw, hreply, -, hout, hbuffer, hprotocol⟩ | ⟨-, -, -, hnext⟩ :=
      pop_http hb hp hr hd hc
    · have hname : first.connection.domain = some domain := hkeeps.domain.trans hd
      dsimp only
      rw [hw, hout]
      obtain ⟨key, hasks, rfl⟩ | ⟨hu, hn⟩ := hreply.switches_or
      · -- From here on the connection is a WebSocket.
        have hws : first.connection.face.protocol = .webSocket := hprotocol
        obtain ⟨effects, hshows⟩ := drain_shows setting first.pools hname
        have hend : rest.connection.protocol = .webSocket := hshows.course.webSocket hws
        have hframes : ∀ o ∈ rest.output, o.IsFrame := by
          rw [hshows.output]
          exact hshows.course.frames hws
        rw [hend]
        exact .last behind hreply hasks hframes
      · rw [hu] at hprotocol
        have hrest := ih hkeeps.buffer hkeeps.pools hname hprotocol
        rw [hbuffer] at hrest
        exact .cons hreply hn hrest
    · exact absurd h hnext

/-- A call of a connection in HTTP answers requests among the bytes that waited and the new ones. -/
theorem io_dispatch {got : String} {data : Bytes} (hb : c.buffer.Sound) (hp : pools.Keyed)
    (hr : setting.config.limits.bufferSize ≤ Buffer.maxStore) (hd : c.domain = some domain)
    (hc : c.protocol = .http) :
    Dispatch setting domain (c.buffer.content ++ data) (io setting pools c got data).output
      (io setting pools c got data).connection.protocol := by
  obtain ⟨cause, -, hio⟩ | ⟨bound, hbind, hcases⟩ := io_cases setting pools c got data
  · rw [hio, hc]
    exact .idle setting domain _
  · have hself : bound = c := bind_of_domain hd hbind
    subst hself
    obtain ⟨cause, -, hio⟩ | ⟨buffer, hpush, hio⟩ := hcases
    · rw [hio, hc]
      exact .idle setting domain _
    · obtain ⟨hsound, hcontent⟩ := Buffer.Sound.push hb hpush
      rw [hio, connection_checkSize, output_checkSize, ← hcontent]
      exact drain_dispatch (c := { bound with buffer }) hsound hp hr hd hc

/-- A call of a WebSocket puts frames out and leaves it one. -/
theorem io_webSocket {got : String} {data : Bytes} (hc : c.protocol = .webSocket) :
    (io setting pools c got data).connection.protocol = .webSocket ∧
      (∀ o ∈ (io setting pools c got data).output, o.IsFrame) ∧
      switches (io setting pools c got data).output = 0 := by
  obtain ⟨effects, hshows⟩ := io_shows setting pools c got data
  have hframes : ∀ o ∈ (io setting pools c got data).output, o.IsFrame := by
    rw [hshows.output]
    exact hshows.course.frames hc
  exact ⟨hshows.course.webSocket hc, hframes, switches_of_frames hframes⟩

theorem io_domain {got : String} {data : Bytes} (hd : c.domain = some domain) :
    (io setting pools c got data).connection.domain = some domain := by
  obtain ⟨effects, hshows⟩ := io_shows setting pools c got data
  exact hshows.course.domain_eq hd

/-- A call for another domain comes to nothing. -/
theorem io_refused {got : String} {data : Bytes} (hd : c.domain = some domain)
    (hs : sameLetters domain got = false) :
    io setting pools c got data =
      { connection := c, pools, outcome := .error (.domainMismatch domain got) } := by
  have hbind : c.bind got = .error (.domainMismatch domain got) := by
    simp only [bind, hd, hs, Bool.false_eq_true, if_false]
  simp only [io, hbind]

/-- What the domain of a connection means for a call, whatever the call is for. -/
structure Gated (config : Config) (domain : String) (c : Connection) (a : Call) : Prop where
  bound : (a.turn config c).connection.domain = some domain
  refused : sameLetters domain a.domain = false →
    a.turn config c =
      { connection := c, pools := a.pools, outcome := .error (.domainMismatch domain a.domain) }
  http : c.protocol = .http →
    Dispatch (a.setting config) domain (c.buffer.content ++ a.data) (a.turn config c).output
      (a.turn config c).connection.protocol
  webSocket : c.protocol = .webSocket →
    (a.turn config c).connection.protocol = .webSocket ∧
      (∀ o ∈ (a.turn config c).output, o.IsFrame) ∧ switches (a.turn config c).output = 0

variable {config : Config}

theorem gated_of_bound (a : Call) (hb : c.buffer.Sound)
    (hr : config.limits.bufferSize ≤ Buffer.maxStore) (hd : c.domain = some domain) :
    Gated config domain c a :=
  ⟨io_domain hd, io_refused hd, io_dispatch hb a.keyed hr hd, io_webSocket⟩

/-- The first call is for the domain that it binds the connection to. -/
theorem gated_of_fresh (a : Call) (hb : c.buffer.Sound)
    (hr : config.limits.bufferSize ≤ Buffer.maxStore) (hd : c.domain = none) :
    Gated config a.domain c a := by
  have hturn : a.turn config c = a.turn config { c with domain := some a.domain } :=
    io_unbound (a.setting config) a.pools a.domain a.data hd
  obtain ⟨hbound, -, hhttp, hws⟩ :=
    gated_of_bound (c := { c with domain := some a.domain }) a hb hr rfl
  rw [← hturn] at hbound hhttp hws
  refine ⟨hbound, fun hs => ?_, hhttp, hws⟩
  rw [sameLetters_refl] at hs
  cases hs

/-- The first call fixes the domain of a connection. From then on a call for another domain is
refused, and nothing changes. All that is put out in HTTP answers complete requests that name the
domain, and the connection becomes a WebSocket only by such a request, which asks for it as it has
to, with exactly one response that tells of the switch. -/
theorem calls_gated {socket : SocketId} (hc : create config.limits socket = .ok c)
    (calls : List Call) (a : Call) :
    Gated config (calls.head?.getD a).domain (after config c calls) a := by
  obtain ⟨hnone, hsound, -, hr⟩ := create_fresh hc
  cases calls with
  | nil => exact gated_of_fresh a hsound hr hnone
  | cons first later =>
    -- Every later call finds the buffer in order and the domain of the first one.
    have hstep (c : Connection) (b : Call)
        (h : c.buffer.Sound ∧ c.domain = some first.domain) (_ : True) :
        (b.turn config c).connection.buffer.Sound ∧
          (b.turn config c).connection.domain = some first.domain :=
      ⟨io_sound h.1 b.keyed hr, io_domain h.2⟩
    have hfirst : (first.turn config c).connection.buffer.Sound ∧
        (first.turn config c).connection.domain = some first.domain :=
      ⟨io_sound hsound first.keyed hr, (gated_of_fresh first hsound hr hnone).bound⟩
    obtain ⟨hs, hd⟩ : (after config (first.turn config c).connection later).buffer.Sound ∧
        (after config (first.turn config c).connection later).domain = some first.domain :=
      after_invariant (P := fun c => c.buffer.Sound ∧ c.domain = some first.domain)
        (Q := fun _ => True) hstep hfirst fun _ _ => trivial
    exact gated_of_bound a hs hr hd

/-- An upgrade request, and a call for another domain behind it. -/
theorem calls_gated_upgrade :
    ∃ (config : Config) (c : Connection) (upgrade stray : Call),
      create config.limits ⟨1⟩ = .ok c ∧
      (upgrade.turn config c).connection.protocol = .webSocket ∧
      switches (upgrade.turn config c).output = 1 ∧
      (∃ request key, request <:+: upgrade.data ∧
        Handshake.Asks (requestIn (upgrade.setting config) request) key) ∧
      (stray.turn config (upgrade.turn config c).connection).outcome =
        .error (.domainMismatch "localhost" "example.org") := by
  obtain ⟨setting, c, input, t, -, hc, hfirst, -, hconn⟩ := io_upgrade
  let upgrade : Call := ⟨.empty 32, setting.files, "localhost", input, Pools.keyed_empty 32⟩
  let stray : Call := ⟨.empty 32, setting.files, "example.org", [], Pools.keyed_empty 32⟩
  have hturn : upgrade.turn setting.config c = t := hfirst
  have hws : (upgrade.turn setting.config c).connection.protocol = .webSocket := by
    rw [hturn, hconn]
  have hhttp : c.protocol = .http := congrArg Face.protocol (face_of_create hc)
  have hempty : c.buffer.content = [] := (create_fresh hc).2.2.1
  have hother : sameLetters "localhost" "example.org" = false := by decide
  have hdispatch := (calls_gated hc [] upgrade).http hhttp
  have hrefused := (calls_gated hc [upgrade] stray).refused hother
  simp only [after, hws, hempty, List.nil_append] at hdispatch
  cases hdispatch with
  | switched exchanges rest hi ho ha hl hk hf hs =>
    have hin : _ <:+: input := ⟨_, rest, (List.append_assoc _ _ _).trans hi.symm⟩
    exact ⟨setting.config, c, upgrade, stray, hc, hws, hs, ⟨_, _, hin, hk⟩,
      congrArg Turn.outcome hrefused⟩

end Connection

end OriginServer
