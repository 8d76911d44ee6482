import OriginServer.Connection.Run
import OriginServer.Proofs.Connection.Reply
import OriginServer.Proofs.WebSocket.StoredFrame

namespace OriginServer

open OriginServer.Http OriginServer.Site OriginServer.WebSocket

/-- What others know of a connection. -/
structure Face where
  socket : SocketId
  domain : Option String
  protocol : Protocol
  isUpgraded : Bool

namespace Connection

def face (c : Connection) : Face :=
  { socket := c.socket, domain := c.domain, protocol := c.protocol, isUpgraded := c.isUpgraded }

theorem face_of_create {limits : ServerLimits} {socket : SocketId} {c : Connection}
    (h : create limits socket = .ok c) : c.face = ⟨socket, none, .http, false⟩ := by
  obtain ⟨b, -, hc⟩ := bind_eq_ok.1 h
  cases hc
  rfl

end Connection

inductive Effect where
  /-- The first call binds the connection to its domain. -/
  | bound (domain : String)
  | answered (s : Served)
  /-- An upgrade request with that key was accepted. -/
  | switched (key : Bytes) (domain : String)
  | ponged (payload : Bytes)
  /-- A message of the client is complete. -/
  | delivered (payload : Bytes)
  | closed (payload : Bytes)

namespace Effect

def output : Effect → List Output
  | answered s => (Reply.ofServed s).output
  | switched key _ => [.bytes (Handshake.acceptedResponse key).wire]
  | ponged payload => [.bytes (frameBytes .pong true payload none)]
  | closed payload => [.bytes (frameBytes .close true payload none)]
  | _ => []

def notices (socket : SocketId) : Effect → List Notice
  | switched _ domain => [.opened socket domain]
  | delivered payload => Connection.deliver socket payload
  | _ => []

/-- When an effect comes about, and what becomes of the face then. A closing frame is not among
these: it ends the call. -/
inductive Step : Face → Effect → Face → Prop
  | bound {f : Face} {domain : String} (hd : f.domain = none) :
      Step f (.bound domain) { f with domain := some domain }
  | answered {f : Face} {s : Served} {fs : FileSystem} {chunkSize : Nat}
      (hp : f.protocol = .http) (h : HttpAnswer fs chunkSize s) : Step f (.answered s) f
  | switched {f : Face} {key : Bytes} {domain : String} (hp : f.protocol = .http)
      (hd : f.domain = some domain) :
      Step f (.switched key domain) { f with protocol := .webSocket, isUpgraded := true }
  | ponged {f : Face} {payload : Bytes} (hp : f.protocol = .webSocket)
      (hl : payload.length ≤ 125) : Step f (.ponged payload) f
  | delivered {f : Face} {payload : Bytes} (hp : f.protocol = .webSocket) :
      Step f (.delivered payload) f

/-- Effects in their order, and whether they end with a closing frame. -/
inductive Course : Face → List Effect → Face → Bool → Prop
  | nil (f : Face) : Course f [] f false
  | closed {f : Face} {payload : Bytes} (hp : f.protocol = .webSocket)
      (hl : payload.length ≤ 125) : Course f [.closed payload] f true
  | cons {f g h : Face} {e : Effect} {later : List Effect} {closes : Bool} (hs : Step f e g)
      (hl : Course g later h closes) : Course f (e :: later) h closes

variable {f g h : Face} {e : Effect} {first later : List Effect} {closes : Bool}

theorem Step.socket_eq (hs : Step f e g) : g.socket = f.socket := by
  cases hs <;> rfl

theorem Step.domain_eq {domain : String} (hs : Step f e g) (hd : f.domain = some domain) :
    g.domain = some domain := by
  cases hs with
  | bound hn => cases hn.symm.trans hd
  | answered hp h => exact hd
  | switched hp _ => exact hd
  | ponged hp hl => exact hd
  | delivered hp => exact hd

theorem Course.socket_eq (hc : Course f first g closes) : g.socket = f.socket := by
  induction hc with
  | nil f => rfl
  | closed hp hl => rfl
  | cons hs hl ih => exact ih.trans hs.socket_eq

theorem Course.domain_eq {domain : String} (hc : Course f first g closes)
    (hd : f.domain = some domain) : g.domain = some domain := by
  induction hc with
  | nil f => exact hd
  | closed hp hl => exact hd
  | cons hs hl ih => exact ih (hs.domain_eq hd)

/-- A WebSocket stays one. -/
theorem Course.webSocket (hc : Course f first g closes) (hp : f.protocol = .webSocket) :
    g.protocol = .webSocket := by
  induction hc with
  | nil f => exact hp
  | closed _ hl => exact hp
  | cons hs hl ih =>
    apply ih
    cases hs with
    | switched _ hd => rfl
    | bound hd => exact hp
    | answered _ h => exact hp
    | ponged _ hl => exact hp
    | delivered _ => exact hp

/-- What follows effects that do not close. -/
theorem Course.append (hf : Course f first g false) (hl : Course g later h closes) :
    Course f (first ++ later) h closes := by
  generalize hn : false = closing at hf
  induction hf with
  | nil f => exact hl
  | closed hp hl => cases hn
  | cons hs _ ih => exact .cons hs (ih hl hn)

end Effect

/-- A call closes its socket. -/
def Turn.closes (t : Turn Flow) : Bool :=
  match t.outcome with
  | .ok .close => true
  | _ => false

/-- A call of a connection with that face comes to these effects. -/
structure Turn.Shows (t : Turn Flow) (f : Face) (effects : List Effect) : Prop where
  course : Effect.Course f effects t.connection.face t.closes
  output : t.output = effects.flatMap Effect.output
  notices : t.notices = effects.flatMap (Effect.notices f.socket)

/-- The attempt to take one request or frame has at most one effect. -/
inductive Turn.Pops (t : Turn Step) (f : Face) : Prop
  | quiet (hf : t.connection.face = f) (ho : t.output = []) (hn : t.notices = [])
      (hc : t.outcome ≠ .ok .close)
  | effect {e : Effect} {g : Face} (hs : Effect.Step f e g) (hf : t.connection.face = g)
      (ho : t.output = e.output) (hn : t.notices = e.notices f.socket)
      (hc : t.outcome ≠ .ok .close)
  | closed {payload : Bytes} (hp : f.protocol = .webSocket) (hl : payload.length ≤ 125)
      (hf : t.connection.face = f) (ho : t.output = (Effect.closed payload).output)
      (hn : t.notices = []) (hc : t.outcome = .ok .close)

/-- An attempt that does not close has a course. -/
theorem Turn.Pops.course {t : Turn Step} {f : Face} (h : t.Pops f) (hc : t.outcome ≠ .ok .close) :
    ∃ effects, Effect.Course f effects t.connection.face false ∧
      t.output = effects.flatMap Effect.output ∧
      t.notices = effects.flatMap (Effect.notices f.socket) := by
  cases h with
  | quiet hf ho hn => exact ⟨[], hf ▸ .nil _, ho, hn⟩
  | @effect e g hs hf ho hn =>
    refine ⟨[e], .cons hs (hf ▸ .nil _), ?_, ?_⟩
    · rw [ho, List.flatMap_singleton]
    · rw [hn, List.flatMap_singleton]
  | closed hp hl hf ho hn hclose => exact absurd hclose hc

namespace Connection

variable {setting : Setting} {pools : Pools} {c : Connection} {domain : String}

section Frames

theorem handleFrame_pops (pools : Pools) {f : StoredFrame} (hp : c.protocol = .webSocket)
    (hf : f.opcode.isControl = true → f.content.length ≤ 125) :
    (handleFrame pools c f).Pops c.face := by
  unfold handleFrame
  split
  · rename_i ho
    exact .effect (.ponged hp (hf (by rw [ho]; rfl))) rfl rfl rfl nofun
  · exact .quiet rfl rfl rfl nofun
  · rename_i ho
    have hl : (f.content.take 2).length ≤ 125 := by
      rw [List.length_take]
      omega
    exact .closed hp hl rfl rfl rfl rfl
  · split
    · exact .quiet rfl rfl rfl nofun
    · exact .quiet rfl rfl rfl nofun
    · exact .effect (.delivered hp) rfl rfl rfl nofun

/-- The payload of a control frame that was read is small. -/
theorem length_content_of_read {f : StoredFrame} {next : Cursor} (b : Buffer)
    (h : f.read.1 = .done () next) (hc : f.read.2.opcode.isControl = true) :
    ({ f.read.2 with buffer := b }.unmask).content.length ≤ 125 := by
  obtain ⟨header, hr, hf⟩ := StoredFrame.read_eq_done h
  rw [hf] at hc ⊢
  have hs : ({ f.withHeader header with buffer := b }.unmask).span = header.content := by
    rw [StoredFrame.span, StoredFrame.unmask_header]
    rfl
  rw [StoredFrame.content, hs]
  exact Nat.le_trans (List.length_take_le _ _) (readFrame_control hr hc)

theorem concludeFrame_pops (pools : Pools) (spare : Buffer) {f : StoredFrame}
    (hp : c.protocol = .webSocket) :
    (concludeFrame pools c spare f.read.2 f.read.1).Pops c.face := by
  cases hr : f.read.1 with
  | done u next =>
    unfold concludeFrame
    dsimp only
    split
    · exact .quiet rfl rfl rfl nofun
    · rename_i kept rest hs
      have hf : ({ f.read.2 with buffer := kept }.unmask).opcode.isControl = true →
          ({ f.read.2 with buffer := kept }.unmask).content.length ≤ 125 := by
        intro ho
        rw [StoredFrame.opcode, StoredFrame.unmask_header] at ho
        exact length_content_of_read kept hr ho
      exact handleFrame_pops (c := { c with buffer := rest }) pools hp hf
  | more => exact .quiet rfl rfl rfl nofun
  | fail cause => exact .quiet rfl rfl rfl nofun

theorem popFrame_pops (setting : Setting) (pools : Pools) (hp : c.protocol = .webSocket) :
    (popFrame setting pools c).Pops c.face := by
  unfold popFrame
  split
  · exact .quiet rfl rfl rfl nofun
  · exact concludeFrame_pops _ _ hp

end Frames

section Requests

/-- A reply switches the protocol or answers, whatever becomes of the input behind it. -/
theorem accept_pops {reply : Reply} {m : StoredMessage} (pools : Pools) (rest : Buffer)
    (outcome : Except ConnectionError Step) (hp : c.protocol = .http) (hd : c.domain = some domain)
    (hr : Reply.toMessage setting c.boundDomain m = .ok reply) (ho : outcome ≠ .ok .close) :
    ({ accept c pools reply rest with outcome } : Turn Step).Pops c.face := by
  obtain ⟨key, -, rfl⟩ | ⟨s, hs, rfl⟩ := Reply.toMessage_answer hr
  · have hf : { accept c pools ⟨[.bytes (Handshake.acceptedResponse key).wire], true⟩ rest
        with outcome }.connection.face =
          { c.face with protocol := .webSocket, isUpgraded := true } := by
      simp only [accept, face, if_true, Bool.or_true]
    have hn : c.boundDomain = domain := by
      rw [boundDomain, hd]
      rfl
    exact .effect (.switched hp hd) hf rfl (hn ▸ rfl) ho
  · have hu := Reply.upgrades_ofServed s
    have hf : { accept c pools (Reply.ofServed s) rest with outcome }.connection.face = c.face := by
      simp only [accept, face, hu, Bool.or_false, Bool.false_eq_true, if_false]
    have hn : { accept c pools (Reply.ofServed s) rest with outcome }.notices = [] := by
      simp only [accept, hu, Bool.false_eq_true, if_false]
    exact .effect (.answered hp hs) hf rfl hn ho

theorem conclude_pops {input : Buffer} {m : StoredMessage} {outcome : Scan ParseError Unit}
    (pools : Pools) (hp : c.protocol = .http) (hd : c.domain = some domain) :
    (conclude c pools input (replyTo setting c.boundDomain m outcome)).Pops c.face := by
  cases hr : replyTo setting c.boundDomain m outcome with
  | error cause => exact .quiet rfl rfl rfl nofun
  | ok reply =>
    cases reply with
    | none => exact .quiet rfl rfl rfl nofun
    | some place =>
      obtain ⟨reply, next⟩ := place
      have hm := toMessage_of_replyTo hr
      unfold conclude
      dsimp only
      split
      · exact accept_pops pools {} _ hp hd hm nofun
      · rename_i kept rest _
        exact accept_pops pools rest (.ok .next) hp hd hm nofun

theorem popRequest_pops (setting : Setting) (pools : Pools) (hp : c.protocol = .http)
    (hd : c.domain = some domain) : (popRequest setting pools c).Pops c.face := by
  unfold popRequest
  split
  · exact .quiet rfl rfl rfl nofun
  · exact conclude_pops _ hp hd

end Requests

section Calls

theorem pop_pops (setting : Setting) (pools : Pools) (hd : c.domain = some domain) :
    (pop setting pools c).Pops c.face := by
  unfold pop
  split
  · exact .quiet rfl rfl rfl nofun
  · split
    · rename_i hp
      exact popRequest_pops setting pools hp hd
    · rename_i hp
      exact popFrame_pops setting pools hp

/-- What a connection takes until it has to wait comes to a course of effects. -/
theorem drain_shows (setting : Setting) (pools : Pools) (hd : c.domain = some domain) :
    ∃ effects, (drain setting pools c).Shows c.face effects := by
  fun_induction drain setting pools c with
  | case1 pools c cause h =>
    obtain ⟨effects, hc, ho, hn⟩ := (pop_pops setting pools hd).course (by rw [h]; exact nofun)
    exact ⟨effects, hc, ho, hn⟩
  | case2 pools c h =>
    obtain ⟨effects, hc, ho, hn⟩ := (pop_pops setting pools hd).course (by rw [h]; exact nofun)
    exact ⟨effects, hc, ho, hn⟩
  | case3 pools c h =>
    cases pop_pops setting pools hd with
    | quiet hf ho hn hc => exact absurd h hc
    | effect hs hf ho hn hc => exact absurd h hc
    | @closed payload hp hl hf ho hn =>
      have hc : Effect.Course c.face [.closed payload] (pop setting pools c).connection.face
          true := by
        rw [hf]
        exact .closed hp hl
      refine ⟨[.closed payload], hc, ?_, hn⟩
      rw [List.flatMap_singleton]
      exact ho
  | case4 pools c h first rest ih =>
    obtain ⟨effects, hc, ho, hn⟩ := (pop_pops setting pools hd).course (by rw [h]; exact nofun)
    obtain ⟨later, hl⟩ := ih (hc.domain_eq hd)
    refine ⟨effects ++ later, hc.append hl.course, ?_, ?_⟩
    · rw [List.flatMap_append, ← ho, ← hl.output]
    · have hs : first.connection.face.socket = c.face.socket := hc.socket_eq
      have hln := hl.notices
      rw [hs] at hln
      rw [List.flatMap_append, ← hn, ← hln]

theorem checkSize_shows {t : Turn Flow} {f : Face} {effects : List Effect} (limit : Nat)
    (h : t.Shows f effects) : (checkSize limit t).Shows f effects := by
  unfold checkSize
  split
  · rename_i ho
    split
    · refine ⟨?_, h.output, h.notices⟩
      have hc := h.course
      simp only [Turn.closes, ho] at hc
      exact hc
    · exact h
  · exact h

/-- Binding a connection puts nothing out. -/
theorem bind_course {bound : Connection} (h : c.bind domain = .ok bound) :
    ∃ effects name, Effect.Course c.face effects bound.face false ∧ bound.domain = some name ∧
      effects.flatMap Effect.output = [] ∧ effects.flatMap (Effect.notices c.socket) = [] := by
  unfold bind at h
  split at h
  · rename_i hd
    cases h
    exact ⟨[.bound domain], domain, .cons (.bound hd) (.nil _), rfl, rfl, rfl⟩
  · rename_i name hd
    split at h
    · cases h
      exact ⟨[], name, .nil _, hd, rfl, rfl⟩
    · cases h

/-- All that a call puts out and tells belongs to a course of effects. -/
theorem io_shows (setting : Setting) (pools : Pools) (c : Connection) (domain : String)
    (data : Bytes) : ∃ effects, (io setting pools c domain data).Shows c.face effects := by
  obtain ⟨cause, -, hio⟩ | ⟨bound, hb, hcases⟩ := io_cases setting pools c domain data
  · rw [hio]
    exact ⟨[], .nil _, rfl, rfl⟩
  · obtain ⟨binding, name, hbind, hname, hbo, hbn⟩ := bind_course hb
    obtain ⟨cause, -, hio⟩ | ⟨buffer, -, hio⟩ := hcases
    · rw [hio]
      exact ⟨binding, hbind, hbo.symm, hbn.symm⟩
    · have hname' : { bound with buffer }.domain = some name := hname
      obtain ⟨effects, he⟩ := drain_shows setting pools hname'
      have hs : bound.face.socket = c.face.socket := hbind.socket_eq
      have hout : (drain setting pools { bound with buffer }).output =
          (binding ++ effects).flatMap Effect.output := by
        rw [List.flatMap_append, hbo, List.nil_append]
        exact he.output
      have hnotices : (drain setting pools { bound with buffer }).notices =
          (binding ++ effects).flatMap (Effect.notices c.socket) := by
        have hen : (drain setting pools { bound with buffer }).notices =
            effects.flatMap (Effect.notices bound.face.socket) := he.notices
        rw [hs] at hen
        rw [List.flatMap_append, hbn, List.nil_append]
        exact hen
      rw [hio]
      exact ⟨binding ++ effects,
        checkSize_shows _ ⟨hbind.append he.course, hout, hnotices⟩⟩

end Calls

end Connection

end OriginServer
