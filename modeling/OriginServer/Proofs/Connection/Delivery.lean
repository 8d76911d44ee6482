import OriginServer.Proofs.Connection.Stream
import OriginServer.Proofs.Storage.Pool
import OriginServer.Proofs.WebSocket.StoredFrame

namespace OriginServer

open OriginServer.Http OriginServer.WebSocket

/-- Every idle object stands under its own key, and there are slots for the fields of the
messages. -/
structure Pools.Keyed (p : Pools) : Prop where
  messages : p.messages.Keyed
  frames : p.frames.Keyed
  slots : ∀ config, ∀ m ∈ p.messages.stack config, config.hasSlots = true

namespace Pools

variable {p : Pools}

theorem keyed_empty (capacity : Nat) : (empty capacity).Keyed :=
  ⟨Pool.keyed_empty _, Pool.keyed_empty _, nofun⟩

theorem Keyed.putMessage (h : p.Keyed) {m : StoredMessage} (hs : m.config.hasSlots = true) :
    (p.putMessage m).Keyed := by
  refine ⟨h.messages.put m, h.frames, ?_⟩
  intro config other hm
  obtain ⟨rfl, -⟩ | hm := Pool.mem_stack_put hm
  · exact hs
  · exact h.slots config other hm

theorem Keyed.putFrame (h : p.Keyed) (f : StoredFrame) : (p.putFrame f).Keyed :=
  ⟨h.messages, h.frames.put f, h.slots⟩

theorem Keyed.putFrames (h : p.Keyed) (fs : List StoredFrame) :
    (fs.foldl Pools.putFrame p).Keyed := by
  induction fs generalizing p with
  | nil => exact h
  | cons f fs ih => exact ih (h.putFrame f)

theorem Keyed.get_message (h : p.Keyed) {config : MessageConfig}
    (hr : config.bufferSize ≤ Buffer.maxStore) (hs : config.hasSlots = true) :
    ∃ m messages, p.messages.get config = (some m, messages) ∧ m.config = config ∧
      Keyed { p with messages } := by
  obtain ⟨new, hn, hk⟩ := StoredMessage.create_complete config hr hs
  obtain ⟨m, messages, hm, hc, hkeyed⟩ := h.messages.get_complete hn hk
  refine ⟨m, messages, hm, hc, hkeyed, h.frames, ?_⟩
  intro other idle hidle
  have hbefore : idle ∈ (p.messages.get config).2.stack other := by rwa [hm]
  exact h.slots other idle (Pool.mem_stack_get hbefore)

/-- Where there are no slots, no message is handed out. -/
theorem Keyed.get_message_of_no_slots (h : p.Keyed) {config : MessageConfig}
    (hs : config.hasSlots = false) : p.messages.get config = (none, p.messages) := by
  have hempty : p.messages.stack config = [] := by
    rw [List.eq_nil_iff_forall_not_mem]
    intro m hm
    cases (h.slots config m hm).symm.trans hs
  rw [Pool.get, hempty, StoredMessage.create_of_no_slots hs]
  cases p.messages.isEnabled <;> rfl

theorem Keyed.get_frame (h : p.Keyed) {config : FrameConfig}
    (hr : config.bufferSize ≤ Buffer.maxStore) :
    ∃ f frames, p.frames.get config = (some f, frames) ∧ f.config = config ∧
      Keyed { p with frames } := by
  obtain ⟨new, hn, hk⟩ := StoredFrame.create_complete config hr
  obtain ⟨f, frames, hf, hc, hkeyed⟩ := h.frames.get_complete hn hk
  exact ⟨f, frames, hf, hc, h.messages, hkeyed, h.slots⟩

end Pools

/-- What the frames come to that were put together so far. -/
def WebSocket.Reassembly.message (r : Reassembly) : OpenMessage :=
  { maxSize := r.maxMessageSize, payload := r.frames.flatMap (·.content), size := r.size,
    last := r.last }

theorem WebSocket.Reassembly.push_message (r : Reassembly) (f : StoredFrame) :
    r.message.push f.fragmentation f.content =
      match r.push f with
      | (.error cause, _) => .error cause
      | (.ok none, r') => .ok (none, r'.message)
      | (.ok (some m), r') => .ok (some m.payload, r'.message) := by
  cases h₁ : f.fragmentation.follows r.last with
  | false => simp [OpenMessage.push, push, message, h₁]
  | true =>
    by_cases h₂ : r.maxMessageSize < r.size + f.content.length
    · simp [OpenMessage.push, push, message, h₁, h₂]
    · cases h₃ : f.fragmentation.leavesOpen with
      | false => simp [OpenMessage.push, push, message, h₁, h₂, h₃, join]
      | true => simp [OpenMessage.push, push, message, h₁, h₂, h₃]

namespace Connection

/-- The connection without its buffers. -/
def stream (c : Connection) : Stream :=
  { socket := c.socket, domain := c.boundDomain, protocol := c.protocol,
    waiting := c.buffer.content, message := c.reassembly.message }

end Connection

/-- What a turn comes to for the stream of its connection. -/
def Turn.advance (t : Turn Step) : Progress Advance :=
  { output := t.output
    notices := t.notices
    result :=
      match t.outcome with
      | .ok .wait => .wait
      | .ok .next => .next t.connection.stream
      | .ok .close => .close
      | .error cause => .error cause }

/-- What a call comes to for the stream of its connection. -/
def Turn.verdict (t : Turn Flow) : Progress Verdict :=
  { output := t.output
    notices := t.notices
    result :=
      match t.outcome with
      | .ok .goOn => .goOn t.connection.stream
      | .ok .close => .close
      | .error cause => .error cause }

theorem Turn.outcome_of_next {t : Turn Step} {s : Stream} (h : t.advance.result = .next s) :
    t.outcome = .ok .next ∧ t.connection.stream = s := by
  simp only [advance] at h
  split at h <;> cases h
  exact ⟨‹_›, rfl⟩

theorem Turn.outcome_of_error {t : Turn Flow} {cause : ConnectionError}
    (h : t.verdict.result = .error cause) : t.outcome = .error cause := by
  simp only [verdict] at h
  split at h <;> cases h
  assumption

theorem Turn.outcome_of_close {t : Turn Flow} (h : t.verdict.result = .close) :
    t.outcome = .ok .close := by
  simp only [verdict] at h
  split at h <;> cases h
  assumption

theorem Turn.outcome_of_goOn {t : Turn Flow} {s : Stream} (h : t.verdict.result = .goOn s) :
    t.outcome = .ok .goOn ∧ t.connection.stream = s := by
  simp only [verdict] at h
  split at h <;> cases h
  exact ⟨‹_›, rfl⟩

/-- A verdict tells the outcome, and what is left where the connection goes on. -/
theorem Turn.eq_of_verdict {t t' : Turn Flow} (h : t.verdict = t'.verdict) :
    t.outcome = t'.outcome ∧
      (t'.outcome = .ok .goOn → t.connection.stream = t'.connection.stream) := by
  have hr := congrArg Progress.result h
  cases hv : t'.verdict.result with
  | error cause =>
    rw [hv] at hr
    rw [outcome_of_error hr, outcome_of_error hv]
    exact ⟨rfl, nofun⟩
  | close =>
    rw [hv] at hr
    rw [outcome_of_close hr, outcome_of_close hv]
    exact ⟨rfl, nofun⟩
  | goOn s =>
    rw [hv] at hr
    obtain ⟨ho, hs⟩ := outcome_of_goOn hr
    obtain ⟨ho', hs'⟩ := outcome_of_goOn hv
    exact ⟨ho.trans ho'.symm, fun _ => hs.trans hs'.symm⟩

theorem Turn.verdict_goOn {t : Turn Step} {s : Stream} (ho : t.output = [])
    (hn : t.notices = []) (hs : t.connection.stream = s) :
    ({ t with outcome := .ok .goOn } : Turn Flow).verdict = { result := .goOn s } := by
  simp only [verdict, ho, hn, hs]

/-- What every turn of a connection keeps. -/
structure Turn.Keeps {α : Type} (t : Turn α) (c : Connection) : Prop where
  domain : t.connection.domain = c.domain
  buffer : t.connection.buffer.Sound
  pools : t.pools.Keyed

/-- The turn of a connection does what its stream does. -/
structure Turn.Follows (t : Turn Step) (c : Connection) (p : Progress Advance) : Prop where
  advance : t.advance = p
  keeps : t.Keeps c
  wait : t.outcome = .ok .wait → t.connection.stream = c.stream

namespace Connection

variable {setting : Setting} {pools : Pools} {c : Connection}

section Frames

theorem advance_handleFrame {f : StoredFrame} {header : FrameHeader}
    (hf : f.header? = some header) :
    (handleFrame pools c f).advance = Stream.handleFrame c.stream header f.content := by
  have ho : f.opcode = header.opcode := by rw [StoredFrame.opcode, hf]; rfl
  have hg : f.fragmentation = header.fragmentation := by rw [StoredFrame.fragmentation, hf]; rfl
  have hp := c.reassembly.push_message f
  rw [hg] at hp
  unfold handleFrame Stream.handleFrame
  rw [ho]
  cases header.opcode
  case ping => rfl
  case pong => rfl
  case close => rfl
  all_goals
    simp only [stream, hp]
    obtain ⟨outcome, r⟩ := c.reassembly.push f
    cases outcome with
    | error => rfl
    | ok message => cases message <;> rfl

theorem keeps_handleFrame {f : StoredFrame} (hb : c.buffer.Sound) (hp : pools.Keyed) :
    (handleFrame pools c f).Keeps c := by
  refine ⟨?_, (buffer_handleFrame pools c f).symm ▸ hb, ?_⟩
  all_goals
    unfold handleFrame
    split
  · rfl
  · rfl
  · rfl
  · split <;> rfl
  · exact hp.putFrame f
  · exact hp.putFrame f
  · exact hp.putFrame f
  · split
    · exact hp
    · exact hp
    · exact hp.putFrames _

theorem handleFrame_ne_wait (pools : Pools) (c : Connection) (f : StoredFrame) :
    (handleFrame pools c f).outcome ≠ .ok .wait := by
  unfold handleFrame
  split
  · exact nofun
  · exact nofun
  · exact nofun
  · split <;> exact nofun

/-- A frame that was read is taken out of the buffer and answered in the clear. -/
theorem concludeFrame_done {f : StoredFrame} {limit : Nat} {header : FrameHeader} {next : Cursor}
    (spare : Buffer) (hb : c.buffer.Sound) (hp : pools.Keyed) (hf : f.buffer = c.buffer)
    (hr : readFrame limit c.buffer.content = .done header next) :
    (concludeFrame pools c spare (f.withHeader header) (.done () next)).Follows c
      (Stream.handleFrame { c.stream with waiting := next.rest } header
        (masked header.mask (header.content.of c.buffer.content))) := by
  obtain ⟨hs, hl, hd⟩ := readFrame_places hr
  obtain ⟨rest, hrest, hrs, hrc⟩ := hb.shiftTrailing_complete (hb.length_content ▸ hl)
  have hfb : (f.withHeader header).buffer = c.buffer := hf
  have hw : { c with buffer := rest }.stream = { c.stream with waiting := next.rest } := by
    rw [hd, ← hrc]
    rfl
  have hlen : header.content.stop ≤ (c.buffer.truncate next.pos).content.length := by
    rw [hb.content_truncate, List.length_take, hs]
    omega
  have hu := StoredFrame.unmask_content (f := { f with buffer := c.buffer.truncate next.pos }) hlen
  rw [hb.content_truncate, Span.of_front (Nat.le_of_eq hs)] at hu
  simp only [concludeFrame, hfb, hrest]
  rw [← hw, ← hu]
  obtain ⟨h₁, h₂, h₃⟩ := keeps_handleFrame (c := { c with buffer := rest }) hrs hp
  exact ⟨advance_handleFrame (StoredFrame.unmask_header _), ⟨h₁, h₂, h₃⟩,
    fun h => absurd h (handleFrame_ne_wait _ _ _)⟩

theorem popFrame_follows (hb : c.buffer.Sound) (hp : pools.Keyed)
    (hr : setting.config.limits.bufferSize ≤ Buffer.maxStore) :
    (popFrame setting pools c).Follows c (Stream.popFrame setting c.stream) := by
  obtain ⟨f, frames, hg, hc, hkeyed⟩ : ∃ f frames,
      pools.frames.get setting.config.limits.frameConfig = (some f, frames) ∧ _ :=
    hp.get_frame hr
  have hw : c.stream.waiting = c.buffer.content := rfl
  simp only [popFrame, hg, Stream.popFrame, hw, StoredFrame.read]
  simp only [StoredFrame.withBuffer, StoredFrame.withoutHeader, hc]
  cases hread : readFrame setting.config.limits.frameConfig.maxFrameSize c.buffer.content with
  | more => exact ⟨rfl, ⟨rfl, hb, hkeyed.putFrame _⟩, fun _ => rfl⟩
  | fail cause => exact ⟨rfl, ⟨rfl, hb, hkeyed.putFrame _⟩, fun h => by cases h⟩
  | done header next => exact concludeFrame_done _ hb hkeyed rfl hread

end Frames

section Requests

/-- A request that was read is answered by its head, and what stands behind it stays. -/
theorem conclude_done {m : StoredMessage} {parts : Parts} {next : Cursor} (hb : c.buffer.Sound)
    (hp : pools.Keyed) (hm : m.buffer = c.buffer)
    (hr : readMessage m.config.limits c.buffer.content = (parts, .done () next)) :
    (conclude c pools m.read.2.buffer
        (replyTo setting c.boundDomain m.read.2 (.done () next))).Follows c
      (match Reply.toMessage setting c.boundDomain
          (Stream.request setting c.buffer.content parts) with
        | .error cause => { result := .error cause }
        | .ok reply => c.stream.accept next.rest reply) := by
  rw [← hm] at hb hr ⊢
  obtain ⟨hh, hs, hd⟩ : StoredMessage.SameHead m.read.2
      (Stream.request setting m.buffer.content parts) ∧ _ ∧ _ :=
    StoredMessage.read_complete hb hr rfl List.take_length
  have hl : next.pos ≤ m.read.2.buffer.length := by
    rw [StoredMessage.length_read, ← hb.length_content]
    exact readMessage_pos_le hr
  obtain ⟨rest, hrest, hrs, hrc⟩ := hs.shiftTrailing_complete hl
  rw [replyTo, Reply.toMessage_congr hh setting c.boundDomain]
  cases Reply.toMessage setting c.boundDomain (Stream.request setting m.buffer.content parts) with
  | error cause => exact ⟨rfl, ⟨rfl, Buffer.sound_empty none, hp⟩, fun h => by cases h⟩
  | ok reply =>
    simp only [Except.map, conclude, hrest]
    refine ⟨?_, ⟨rfl, hrs, hp⟩, fun h => by cases h⟩
    rw [← hd, ← hrc]
    rfl

theorem popRequest_read (hb : c.buffer.Sound) (hp : pools.Keyed)
    (hr : setting.config.limits.bufferSize ≤ Buffer.maxStore)
    (hs : setting.config.limits.messageConfig.hasSlots = true) :
    (popRequest setting pools c).Follows c (Stream.readRequest setting c.stream) := by
  obtain ⟨m, messages, hg, hc, hkeyed⟩ : ∃ m messages,
      pools.messages.get setting.config.limits.messageConfig = (some m, messages) ∧ _ :=
    hp.get_message hr hs
  have hc : (m.withBuffer c.buffer).config = setting.config.limits.messageConfig := hc
  have hback : (Pools.putMessage { pools with messages }
      ((m.withBuffer c.buffer).read.2.withBuffer m.buffer)).Keyed := by
    refine hkeyed.putMessage ?_
    show (m.withBuffer c.buffer).read.2.config.hasSlots = true
    rw [StoredMessage.config_read, hc, hs]
  have hw : c.stream.waiting = c.buffer.content := rfl
  simp only [popRequest, hg, Stream.readRequest, hw]
  rw [← hc]
  cases hread : readMessage (m.withBuffer c.buffer).config.limits c.buffer.content with
  | mk parts outcome =>
    have hfst : (m.withBuffer c.buffer).read.1 = outcome := by
      rw [StoredMessage.read_fst]
      exact congrArg Prod.snd hread
    rw [hfst]
    cases outcome with
    | more =>
      have hbuf : (m.withBuffer c.buffer).read.2.buffer = c.buffer :=
        StoredMessage.buffer_read_more hfst
      simp only [replyTo, conclude, hbuf]
      exact ⟨rfl, ⟨rfl, hb, hback⟩, fun _ => rfl⟩
    | fail cause => exact ⟨rfl, ⟨rfl, Buffer.sound_empty none, hback⟩, fun h => by cases h⟩
    | done a next => exact conclude_done hb hback rfl hread

theorem popRequest_follows (hb : c.buffer.Sound) (hp : pools.Keyed)
    (hr : setting.config.limits.bufferSize ≤ Buffer.maxStore) (hw : c.buffer.content ≠ []) :
    (popRequest setting pools c).Follows c (Stream.popRequest setting c.stream) := by
  cases hs : setting.config.limits.messageConfig.hasSlots with
  | true =>
    rw [Stream.popRequest_eq hs]
    exact popRequest_read hb hp hr hs
  | false =>
    rw [Stream.popRequest_of_no_slots hs hw]
    simp only [popRequest, hp.get_message_of_no_slots hs]
    exact ⟨rfl, ⟨rfl, hb, hp⟩, fun h => by cases h⟩

end Requests

section Calls

/-- A connection takes one request or frame as its stream does. -/
theorem pop_follows (hb : c.buffer.Sound) (hp : pools.Keyed)
    (hr : setting.config.limits.bufferSize ≤ Buffer.maxStore) :
    (pop setting pools c).Follows c (Stream.pop setting c.stream) := by
  unfold pop
  split
  · rename_i he
    have hw : c.stream.waiting = [] := hb.isEmpty_iff.1 he
    rw [Stream.pop_of_wait (Stream.pop_nil hw)]
    exact ⟨rfl, ⟨rfl, hb, hp⟩, fun _ => rfl⟩
  · rename_i he
    have hs : c.stream.protocol = c.protocol := rfl
    rw [Stream.pop, hs]
    cases c.protocol with
    | http => exact popRequest_follows hb hp hr fun hw => he (hb.isEmpty_iff.2 hw)
    | webSocket => exact popFrame_follows hb hp hr

/-- What becomes of a call by what the first attempt comes to. -/
theorem drain_eq (setting : Setting) (pools : Pools) (c : Connection) :
    drain setting pools c =
      let first := pop setting pools c
      match first.outcome with
      | .error cause => { first with outcome := .error cause }
      | .ok .wait => { first with outcome := .ok .goOn }
      | .ok .close => { first with outcome := .ok .close }
      | .ok .next =>
        let rest := drain setting first.pools first.connection
        { rest with
          output := first.output ++ rest.output
          notices := first.notices ++ rest.notices } := by
  rw [drain]
  dsimp only
  split <;> rename_i h <;> rw [h]

theorem drain_of_wait (h : (pop setting pools c).outcome = .ok .wait) :
    drain setting pools c = { pop setting pools c with outcome := .ok .goOn } := by
  rw [drain_eq]
  dsimp only
  rw [h]

theorem pop_of_isEmpty (h : c.buffer.isEmpty = true) :
    pop setting pools c = { connection := c, pools, outcome := .ok .wait } := by
  unfold pop
  rw [if_pos h]

theorem checkSize_of_short {limit : Nat} {t : Turn Flow} (h : t.connection.pending ≤ limit) :
    checkSize limit t = t := by
  unfold checkSize
  split
  · exact if_neg fun hn => Nat.not_lt.2 h hn.2
  · rfl

/-- A connection takes what it can as its stream does. -/
theorem drain_follows (hb : c.buffer.Sound) (hp : pools.Keyed)
    (hr : setting.config.limits.bufferSize ≤ Buffer.maxStore) :
    (drain setting pools c).verdict = Stream.drain setting c.stream ∧
      (drain setting pools c).Keeps c := by
  fun_induction drain setting pools c with
  | case1 pools c cause h =>
    have hf := pop_follows hb hp hr
    have ha : (Stream.pop setting c.stream).result = .error cause := by
      simp only [← hf.advance, Turn.advance, h]
    rw [Stream.drain_of_error ha, ← hf.advance]
    exact ⟨rfl, hf.keeps.domain, hf.keeps.buffer, hf.keeps.pools⟩
  | case2 pools c h =>
    have hf := pop_follows hb hp hr
    have ha : (Stream.pop setting c.stream).result = .wait := by
      simp only [← hf.advance, Turn.advance, h]
    have hpop := hf.advance.trans (Stream.pop_of_wait ha)
    have ho : (pop setting pools c).output = [] := congrArg Progress.output hpop
    have hn : (pop setting pools c).notices = [] := congrArg Progress.notices hpop
    refine ⟨?_, hf.keeps.domain, hf.keeps.buffer, hf.keeps.pools⟩
    rw [Stream.drain_of_wait ha]
    exact Turn.verdict_goOn ho hn (hf.wait h)
  | case3 pools c h =>
    have hf := pop_follows hb hp hr
    have ha : (Stream.pop setting c.stream).result = .close := by
      simp only [← hf.advance, Turn.advance, h]
    rw [Stream.drain_of_close ha, ← hf.advance]
    exact ⟨rfl, hf.keeps.domain, hf.keeps.buffer, hf.keeps.pools⟩
  | case4 pools c h first rest ih =>
    have hf := pop_follows hb hp hr
    have ha : (Stream.pop setting c.stream).result = .next first.connection.stream := by
      simp only [← hf.advance, Turn.advance, h, first]
    obtain ⟨hv, hk⟩ := ih hf.keeps.buffer hf.keeps.pools
    rw [Stream.drain_of_next ha, ← hv, ← hf.advance]
    exact ⟨rfl, hk.domain.trans hf.keeps.domain, hk.buffer, hk.pools⟩

theorem checkSize_follows {t : Turn Flow} (limit : Nat) (hk : t.Keeps c) :
    (checkSize limit t).verdict = t.verdict.checkSize limit ∧ (checkSize limit t).Keeps c := by
  have hl : t.connection.stream.waiting.length = t.connection.pending := hk.buffer.length_content
  unfold checkSize Progress.checkSize Turn.verdict
  cases ho : t.outcome with
  | error cause => simp only [ho, hk, and_self]
  | ok flow =>
    cases flow with
    | close => simp only [ho, hk, and_self]
    | goOn =>
      simp only [hl]
      by_cases h : t.connection.protocol = .http ∧ limit < t.connection.pending
      · have h' : t.connection.stream.protocol = .http ∧ limit < t.connection.pending := h
        simp only [if_pos h, if_pos h']
        exact ⟨trivial, hk.domain, hk.buffer, hk.pools⟩
      · have h' : ¬ (t.connection.stream.protocol = .http ∧ limit < t.connection.pending) := h
        simp only [if_neg h, if_neg h', ho, hk, and_self]

theorem bind_bound {domain : String} (hd : c.domain = some domain) : c.bind domain = .ok c := by
  have hs : sameLetters domain domain = true := beq_self_eq_true _
  rw [Connection.bind, hd]
  exact if_pos hs

theorem bind_eq_self {domain : String} :
    c.bind domain = .ok c ↔ ∃ bound, c.domain = some bound ∧ sameLetters bound domain = true := by
  unfold Connection.bind
  cases hc : c.domain with
  | none =>
    refine ⟨fun h => ?_, nofun⟩
    have hd := congrArg Connection.domain (Except.ok.inj h)
    rw [hc] at hd
    cases hd
  | some bound =>
    by_cases hs : sameLetters bound domain = true
    · exact ⟨fun _ => ⟨bound, rfl, hs⟩, fun _ => if_pos hs⟩
    · refine ⟨fun h => ?_, ?_⟩
      · dsimp only at h
        rw [if_neg hs] at h
        cases h
      · rintro ⟨b, he, hb⟩
        rw [← Option.some.inj he] at hb
        exact absurd hb hs

/-- Binding a bound connection changes nothing. -/
theorem bind_of_domain {bound : Connection} {name domain : String} (hd : c.domain = some name)
    (h : c.bind domain = .ok bound) : bound = c := by
  rw [Connection.bind, hd] at h
  dsimp only at h
  split at h
  · exact (Except.ok.inj h).symm
  · cases h

/-- A connection stays bound, and binding it changes nothing else. -/
theorem bind_complete {bound : Connection} {domain : String} (h : c.bind domain = .ok bound) :
    bound.bind domain = .ok bound ∧ ∃ name, bound = { c with domain := some name } := by
  cases hc : c.domain with
  | none =>
    rw [Connection.bind, hc] at h
    cases h
    exact ⟨bind_bound rfl, domain, rfl⟩
  | some name =>
    obtain rfl := bind_of_domain hc h
    exact ⟨h, name, hc ▸ rfl⟩

/-- A call binds the connection first. -/
theorem io_of_bind {bound : Connection} {domain : String} (data : Bytes)
    (h : c.bind domain = .ok bound) :
    io setting pools c domain data = io setting pools bound domain data := by
  rw [io, io, h, (bind_complete h).1]

/-- A connection takes in bytes for its domain as its stream does. -/
theorem io_follows_of_bind {domain : String} (data : Bytes) (hd : c.bind domain = .ok c)
    (hb : c.buffer.Sound) (hp : pools.Keyed)
    (hr : setting.config.limits.bufferSize ≤ Buffer.maxStore)
    (hl : c.buffer.content.length + data.length ≤ Buffer.maxStore) :
    (io setting pools c domain data).verdict = Stream.io setting c.stream data ∧
      (io setting pools c domain data).Keeps c := by
  obtain ⟨buffer, hpush, hbs, hbc⟩ := hb.push_complete (hb.length_content ▸ hl)
  obtain ⟨hv, hk⟩ := drain_follows (c := { c with buffer }) hbs hp hr
  have hs : { c with buffer }.stream = c.stream.append data := by
    simp only [stream, Stream.append, hbc]
    rfl
  rw [Stream.io, ← hs, ← hv]
  simp only [io, hd, hpush]
  exact checkSize_follows _ ⟨hk.domain, hk.buffer, hk.pools⟩

theorem io_follows {domain : String} (data : Bytes) (hd : c.domain = some domain)
    (hb : c.buffer.Sound) (hp : pools.Keyed)
    (hr : setting.config.limits.bufferSize ≤ Buffer.maxStore)
    (hl : c.buffer.content.length + data.length ≤ Buffer.maxStore) :
    (io setting pools c domain data).verdict = Stream.io setting c.stream data ∧
      (io setting pools c domain data).Keeps c :=
  io_follows_of_bind data (bind_bound hd) hb hp hr hl

/-- A call that brings one request, which makes the connection a WebSocket, and no more. -/
theorem io_single {bound : Connection} {domain : String} {data : Bytes} {buffer : Buffer}
    (hbind : c.bind domain = .ok bound) (hpush : bound.buffer.push data = .ok buffer)
    (hnext : (pop setting pools { bound with buffer }).outcome = .ok .next)
    (hempty : (pop setting pools { bound with buffer }).connection.buffer.isEmpty = true)
    (hp : (pop setting pools { bound with buffer }).connection.protocol = .webSocket) :
    io setting pools c domain data =
      { pop setting pools { bound with buffer } with outcome := .ok .goOn } := by
  have hwait : pop setting (pop setting pools { bound with buffer }).pools _ = _ :=
    pop_of_isEmpty hempty
  simp only [io, hbind, hpush]
  rw [drain_eq]
  dsimp only
  rw [hnext]
  dsimp only
  rw [drain_of_wait (by rw [hwait]), hwait]
  simp [checkSize, hp]

end Calls

section Pieces

/-- Feeds a connection with pieces that came for a domain, as long as it goes on. -/
def feed (setting : Setting) (pools : Pools) (c : Connection) (domain : String) :
    List Bytes → Turn Flow
  | [] => { connection := c, pools, outcome := .ok .goOn }
  | data :: later =>
    let first := io setting pools c domain data
    match first.outcome with
    | .ok .goOn =>
      let rest := feed setting first.pools first.connection domain later
      { rest with
        output := first.output ++ rest.output
        notices := first.notices ++ rest.notices }
    | _ => first

/-- The first call binds the connection. -/
theorem io_unbound (setting : Setting) (pools : Pools) (domain : String) (data : Bytes)
    (hd : c.domain = none) :
    io setting pools c domain data =
      io setting pools { c with domain := some domain } domain data := by
  have hb : c.bind domain = .ok { c with domain := some domain } := by rw [Connection.bind, hd]
  exact io_of_bind data hb

/-- A connection takes in pieces as its stream does. -/
theorem feed_follows_of_bind {domain : String} {pieces : List Bytes}
    (hd : c.bind domain = .ok c)
    (hb : c.buffer.Sound) (hp : pools.Keyed)
    (hr : setting.config.limits.bufferSize ≤ Buffer.maxStore)
    (hl : c.buffer.content.length + pieces.flatten.length ≤ Buffer.maxStore) :
    (feed setting pools c domain pieces).verdict = Stream.feed setting c.stream pieces := by
  induction pieces generalizing c pools with
  | nil => rfl
  | cons data later ih =>
    rw [List.flatten_cons, List.length_append] at hl
    obtain ⟨hv, hk⟩ := io_follows_of_bind data hd hb hp hr (by omega)
    rw [Stream.feed, ← hv]
    unfold feed Progress.andThen
    cases ho : (io setting pools c domain data).outcome with
    | error cause => simp only [Turn.verdict, ho]
    | ok flow =>
      cases flow with
      | close => simp only [Turn.verdict, ho]
      | goOn =>
        have hg : (io setting pools c domain data).verdict.result =
            .goOn (io setting pools c domain data).connection.stream := by
          simp only [Turn.verdict, ho]
        have hle : (io setting pools c domain data).connection.buffer.content.length ≤
            c.buffer.content.length + data.length := Stream.length_io (hv ▸ hg)
        have hi := ih (bind_eq_self.2 (hk.domain ▸ bind_eq_self.1 hd)) hk.buffer hk.pools (by omega)
        simp only [ho, hg, ← hi]
        rfl

theorem feed_follows {domain : String} {pieces : List Bytes} (hd : c.domain = some domain)
    (hb : c.buffer.Sound) (hp : pools.Keyed)
    (hr : setting.config.limits.bufferSize ≤ Buffer.maxStore)
    (hl : c.buffer.content.length + pieces.flatten.length ≤ Buffer.maxStore) :
    (feed setting pools c domain pieces).verdict = Stream.feed setting c.stream pieces :=
  feed_follows_of_bind (bind_bound hd) hb hp hr hl

theorem create_fresh {limits : ServerLimits} {socket : SocketId}
    (h : create limits socket = .ok c) :
    c.domain = none ∧ c.buffer.Sound ∧ c.buffer.content = [] ∧
      limits.bufferSize ≤ Buffer.maxStore := by
  obtain ⟨b, hb, hc⟩ := bind_eq_ok.1 h
  obtain ⟨hl, hs, he⟩ := Buffer.withCapacity_sound hb
  cases hc
  exact ⟨rfl, hs.withThreshold _, he, hl⟩

theorem feed_unbound (setting : Setting) (pools : Pools) (domain : String) {pieces : List Bytes}
    (hn : pieces ≠ []) (hd : c.domain = none) :
    feed setting pools c domain pieces =
      feed setting pools { c with domain := some domain } domain pieces := by
  obtain ⟨data, later, rfl⟩ := List.exists_cons_of_ne_nil hn
  simp only [feed, io_unbound setting pools domain data hd]

/-- The same bytes have the same effect on a new connection, all at once or in pieces: output,
notices and outcome, and what is left where the connection goes on. Pieces that were found to
leave too long a request behind are the exception. No run of bytes is longer than a store. -/
theorem io_flatten_eq_feed {setting : Setting} {socket : SocketId} {c : Connection}
    {pools pools' : Pools} {pieces : List Bytes} (domain : String)
    (hc : create setting.config.limits socket = .ok c) (hp : pools.Keyed) (hp' : pools'.Keyed)
    (hn : pieces ≠ []) (hl : pieces.flatten.length ≤ Buffer.maxStore)
    (hr : ∀ limit,
      (feed setting pools c domain pieces).outcome ≠ .error (.requestTooLarge limit)) :
    (io setting pools' c domain pieces.flatten).output =
        (feed setting pools c domain pieces).output ∧
      (io setting pools' c domain pieces.flatten).notices =
        (feed setting pools c domain pieces).notices ∧
      (io setting pools' c domain pieces.flatten).outcome =
        (feed setting pools c domain pieces).outcome ∧
      ((feed setting pools c domain pieces).outcome = .ok .goOn →
        (io setting pools' c domain pieces.flatten).connection.protocol =
            (feed setting pools c domain pieces).connection.protocol ∧
          (io setting pools' c domain pieces.flatten).connection.buffer.content =
            (feed setting pools c domain pieces).connection.buffer.content) := by
  obtain ⟨hd, hb, he, hs⟩ := create_fresh hc
  have hl' : c.buffer.content.length + pieces.flatten.length ≤ Buffer.maxStore := by
    rw [he, List.length_nil, Nat.zero_add]
    exact hl
  rw [feed_unbound setting pools domain hn hd] at hr ⊢
  rw [io_unbound setting pools' domain pieces.flatten hd]
  have hf := feed_follows (c := { c with domain := some domain }) rfl hb hp hs hl'
  obtain ⟨hv, -⟩ :=
    io_follows (c := { c with domain := some domain }) pieces.flatten rfl hb hp' hs hl'
  generalize feed setting pools { c with domain := some domain } domain pieces = t at hr hf ⊢
  generalize io setting pools' { c with domain := some domain } domain pieces.flatten = t' at hv ⊢
  have hr' : ∀ limit, (Stream.feed setting { c with domain := some domain }.stream pieces).result ≠
      .error (.requestTooLarge limit) :=
    fun limit h => hr limit (Turn.outcome_of_error (hf ▸ h))
  have h : t'.verdict = t.verdict := by rw [hv, hf, Stream.io_flatten hn hr']
  obtain ⟨ho, hs⟩ := Turn.eq_of_verdict h
  exact ⟨congrArg Progress.output h, congrArg Progress.notices h, ho, fun hg =>
    ⟨congrArg Stream.protocol (hs hg), congrArg Stream.waiting (hs hg)⟩⟩

/-- A method that comes in two pieces. -/
theorem io_flatten_eq_feed_method :
    ∃ (setting : Setting) (c : Connection), create setting.config.limits ⟨1⟩ = .ok c ∧
      (feed setting (.empty 1) c "localhost" [[0x47, 0x45], [0x54]]).outcome = .ok .goOn ∧
      (io setting (.empty 1) c "localhost" [0x47, 0x45, 0x54]).connection.buffer.content =
        (feed setting (.empty 1) c "localhost"
          [[0x47, 0x45], [0x54]]).connection.buffer.content := by
  let setting : Setting := { config := { limits := { bufferSize := 2 } }, files := {} }
  let c : Connection :=
    { socket := ⟨1⟩, buffer := ⟨[0, 0], 0, some 65536⟩
      reassembly := { maxMessageSize := 67108864 } }
  let c₁ : Connection :=
    { c with domain := some "localhost", buffer := ⟨[0x47, 0x45], 2, some 65536⟩ }
  let c₂ : Connection :=
    { c₁ with buffer := ⟨[0x47, 0x45, 0x54], 3, some 65536⟩ }
  -- Both pieces are kept, since the method is not complete.
  have h₁ : io setting (.empty 1) c "localhost" [0x47, 0x45] =
      checkSize 1048576 { pop setting (.empty 1) c₁ with outcome := .ok .goOn } :=
    congrArg (checkSize 1048576) (drain_of_wait rfl)
  have h₂ : io setting (pop setting (.empty 1) c₁).pools c₁ "localhost" [0x54] =
      checkSize 1048576
        { pop setting (pop setting (.empty 1) c₁).pools c₂ with outcome := .ok .goOn } :=
    congrArg (checkSize 1048576) (drain_of_wait rfl)
  have hk₁ : (pop setting (.empty 1) c₁).connection = c₁ := by decide
  have hk₂ : (pop setting (pop setting (.empty 1) c₁).pools c₂).connection = c₂ := by
    decide
  have hc : create setting.config.limits ⟨1⟩ = .ok c := rfl
  have hf : (feed setting (.empty 1) c "localhost" [[0x47, 0x45], [0x54]]).outcome = .ok .goOn := by
    rw [feed, h₁, checkSize_of_short (by rw [hk₁]; decide)]
    dsimp only
    rw [hk₁, feed, h₂, checkSize_of_short (by rw [hk₂]; decide)]
    rfl
  have hr : ∀ limit, (feed setting (.empty 1) c "localhost" [[0x47, 0x45], [0x54]]).outcome ≠
      .error (.requestTooLarge limit) := by
    rw [hf]
    exact nofun
  have h := io_flatten_eq_feed "localhost" hc (Pools.keyed_empty 1) (Pools.keyed_empty 1)
    (by decide) (by decide) hr
  exact ⟨setting, c, hc, hf, (h.2.2.2 hf).2⟩

end Pieces

end Connection

end OriginServer
