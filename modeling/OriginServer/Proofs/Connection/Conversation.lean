import OriginServer.Proofs.Connection.Delivery
import OriginServer.Proofs.WebSocket.Client

namespace OriginServer

open OriginServer.Http OriginServer.WebSocket

section Frames

/-- The pongs that the pings among some frames ask for. -/
def pongs (frames : List ClientFrame) : List Output :=
  (frames.filter (·.opcode = .ping)).map fun f => .bytes (frameBytes .pong true f.payload none)

theorem pongs_append (a b : List ClientFrame) : pongs (a ++ b) = pongs a ++ pongs b := by
  rw [pongs, List.filter_append, List.map_append]
  rfl

theorem pongs_nil : pongs [] = [] := rfl

theorem pongs_of_ne {f : ClientFrame} (h : f.opcode ≠ .ping) : pongs [f] = [] := by
  rw [pongs, List.filter_singleton, decide_eq_false h]
  rfl

theorem Progress.behind_behind {α β γ : Type} (p : Progress α) (second : Progress β)
    (first : Progress γ) : (p.behind second).behind first = p.behind (second.behind first) := by
  simp only [behind, List.append_assoc]

namespace Stream

variable {setting : Setting} {s : Stream}

/-- The stream with other bytes to read. -/
def holding (s : Stream) (bytes : Bytes) : Stream := { s with waiting := bytes }

theorem pop_webSocket (hs : s.protocol = .webSocket) : pop setting s = popFrame setting s := by
  unfold pop
  rw [hs]

/-- A frame at the front is taken with its payload in the clear. -/
theorem pop_frame (hs : s.protocol = .webSocket) {f : ClientFrame}
    (hf : f.Readable setting.config.limits.maxFrameSize) (rest : Bytes) :
    ∃ span, pop setting (s.holding (f.bytes ++ rest)) =
      handleFrame (s.holding rest) ⟨f.fin, f.opcode, f.mask, span⟩ f.payload := by
  have hr := frame_complete f.mask hf.small hf.fits hf.control rest
  have hc := frame_content f.opcode f.fin f.payload f.mask rest
  refine ⟨⟨1 + (sizeBytes f.payload.length f.mask).length, f.payload.length⟩, ?_⟩
  have hp : pop setting (s.holding (f.bytes ++ rest)) = _ := pop_webSocket hs
  rw [hp, popFrame]
  dsimp only [holding, ClientFrame.bytes, ServerLimits.frameConfig]
  rw [hr]
  dsimp only
  rw [hc, masked_masked]

/-- Behind a frame that was answered the stream goes on. -/
theorem drain_frame (hs : s.protocol = .webSocket) {f : ClientFrame}
    (hf : f.Readable setting.config.limits.maxFrameSize) {rest : Bytes} {p : Progress Advance}
    {s' : Stream}
    (hh : ∀ span, handleFrame (s.holding rest) ⟨f.fin, f.opcode, f.mask, span⟩ f.payload = p)
    (hp : p.result = .next s') :
    drain setting (s.holding (f.bytes ++ rest)) = (drain setting s').behind p := by
  obtain ⟨span, hpop⟩ := pop_frame hs hf rest
  rw [hh span] at hpop
  rw [drain_of_next (hpop ▸ hp), hpop]

/-- Pings are answered, and pongs are passed over. -/
theorem drain_probes (hs : s.protocol = .webSocket) {probes : List Probe}
    (hf : ∀ f ∈ probes.map Probe.frame, f.Readable setting.config.limits.maxFrameSize)
    (rest : Bytes) :
    drain setting (s.holding (wireOf (probes.map Probe.frame) ++ rest)) =
      (drain setting (s.holding rest)).behind
        { output := pongs (probes.map Probe.frame), result := () } := by
  have handled (s : Stream) (p : Probe) (span : Span) :
      handleFrame s ⟨p.frame.fin, p.frame.opcode, p.frame.mask, span⟩ p.frame.payload =
        { output := pongs [p.frame], result := .next s } := by
    obtain ⟨asks, payload, small, mask⟩ := p
    cases asks <;> rfl
  induction probes with
  | nil => rfl
  | cons p probes ih =>
    obtain ⟨hp, hps⟩ := List.forall_mem_cons.1 hf
    have hw : wireOf ((p :: probes).map Probe.frame) ++ rest =
        p.frame.bytes ++ (wireOf (probes.map Probe.frame) ++ rest) :=
      List.append_assoc ..
    have ho : pongs ((p :: probes).map Probe.frame) =
        pongs [p.frame] ++ pongs (probes.map Probe.frame) :=
      pongs_append [p.frame] _
    rw [hw, ho, drain_frame hs hp (handled _ p) rfl, ih hps, Progress.behind_behind]
    rfl

end Stream

end Frames

section Messages

/-- The message that is open, by what its frames brought so far. -/
structure OpenMessage.Holds (m : OpenMessage) (maxSize : Nat) (payload : Bytes) (isOpen : Bool) :
    Prop where
  maxSize_eq : m.maxSize = maxSize
  payload_eq : m.payload = payload
  size_eq : m.size = payload.length
  last : m.last.leavesOpen = isOpen

/-- A frame in its place brings its payload, and the last one completes the message. -/
theorem OpenMessage.push_holds {m : OpenMessage} {maxSize : Nat} {payload content : Bytes}
    {found : Fragmentation} (hm : m.Holds maxSize payload found.needsOpen)
    (hs : (payload ++ content).length ≤ maxSize) :
    ∃ m', m.push found content =
        .ok (if found.leavesOpen then none else some (payload ++ content), m') ∧
      m'.Holds maxSize (if found.leavesOpen then payload ++ content else []) found.leavesOpen := by
  have hl : m.size + content.length = (payload ++ content).length := by
    rw [hm.size_eq, List.length_append]
  have hfollows : found.follows m.last = true := by
    rw [Fragmentation.follows, hm.last]
    exact beq_self_eq_true _
  have hsize := Nat.not_lt.2 hs
  cases hf : found.leavesOpen with
  | true =>
    refine ⟨{ m with
      payload := m.payload ++ content
      size := m.size + content.length
      last := found }, ?_, ⟨hm.maxSize_eq, ?_, hl, hf⟩⟩
    · simp only [push, hfollows, hf, hl, hm.maxSize_eq, Bool.not_true, Bool.false_eq_true, if_false,
        if_true, hsize]
    · exact congrArg (· ++ content) hm.payload_eq
  | false =>
    refine ⟨{ m with payload := [], size := 0, last := found }, ?_, ⟨hm.maxSize_eq, rfl, rfl, hf⟩⟩
    simp only [push, hfollows, hf, hl, hm.maxSize_eq, hm.payload_eq, Bool.not_true,
      Bool.false_eq_true, if_false, hsize]

theorem leavesOpen_of (fin : Bool) (opcode : Opcode) :
    (Fragmentation.of fin opcode).leavesOpen = !fin := by
  cases fin <;> cases opcode <;> rfl

namespace Stream

variable {setting : Setting} {s : Stream} {maxSize : Nat} {payload : Bytes}

/-- A data frame in its place, with its payload in the clear. -/
theorem handleFrame_data {opcode : Opcode} {fin : Bool} {content : Bytes}
    (ho : opcode.isControl = false)
    (hm : s.message.Holds maxSize payload (Fragmentation.of fin opcode).needsOpen)
    (hl : (payload ++ content).length ≤ maxSize) :
    ∃ m', m'.Holds maxSize (if fin then [] else payload ++ content) (!fin) ∧
      ∀ mask span, handleFrame s ⟨fin, opcode, mask, span⟩ content =
        { notices := if fin then Connection.deliver s.socket (payload ++ content) else []
          result := .next { s with message := m' } } := by
  obtain ⟨m', hp, hm'⟩ := OpenMessage.push_holds hm hl
  rw [leavesOpen_of] at hp hm'
  refine ⟨m', ?_, fun mask span => ?_⟩
  · cases fin <;> exact hm'
  · unfold handleFrame FrameHeader.fragmentation
    cases opcode <;> try cases ho
    all_goals
      dsimp only
      rw [hp]
      cases fin <;> rfl

/-- A piece of a message, in its place. -/
theorem drain_piece (hs : s.protocol = .webSocket) {p : Piece} {opcode : Opcode} {fin : Bool}
    (ho : opcode.isControl = false)
    (hm : s.message.Holds maxSize payload (Fragmentation.of fin opcode).needsOpen)
    (hl : (payload ++ p.content).length ≤ maxSize)
    (hf : ∀ f ∈ p.frames opcode fin, f.Readable setting.config.limits.maxFrameSize)
    (rest : Bytes) :
    ∃ m', m'.Holds maxSize (if fin then [] else payload ++ p.content) (!fin) ∧
      drain setting (s.holding (wireOf (p.frames opcode fin) ++ rest)) =
        (drain setting { s.holding rest with message := m' }).behind
          { output := pongs (p.frames opcode fin)
            notices := if fin then Connection.deliver s.socket (payload ++ p.content) else []
            result := () } := by
  obtain ⟨hprobes, hd⟩ := List.forall_mem_append.1 hf
  have hdata := List.forall_mem_singleton.1 hd
  obtain ⟨m', hm', hh⟩ := handleFrame_data (s := s.holding rest) ho hm hl
  refine ⟨m', hm', ?_⟩
  have hw : wireOf (p.frames opcode fin) ++ rest =
      wireOf (p.probes.map Probe.frame) ++
        ((⟨opcode, fin, p.content, p.mask⟩ : ClientFrame).bytes ++ rest) := by
    rw [Piece.frames, wireOf_append, List.append_assoc]
    simp only [wireOf, List.flatMap_singleton]
  have hpongs : pongs (p.frames opcode fin) = pongs (p.probes.map Probe.frame) := by
    rw [Piece.frames, pongs_append, pongs_of_ne, List.append_nil]
    rintro rfl
    cases ho
  rw [hw, drain_probes hs hprobes, drain_frame hs hdata (hh p.mask) rfl, Progress.behind_behind,
    hpongs]
  simp only [Progress.behind, List.append_nil, List.nil_append]
  rfl

/-- The pieces of a message from one on, the last of which completes it. -/
theorem drain_pieces (hs : s.protocol = .webSocket) {p : Piece} {opcode : Opcode}
    {later : List Piece} (ho : opcode.isControl = false)
    (hm : s.message.Holds maxSize payload (Fragmentation.of later.isEmpty opcode).needsOpen)
    (hl : (payload ++ p.content ++ later.flatMap (·.content)).length ≤ maxSize)
    (hf : ∀ f ∈ p.frames opcode later.isEmpty ++ continuations later,
      f.Readable setting.config.limits.maxFrameSize)
    (rest : Bytes) :
    ∃ m', m'.Holds maxSize [] false ∧
      drain setting
          (s.holding (wireOf (p.frames opcode later.isEmpty ++ continuations later) ++ rest)) =
        (drain setting { s.holding rest with message := m' }).behind
          { output := pongs (p.frames opcode later.isEmpty ++ continuations later)
            notices :=
              Connection.deliver s.socket (payload ++ p.content ++ later.flatMap (·.content))
            result := () } := by
  induction later generalizing s p opcode payload with
  | nil =>
    rw [continuations, List.append_nil] at hf ⊢
    rw [List.flatMap_nil, List.append_nil] at hl ⊢
    exact drain_piece hs ho hm hl hf rest
  | cons q later ih =>
    rw [List.flatMap_cons, ← List.append_assoc] at hl ⊢
    obtain ⟨hp, hps⟩ := List.forall_mem_append.1 hf
    have hlp : (payload ++ p.content).length ≤ maxSize := by
      rw [List.length_append, List.length_append] at hl
      omega
    obtain ⟨m₁, hm₁, hd₁⟩ :=
      drain_piece hs ho hm hlp hp (wireOf (continuations (q :: later)) ++ rest)
    -- The message stays open, and the next piece is the first of those that are left.
    have hneeds : (Fragmentation.of later.isEmpty .continuation).needsOpen = true := by
      cases later.isEmpty <;> rfl
    have hs₁ : { s with message := m₁ }.protocol = .webSocket := hs
    have hm₁ : m₁.Holds maxSize (payload ++ p.content) true := hm₁
    obtain ⟨m₂, hm₂, hd₂⟩ := ih hs₁ rfl (hneeds ▸ hm₁) hl hps
    have hd₂ : drain setting
        { s.holding (wireOf (continuations (q :: later)) ++ rest) with message := m₁ } = _ := hd₂
    refine ⟨m₂, hm₂, ?_⟩
    rw [wireOf_append, pongs_append, List.append_assoc, hd₁, hd₂, Progress.behind_behind]
    rfl

/-- A whole message is delivered, whatever pieces it came in. -/
theorem drain_message (hs : s.protocol = .webSocket) (hm : s.message.Holds maxSize [] false)
    {m : ClientMessage} (hl : m.payload.length ≤ maxSize)
    (hf : ∀ f ∈ m.frames, f.Readable setting.config.limits.maxFrameSize) (rest : Bytes) :
    ∃ m', m'.Holds maxSize [] false ∧
      drain setting (s.holding (wireOf m.frames ++ rest)) =
        (drain setting { s.holding rest with message := m' }).behind
          { output := pongs m.frames
            notices := Connection.deliver s.socket m.payload
            result := () } := by
  have hneeds : (Fragmentation.of m.later.isEmpty m.opcode).needsOpen = false := by
    rcases m.isData with h | h <;> rw [h] <;> cases m.later.isEmpty <;> rfl
  exact drain_pieces hs m.opcode_isControl (hneeds ▸ hm) hl hf rest

theorem drain_messages (hs : s.protocol = .webSocket) (hm : s.message.Holds maxSize [] false)
    {messages : List ClientMessage} (hl : ∀ m ∈ messages, m.payload.length ≤ maxSize)
    (hf : ∀ f ∈ messages.flatMap (·.frames), f.Readable setting.config.limits.maxFrameSize)
    (rest : Bytes) :
    ∃ m', m'.Holds maxSize [] false ∧
      drain setting (s.holding (wireOf (messages.flatMap (·.frames)) ++ rest)) =
        (drain setting { s.holding rest with message := m' }).behind
          { output := pongs (messages.flatMap (·.frames))
            notices := messages.flatMap fun m => Connection.deliver s.socket m.payload
            result := () } := by
  induction messages generalizing s with
  | nil => exact ⟨s.message, hm, rfl⟩
  | cons m messages ih =>
    obtain ⟨hlm, hlms⟩ := List.forall_mem_cons.1 hl
    rw [List.flatMap_cons] at hf ⊢
    obtain ⟨hfm, hfms⟩ := List.forall_mem_append.1 hf
    obtain ⟨m₁, hm₁, hd₁⟩ :=
      drain_message hs hm hlm hfm (wireOf (messages.flatMap (·.frames)) ++ rest)
    have hs₁ : { s with message := m₁ }.protocol = .webSocket := hs
    obtain ⟨m₂, hm₂, hd₂⟩ := ih hs₁ hm₁ hlms hfms
    have hd₂ : drain setting
        { s.holding (wireOf (messages.flatMap (·.frames)) ++ rest) with message := m₁ } = _ := hd₂
    refine ⟨m₂, hm₂, ?_⟩
    rw [wireOf_append, pongs_append, List.append_assoc, hd₁, hd₂, Progress.behind_behind]
    rfl

/-- The answer to a closing frame, behind which nothing is taken. -/
theorem drain_closing (hs : s.protocol = .webSocket) {k : Closing}
    (hf : k.frame.Readable setting.config.limits.maxFrameSize) (rest : Bytes) :
    drain setting (s.holding (k.frame.bytes ++ rest)) =
      { output := [.bytes (frameBytes .close true (k.payload.take 2) none)]
        result := .close } := by
  obtain ⟨span, hp⟩ := pop_frame hs hf rest
  have hc : (pop setting (s.holding (k.frame.bytes ++ rest))).result = .close :=
    congrArg Progress.result hp
  rw [drain_of_close hc, hp]
  rfl

/-- What a whole conversation comes to. -/
theorem drain_conversation (hs : s.protocol = .webSocket) (hm : s.message.Holds maxSize [] false)
    {c : Conversation} (hl : ∀ m ∈ c.messages, m.payload.length ≤ maxSize)
    (hf : ∀ f ∈ c.frames, f.Readable setting.config.limits.maxFrameSize) :
    ∃ m', m'.Holds maxSize [] false ∧
      drain setting (s.holding c.wire) =
        { output := pongs c.frames ++ c.closing.toList.map fun k =>
            .bytes (frameBytes .close true (k.payload.take 2) none)
          notices := c.messages.flatMap fun m => Connection.deliver s.socket m.payload
          result :=
            if c.closing.isSome then .close else .goOn { s.holding [] with message := m' } } := by
  obtain ⟨hmp, hk⟩ := List.forall_mem_append.1 hf
  obtain ⟨hms, hps⟩ := List.forall_mem_append.1 hmp
  obtain ⟨messages, probes, closing⟩ := c
  let rest := wireOf (closing.toList.map Closing.frame) ++ closing.toList.flatMap (·.behind)
  obtain ⟨m', hm', hd⟩ := drain_messages hs hm hl hms (wireOf (probes.map Probe.frame) ++ rest)
  have hs' : { s with message := m' }.protocol = .webSocket := hs
  have hp : drain setting
      { s.holding (wireOf (probes.map Probe.frame) ++ rest) with message := m' } = _ :=
    drain_probes hs' hps rest
  have hw : Conversation.wire ⟨messages, probes, closing⟩ =
      wireOf (messages.flatMap (·.frames)) ++ (wireOf (probes.map Probe.frame) ++ rest) := by
    simp only [Conversation.wire, Conversation.frames, wireOf_append, List.append_assoc, rest]
  refine ⟨m', hm', ?_⟩
  rw [hw, hd, hp, Conversation.frames, pongs_append, pongs_append]
  cases closing with
  | none =>
    have hn : drain setting ({ s with message := m' }.holding rest) = _ :=
      drain_of_wait (pop_nil rfl)
    rw [hn]
    simp only [Progress.behind, Option.toList_none, List.map_nil, pongs_nil, List.append_nil]
    rfl
  | some k =>
    have hr : rest = k.frame.bytes ++ k.behind := by
      simp only [rest, wireOf, Option.toList_some, List.map_cons, List.map_nil,
        List.flatMap_singleton]
    have hk : drain setting ({ s with message := m' }.holding rest) = _ :=
      hr ▸ drain_closing hs' (List.forall_mem_singleton.1 hk) k.behind
    have hne : k.frame.opcode ≠ .ping := by
      show Opcode.close ≠ .ping
      decide
    have hn : pongs [k.frame] = [] := pongs_of_ne hne
    rw [hk]
    simp only [Progress.behind, Option.toList_some, List.map_cons, List.map_nil, hn,
      List.append_nil, List.append_assoc]
    rfl

end Stream

end Messages

section Calls

namespace Stream

variable {setting : Setting} {s : Stream}

theorem next_webSocket {s' : Stream} (hs : s.protocol = .webSocket)
    (h : (pop setting s).result = .next s') : s'.protocol = .webSocket := by
  rw [pop_webSocket hs] at h
  unfold popFrame at h
  split at h
  · cases h
  · cases h
  · unfold handleFrame at h
    split at h
    · cases h
      exact hs
    · cases h
      exact hs
    · cases h
    · split at h <;> cases h <;> exact hs

/-- A WebSocket stays one, and where it goes on nothing more can be taken. -/
theorem drain_goOn {s' : Stream} (hs : s.protocol = .webSocket)
    (h : (drain setting s).result = .goOn s') :
    s'.protocol = .webSocket ∧ (pop setting s').result = .wait := by
  fun_induction drain setting s with
  | case1 s hr =>
    cases h
    exact ⟨hs, hr⟩
  | case2 s hr => cases h
  | case3 s cause hr => cases h
  | case4 s s₁ hr ih => exact ih (next_webSocket hs hr) h

/-- Pieces that come for a WebSocket come to the same as all their bytes. -/
theorem feed_webSocket (hs : s.protocol = .webSocket) (hw : (pop setting s).result = .wait)
    (pieces : List Bytes) : feed setting s pieces = drain setting (s.append pieces.flatten) := by
  induction pieces generalizing s with
  | nil =>
    have ha : s.append [] = s := by rw [append, List.append_nil]
    rw [feed, List.flatten_nil, ha, drain_of_wait hw]
  | cons data later ih =>
    have hsd : (s.append data).protocol = .webSocket := hs
    rw [List.flatten_cons, ← append_append, drain_append (s.append data), feed, io]
    unfold Progress.checkSize Progress.andThen
    cases hr : (drain setting (s.append data)).result with
    | goOn s' =>
      obtain ⟨hs', hw'⟩ := drain_goOn hsd hr
      have hn : ¬ (s'.protocol = .http ∧
          setting.config.limits.maxRequestSize < s'.waiting.length) := by
        rintro ⟨h, -⟩
        cases hs'.symm.trans h
      dsimp only
      rw [if_neg hn, hr]
      exact congrArg (Progress.behind · _) (ih hs' hw')
    | close => simp only [hr]
    | error cause => simp only [hr]

end Stream

namespace Connection

variable {setting : Setting} {pools : Pools} {c : Connection} {domain : String}

/-- A WebSocket that has nothing to read and no message open. -/
structure AtRest (c : Connection) (maxSize : Nat) : Prop where
  protocol : c.protocol = .webSocket
  sound : c.buffer.Sound
  pending : c.buffer.content = []
  message : c.reassembly.message.Holds maxSize [] false

/-- A new connection is at rest when the request that made it a WebSocket is answered. -/
theorem atRest_of_upgrade {socket : SocketId} {data : Bytes} {parts : Parts} {reply : Reply}
    (hc : create setting.config.limits socket = .ok c) (hp : pools.Keyed)
    (hm : setting.config.limits.messageConfig.hasSlots = true)
    (hl : data.length ≤ Buffer.maxStore)
    (hr : readMessage setting.config.limits.messageConfig.limits data =
      (parts, .done () ⟨data.length, []⟩))
    (ha : Reply.toMessage setting domain (Stream.request setting data parts) = .ok reply)
    (hu : reply.upgrades = true) :
    (io setting pools c domain data).outcome = .ok .goOn ∧
      (io setting pools c domain data).pools.Keyed ∧
      (io setting pools c domain data).connection.AtRest
        setting.config.limits.maxMessageSize ∧
      (io setting pools c domain data).connection.bind domain =
        .ok (io setting pools c domain data).connection := by
  obtain ⟨hn, hb, he, hs⟩ := create_fresh hc
  have hfresh : c.protocol = .http ∧ c.reassembly.message.Holds
      setting.config.limits.maxMessageSize [] false := by
    obtain ⟨b, -, hcreate⟩ := bind_eq_ok.1 hc
    cases hcreate
    exact ⟨rfl, rfl, rfl, rfl, rfl⟩
  rw [io_unbound setting pools domain data hn]
  let bound : Connection := { c with domain := some domain }
  let s : Stream := bound.stream.append data
  have hw : s.waiting = data := congrArg (· ++ data) he
  let s' : Stream := { s with waiting := [], protocol := .webSocket }
  have hpop : (Stream.pop setting s).result = .next s' := by
    have hsp : s.protocol = .http := hfresh.1
    have hsd : s.domain = domain := rfl
    unfold Stream.pop
    rw [hsp]
    dsimp only
    rw [Stream.popRequest_eq hm]
    simp only [Stream.readRequest, hw, hr, hsd, ha, Stream.accept, hu, if_true, s']
  have hdrain : Stream.drain setting s = _ :=
    (Stream.drain_of_next hpop).trans
      (congrArg (Progress.behind · _) (Stream.drain_of_wait (Stream.pop_nil rfl)))
  have hl' : bound.buffer.content.length + data.length ≤ Buffer.maxStore := by
    rw [show bound.buffer.content = [] from he, List.length_nil, Nat.zero_add]
    exact hl
  obtain ⟨hv, hk⟩ := io_follows (c := bound) data rfl hb hp hs hl'
  rw [Stream.io, hdrain] at hv
  have hres : (io setting pools bound domain data).verdict.result = .goOn s' := by
    rw [hv]
    rfl
  obtain ⟨ho, hstream⟩ := Turn.outcome_of_goOn hres
  refine ⟨ho, hk.pools, ⟨congrArg Stream.protocol hstream, hk.buffer,
    congrArg Stream.waiting hstream, ?_⟩, bind_bound hk.domain⟩
  have hmessage : (io setting pools bound domain data).connection.reassembly.message =
    c.reassembly.message := congrArg Stream.message hstream
  rw [hmessage]
  exact hfresh.2

/-- What a client says to a WebSocket at rest. Every message that is an event is noticed, in order
and whatever frames it came in. Every ping is answered in order, and so is a closing frame, which
ends the connection. What comes behind it has no effect. -/
theorem conversation_noticed {k : Conversation} {pieces : List Bytes}
    (hd : c.bind domain = .ok c) (hc : c.AtRest setting.config.limits.maxMessageSize)
    (hp : pools.Keyed) (hs : setting.config.limits.bufferSize ≤ Buffer.maxStore)
    (hl : k.wire.length ≤ Buffer.maxStore)
    (hf : ∀ f ∈ k.frames, f.payload.length ≤ setting.config.limits.maxFrameSize)
    (hm : ∀ m ∈ k.messages, m.payload.length ≤ setting.config.limits.maxMessageSize)
    (hw : pieces.flatten = k.wire) :
    (feed setting pools c domain pieces).output =
        pongs k.frames ++ k.closing.toList.map (fun closing =>
          .bytes (frameBytes .close true (closing.payload.take 2) none)) ∧
      (feed setting pools c domain pieces).notices =
        k.messages.filterMap (fun m => (Event.read? m.payload).map (Notice.event c.socket)) ∧
      (feed setting pools c domain pieces).outcome =
        .ok (if k.closing.isSome then .close else .goOn) := by
  have hl' : c.buffer.content.length + pieces.flatten.length ≤ Buffer.maxStore := by
    rw [hc.pending, hw, List.length_nil, Nat.zero_add]
    exact hl
  have hv := feed_follows_of_bind hd hc.sound hp hs hl'
  have hprot : c.stream.protocol = .webSocket := hc.protocol
  have hwait : (Stream.pop setting c.stream).result = .wait := Stream.pop_nil hc.pending
  obtain ⟨m', -, hdrain⟩ := Stream.drain_conversation hprot hc.message hm (k.readable hl hf)
  have ha : c.stream.append pieces.flatten = c.stream.holding k.wire := by
    rw [hw, Stream.append, Stream.holding]
    have hnil : c.stream.waiting = [] := hc.pending
    rw [hnil, List.nil_append]
  rw [Stream.feed_webSocket hprot hwait, ha, hdrain] at hv
  refine ⟨congrArg Progress.output hv, ?_, ?_⟩
  · rw [List.filterMap_eq_flatMap_toList]
    exact congrArg Progress.notices hv
  · have hres := congrArg Progress.result hv
    cases hk : k.closing.isSome with
    | true =>
      rw [hk] at hres
      exact Turn.outcome_of_close hres
    | false =>
      rw [hk] at hres
      exact (Turn.outcome_of_goOn hres).1

/-- An event in two pieces with a ping between them, a message that is no event, and a closing
frame with a byte behind it. -/
theorem conversation_noticed_event :
    ∃ (setting : Setting) (c : Connection) (k : Conversation),
      k.messages.length = 2 ∧
      (feed setting (.empty 1) c "localhost" [k.wire]).output =
        [.bytes (frameBytes .pong true [0x70] none),
          .bytes (frameBytes .close true [0x03, 0xe8] none)] ∧
      (feed setting (.empty 1) c "localhost" [k.wire]).notices.length = 1 ∧
      (feed setting (.empty 1) c "localhost" [k.wire]).outcome = .ok .close := by
  let setting : Setting := { config := {}, files := {} }
  let c : Connection :=
    { socket := ⟨1⟩, domain := some "localhost", protocol := .webSocket, buffer := {}
      reassembly := { maxMessageSize := 67108864 } }
  let key : MaskKey := ⟨0x11, 0x22, 0x33, 0x44⟩
  let ping : Probe := { asks := true, payload := [0x70], small := by decide, mask := some key }
  let event : ClientMessage :=
    { opcode := .text
      isData := .inl rfl
      first := ⟨[], Bytes.ofText "\x7b\"event\":", none⟩
      later := [⟨[ping], Bytes.ofText "\"a\"\x7d", some key⟩] }
  let other : ClientMessage :=
    { opcode := .binary, isData := .inr rfl, first := ⟨[], [0x78], some key⟩, later := [] }
  let closing : Closing :=
    { payload := [0x03, 0xe8, 0x21], small := by decide, mask := some key, behind := [0x00] }
  let k : Conversation := { messages := [event, other], probes := [], closing := some closing }
  have hc : c.AtRest setting.config.limits.maxMessageSize :=
    ⟨rfl, Buffer.sound_empty none, rfl, rfl, rfl, rfl, rfl⟩
  have hl : k.wire.length ≤ Buffer.maxStore := by decide
  have hf : ∀ f ∈ k.frames, f.payload.length ≤ setting.config.limits.maxFrameSize := by
    decide
  have hm : ∀ m ∈ k.messages, m.payload.length ≤ setting.config.limits.maxMessageSize := by
    decide
  have hw : [k.wire].flatten = k.wire := List.flatten_singleton
  have hd : c.bind "localhost" = .ok c := bind_bound rfl
  obtain ⟨ho, hn, hr⟩ := conversation_noticed hd hc (Pools.keyed_empty 1) (by decide) hl hf hm hw
  refine ⟨setting, c, k, rfl, ho, ?_, hr⟩
  rw [hn, List.length_filterMap_eq_countP]
  decide +kernel

end Connection

end Calls

end OriginServer
