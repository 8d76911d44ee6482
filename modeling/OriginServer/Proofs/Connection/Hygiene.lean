import OriginServer.Proofs.Connection.Delivery

namespace OriginServer

open OriginServer.Http OriginServer.WebSocket

/-- The most bytes that an idle object keeps in store. -/
def ServerLimits.keptStore (l : ServerLimits) : Nat := max l.recacheThreshold l.bufferSize

section Objects

/-- A message as good as a new one, with a blank buffer. -/
structure Http.StoredMessage.Clean (T : Nat) (k : MessageConfig) (m : StoredMessage) : Prop where
  config_eq : m.config = k
  new : ∃ new, StoredMessage.create k = .ok new ∧ m = { new with buffer := m.buffer }
  blank : m.buffer.Blank T

/-- A frame as good as a new one, with a blank buffer. -/
structure WebSocket.StoredFrame.Clean (T : Nat) (k : FrameConfig) (f : StoredFrame) : Prop where
  config_eq : f.config = k
  new : ∃ new, StoredFrame.create k = .ok new ∧ f = { new with buffer := f.buffer }
  blank : f.buffer.Blank T

variable {T : Nat}

theorem Http.StoredMessage.clean_clear {m : StoredMessage}
    (hr : m.config.bufferSize ≤ Buffer.maxStore) (hs : m.config.hasSlots = true)
    (hb : m.buffer.clear.Blank T) : m.clear.Clean T m.config := by
  obtain ⟨b, hcreate⟩ := Buffer.withCapacity_complete hr
  exact ⟨rfl, ⟨_, create_eq_ok.2 ⟨hs, b, hcreate, rfl⟩, rfl⟩, hb⟩

theorem Http.StoredMessage.Clean.hasSlots {k : MessageConfig} {m : StoredMessage}
    (h : m.Clean T k) : k.hasSlots = true := by
  obtain ⟨new, hnew, -⟩ := h.new
  exact (create_eq_ok.1 hnew).1

theorem WebSocket.StoredFrame.clean_clear {f : StoredFrame}
    (hr : f.config.bufferSize ≤ Buffer.maxStore) (hb : f.buffer.clear.Blank T) :
    f.clear.Clean T f.config := by
  obtain ⟨b, hcreate⟩ := Buffer.withCapacity_complete hr
  exact ⟨rfl, ⟨_, bind_eq_ok.2 ⟨b, hcreate, rfl⟩, rfl⟩, hb⟩

theorem Http.StoredMessage.clean_create {k : MessageConfig} {m : StoredMessage}
    (h : StoredMessage.create k = .ok m) : m.Clean (max k.recacheThreshold k.bufferSize) k := by
  obtain ⟨-, b, hb, rfl⟩ := create_eq_ok.1 h
  have hblank := (Buffer.withCapacity_blank hb (Nat.le_max_right k.recacheThreshold _)).1
  exact ⟨rfl, ⟨_, h, rfl⟩, hblank⟩

theorem WebSocket.StoredFrame.clean_create {k : FrameConfig} {f : StoredFrame}
    (h : StoredFrame.create k = .ok f) : f.Clean (max k.recacheThreshold k.bufferSize) k := by
  obtain ⟨b, hb, hf⟩ := bind_eq_ok.1 h
  have hblank := (Buffer.withCapacity_blank hb (Nat.le_max_right k.recacheThreshold _)).1
  cases hf
  exact ⟨rfl, ⟨_, h, rfl⟩, hblank⟩

/-- Reading keeps the buffer tidy, also where the chunks of a body are moved together. -/
theorem Http.StoredMessage.tidy_read {m : StoredMessage} (h : m.buffer.Tidy T) :
    m.read.2.buffer.Tidy T := by
  cases hread : readMessage m.config.limits m.buffer.content with
  | mk parts outcome =>
    simp only [read, hread]
    cases outcome with
    | more => exact h
    | fail cause => exact h
    | done u next =>
      dsimp only
      split
      · rename_i hf
        obtain ⟨stop, -, -, hc⟩ := readMessage_places hread
        obtain ⟨hstart, hchain⟩ := hc hf
        have hl := readMessage_pos_le hread
        obtain ⟨hlen, -, -⟩ := compact_frame hchain (Nat.le_of_eq hstart) hl
        exact h.modify (f := fun _ => (compact parts.body.start m.buffer.content parts.chunks).1)
          hlen
      · exact h

/-- Taking the mask off keeps the buffer tidy. -/
theorem WebSocket.StoredFrame.tidy_unmask {f : StoredFrame} (h : f.buffer.Tidy T) :
    f.unmask.buffer.Tidy T := by
  unfold unmask
  split
  · exact h.modify (maskSpan_length _ _ _)
  · exact h

theorem WebSocket.StoredFrame.config_read (f : StoredFrame) : f.read.2.config = f.config := by
  unfold read
  split <;> rfl

theorem WebSocket.StoredFrame.config_unmask (f : StoredFrame) : f.unmask.config = f.config := by
  unfold unmask
  split <;> rfl

end Objects

/-- The pools of a server with these limits, all of their objects clean. -/
structure Pools.Clean (l : ServerLimits) (p : Pools) : Prop where
  messages : p.messages.All l.poolCapacity (StoredMessage.Clean l.keptStore)
  frames : p.frames.All l.poolCapacity (StoredFrame.Clean l.keptStore)

/-- A frame that is clean once it is cleared. -/
structure WebSocket.StoredFrame.Fit (l : ServerLimits) (f : StoredFrame) : Prop where
  config_eq : f.config = l.frameConfig
  clears : f.buffer.clear.Blank l.keptStore

/-- A connection whose buffer can go to a frame, and that holds fit frames. -/
structure Connection.Neat (l : ServerLimits) (c : Connection) : Prop where
  buffer : c.buffer.Tidy l.keptStore
  frames : ∀ f ∈ c.reassembly.frames, f.Fit l

/-- A turn leaves clean pools, and its connection neat unless it failed. -/
structure Turn.Cleans {α : Type} (l : ServerLimits) (t : Turn α) : Prop where
  pools : t.pools.Clean l
  frames : ∀ f ∈ t.connection.reassembly.frames, f.Fit l
  buffer : (∀ cause, t.outcome ≠ .error cause) → t.connection.buffer.Tidy l.keptStore

namespace Pools

variable {l : ServerLimits} {p : Pools}

theorem clean_empty (l : ServerLimits) : (empty l.poolCapacity).Clean l :=
  ⟨Pool.all_empty _ _, Pool.all_empty _ _⟩

theorem Clean.putMessage (h : p.Clean l) (hr : l.bufferSize ≤ Buffer.maxStore)
    (hs : l.messageConfig.hasSlots = true) {m : StoredMessage} (hc : m.config = l.messageConfig)
    (hb : m.buffer.clear.Blank l.keptStore) : (p.putMessage m).Clean l := by
  have hr' : m.config.bufferSize ≤ Buffer.maxStore := by rwa [hc]
  have hs' : m.config.hasSlots = true := by rwa [hc]
  exact ⟨h.messages.put (StoredMessage.clean_clear hr' hs' hb), h.frames⟩

theorem Clean.putFrame (h : p.Clean l) (hr : l.bufferSize ≤ Buffer.maxStore) {f : StoredFrame}
    (hf : f.Fit l) : (p.putFrame f).Clean l := by
  have hr' : f.config.bufferSize ≤ Buffer.maxStore := by rwa [hf.config_eq]
  exact ⟨h.messages, h.frames.put (StoredFrame.clean_clear hr' hf.clears)⟩

theorem Clean.putFrames (h : p.Clean l) (hr : l.bufferSize ≤ Buffer.maxStore)
    {fs : List StoredFrame} (hf : ∀ f ∈ fs, f.Fit l) : (fs.foldl Pools.putFrame p).Clean l := by
  induction fs generalizing p with
  | nil => exact h
  | cons f fs ih =>
    obtain ⟨hfirst, hlater⟩ := List.forall_mem_cons.1 hf
    exact ih (h.putFrame hr hfirst) hlater

theorem Clean.get_message (h : p.Clean l) :
    (∀ m, (p.messages.get l.messageConfig).1 = some m →
      m.Clean l.keptStore l.messageConfig) ∧
      Clean l { p with messages := (p.messages.get l.messageConfig).2 } := by
  have hnew : ∀ m : StoredMessage, Recyclable.create l.messageConfig = some m →
      m.Clean l.keptStore l.messageConfig := by
    intro m hm
    cases hc : StoredMessage.create l.messageConfig with
    | error cause => cases (congrArg Except.toOption hc).symm.trans hm
    | ok new =>
      cases (congrArg Except.toOption hc).symm.trans hm
      exact StoredMessage.clean_create hc
  obtain ⟨hget, hrest⟩ := h.messages.get hnew
  exact ⟨hget, hrest, h.frames⟩

theorem Clean.get_frame (h : p.Clean l) :
    (∀ f, (p.frames.get l.frameConfig).1 = some f → f.Clean l.keptStore l.frameConfig) ∧
      Clean l { p with frames := (p.frames.get l.frameConfig).2 } := by
  have hnew : ∀ f : StoredFrame, Recyclable.create l.frameConfig = some f →
      f.Clean l.keptStore l.frameConfig := by
    intro f hf
    cases hc : StoredFrame.create l.frameConfig with
    | error cause => cases (congrArg Except.toOption hc).symm.trans hf
    | ok new =>
      cases (congrArg Except.toOption hc).symm.trans hf
      exact StoredFrame.clean_create hc
  obtain ⟨hget, hrest⟩ := h.frames.get hnew
  exact ⟨hget, h.messages, hrest⟩

end Pools

theorem WebSocket.Reassembly.push_frames (r : Reassembly) (f : StoredFrame) :
    (∃ cause, (r.push f).1 = .error cause ∧ (r.push f).2.frames = r.frames) ∨
      ((r.push f).1 = .ok none ∧ (r.push f).2.frames = r.frames ++ [f]) ∨
      ∃ m, (r.push f).1 = .ok (some m) ∧ (r.push f).2.frames = [] ∧ m.spent = r.frames ++ [f] := by
  unfold push
  dsimp only
  split
  · exact .inl ⟨_, rfl, rfl⟩
  · split
    · exact .inl ⟨_, rfl, rfl⟩
    · split
      · exact .inr (.inl ⟨rfl, rfl⟩)
      · exact .inr (.inr ⟨_, rfl, rfl, rfl⟩)

namespace Connection

variable {setting : Setting} {l : ServerLimits} {pools : Pools} {c : Connection}

section Frames

theorem handleFrame_cleans (hp : pools.Clean l) (hr : l.bufferSize ≤ Buffer.maxStore)
    (hc : c.Neat l) {f : StoredFrame} (hf : f.Fit l) : (handleFrame pools c f).Cleans l := by
  unfold handleFrame
  split
  · exact ⟨hp.putFrame hr hf, hc.frames, fun _ => hc.buffer⟩
  · exact ⟨hp.putFrame hr hf, hc.frames, fun _ => hc.buffer⟩
  · exact ⟨hp.putFrame hr hf, hc.frames, fun _ => hc.buffer⟩
  · have hall : ∀ g ∈ c.reassembly.frames ++ [f], g.Fit l :=
      List.forall_mem_append.2 ⟨hc.frames, List.forall_mem_singleton.2 hf⟩
    obtain ⟨cause, ha, hfs⟩ | ⟨ha, hfs⟩ | ⟨m, ha, hfs, hspent⟩ := c.reassembly.push_frames f
    · rw [← Prod.eta (c.reassembly.push f), ha]
      exact ⟨hp, hfs ▸ hc.frames, fun _ => hc.buffer⟩
    · rw [← Prod.eta (c.reassembly.push f), ha]
      exact ⟨hp, hfs ▸ hall, fun _ => hc.buffer⟩
    · rw [← Prod.eta (c.reassembly.push f), ha]
      refine ⟨hp.putFrames hr (hspent ▸ hall), ?_, fun _ => hc.buffer⟩
      rw [hfs]
      exact List.forall_mem_nil _

/-- A frame that was read takes its bytes along, and gives the rest back. -/
theorem concludeFrame_cleans (hp : pools.Clean l) (hr : l.bufferSize ≤ Buffer.maxStore)
    (hc : c.Neat l) {f : StoredFrame} {spare : Buffer} (hconfig : f.config = l.frameConfig)
    (hbuffer : f.buffer = c.buffer) (hspare : spare.Blank l.keptStore) :
    (concludeFrame pools c spare f.read.2 f.read.1).Cleans l := by
  have hb : f.read.2.buffer.Tidy l.keptStore := by
    rw [StoredFrame.buffer_read, hbuffer]
    exact hc.buffer
  have hconfig' : f.read.2.config = l.frameConfig := by
    rw [StoredFrame.config_read, hconfig]
  have hfit : (f.read.2.withBuffer spare).Fit l := ⟨hconfig', hspare.clear⟩
  cases ho : f.read.1 with
  | more => exact ⟨hp.putFrame hr hfit, hc.frames, fun _ => hb⟩
  | fail cause => exact ⟨hp.putFrame hr hfit, hc.frames, fun h => absurd rfl (h _)⟩
  | done u next =>
    unfold concludeFrame
    dsimp only
    split
    · exact ⟨hp, hc.frames, fun h => absurd rfl (h _)⟩
    · rename_i kept rest hs
      obtain ⟨rfl, -, hkept, hrest⟩ := hb.shiftTrailing hs
      have htidy := StoredFrame.tidy_unmask (f := { f.read.2 with
        buffer := f.read.2.buffer.truncate next.pos }) hkept
      refine handleFrame_cleans (c := { c with buffer := rest }) hp hr ⟨hrest, hc.frames⟩ ⟨?_, ?_⟩
      · rw [StoredFrame.config_unmask]
        exact hconfig'
      · exact htidy.clear

theorem popFrame_cleans (hp : pools.Clean setting.config.limits)
    (hr : setting.config.limits.bufferSize ≤ Buffer.maxStore)
    (hc : c.Neat setting.config.limits) :
    (popFrame setting pools c).Cleans setting.config.limits := by
  obtain ⟨hget, hrest⟩ := hp.get_frame
  unfold popFrame
  split
  · rename_i frames hg
    rw [hg] at hrest
    exact ⟨hrest, hc.frames, fun h => absurd rfl (h _)⟩
  · rename_i f frames hg
    rw [hg] at hget hrest
    have hf := hget f rfl
    exact concludeFrame_cleans hrest hr hc hf.config_eq rfl hf.blank

end Frames

section Requests

theorem conclude_cleans {input : Buffer} (hp : pools.Clean l) (hc : c.Neat l)
    (hi : input.Tidy l.keptStore) (reply : Except ConnectionError (Option (Reply × Nat))) :
    (conclude c pools input reply).Cleans l := by
  unfold conclude
  split
  · exact ⟨hp, hc.frames, fun h => absurd rfl (h _)⟩
  · exact ⟨hp, hc.frames, fun _ => hi⟩
  · split
    · exact ⟨hp, hc.frames, fun h => absurd rfl (h _)⟩
    · rename_i kept rest hs
      exact ⟨hp, hc.frames, fun _ => (hi.shiftTrailing hs).2.2.2⟩

theorem popRequest_cleans (hp : pools.Clean setting.config.limits)
    (hr : setting.config.limits.bufferSize ≤ Buffer.maxStore)
    (hc : c.Neat setting.config.limits) :
    (popRequest setting pools c).Cleans setting.config.limits := by
  obtain ⟨hget, hrest⟩ := hp.get_message
  unfold popRequest
  split
  · rename_i messages hg
    rw [hg] at hrest
    exact ⟨hrest, hc.frames, fun h => absurd rfl (h _)⟩
  · rename_i m messages hg
    rw [hg] at hget hrest
    have hm := hget m rfl
    have hconfig : ((m.withBuffer c.buffer).read.2.withBuffer m.buffer).config =
        setting.config.limits.messageConfig :=
      (StoredMessage.config_read _).trans hm.config_eq
    have hread : (m.withBuffer c.buffer).read.2.buffer.Tidy setting.config.limits.keptStore :=
      StoredMessage.tidy_read hc.buffer
    exact conclude_cleans (hrest.putMessage hr hm.hasSlots hconfig hm.blank.clear) hc hread _

end Requests

section Calls

theorem pop_cleans (hp : pools.Clean setting.config.limits)
    (hr : setting.config.limits.bufferSize ≤ Buffer.maxStore)
    (hc : c.Neat setting.config.limits) :
    (pop setting pools c).Cleans setting.config.limits := by
  unfold pop
  split
  · exact ⟨hp, hc.frames, fun _ => hc.buffer⟩
  · split
    · exact popRequest_cleans hp hr hc
    · exact popFrame_cleans hp hr hc

theorem drain_cleans (hp : pools.Clean setting.config.limits)
    (hr : setting.config.limits.bufferSize ≤ Buffer.maxStore)
    (hc : c.Neat setting.config.limits) :
    (drain setting pools c).Cleans setting.config.limits := by
  fun_induction drain setting pools c with
  | case1 pools c cause h =>
    obtain ⟨hpools, hframes, -⟩ := pop_cleans hp hr hc
    exact ⟨hpools, hframes, fun h => absurd rfl (h _)⟩
  | case2 pools c h =>
    obtain ⟨hpools, hframes, hbuffer⟩ := pop_cleans hp hr hc
    exact ⟨hpools, hframes, fun _ => hbuffer fun cause hc => by cases h.symm.trans hc⟩
  | case3 pools c h =>
    obtain ⟨hpools, hframes, hbuffer⟩ := pop_cleans hp hr hc
    exact ⟨hpools, hframes, fun _ => hbuffer fun cause hc => by cases h.symm.trans hc⟩
  | case4 pools c h first rest ih =>
    obtain ⟨hpools, hframes, hbuffer⟩ := pop_cleans hp hr hc
    obtain ⟨hpools', hframes', hbuffer'⟩ :=
      ih hpools ⟨hbuffer (fun cause hc => by cases h.symm.trans hc), hframes⟩
    exact ⟨hpools', hframes', hbuffer'⟩

theorem checkSize_cleans {t : Turn Flow} (limit : Nat) (h : t.Cleans l) :
    (checkSize limit t).Cleans l := by
  unfold checkSize
  split
  · split
    · exact ⟨h.pools, h.frames, fun ho => absurd rfl (ho _)⟩
    · exact h
  · exact h

/-- A call leaves clean pools behind, and a neat connection unless it fails. -/
theorem io_cleans (hp : pools.Clean setting.config.limits)
    (hr : setting.config.limits.bufferSize ≤ Buffer.maxStore)
    (hc : c.Neat setting.config.limits) (domain : String) (data : Bytes) :
    (io setting pools c domain data).Cleans setting.config.limits := by
  obtain ⟨cause, -, hio⟩ | ⟨bound, hbind, hcases⟩ := io_cases setting pools c domain data
  · rw [hio]
    exact ⟨hp, hc.frames, fun h => absurd rfl (h _)⟩
  · obtain ⟨-, name, rfl⟩ := bind_complete hbind
    obtain ⟨cause, -, hio⟩ | ⟨buffer, hpush, hio⟩ := hcases
    · rw [hio]
      exact ⟨hp, hc.frames, fun h => absurd rfl (h _)⟩
    · have hneat : Neat setting.config.limits { c with domain := some name, buffer } :=
        ⟨hc.buffer.push hpush, hc.frames⟩
      rw [hio]
      exact checkSize_cleans _ (drain_cleans hp hr hneat)

theorem neat_create {socket : SocketId} (h : create l socket = .ok c) : c.Neat l := by
  obtain ⟨b, hb, hc⟩ := bind_eq_ok.1 h
  have htidy := (Buffer.withCapacity_blank hb (Nat.le_max_right l.recacheThreshold _)).2
  cases hc
  exact ⟨htidy, List.forall_mem_nil _⟩

end Calls

end Connection

end OriginServer
