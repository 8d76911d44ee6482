import OriginServer.Proofs.WebSocket.StoredFrame
import OriginServer.WebSocket.Frame
import OriginServer.WebSocket.Reassembly

namespace OriginServer.WebSocket

/-- The input in a buffer, to be read as a frame. -/
def StoredFrame.holding (config : FrameConfig) (input : Bytes) : StoredFrame :=
  { config, buffer := ⟨input, input.length, none⟩ }

namespace StoredFrame

variable {config : FrameConfig} {input : Bytes}

theorem read_holding {header : FrameHeader} {next : Cursor}
    (h : readFrame config.maxFrameSize input = .done header next) :
    (holding config input).read = (.done () next, (holding config input).withHeader header) := by
  have hc : (holding config input).buffer.content = input := List.take_length
  rw [read, hc]
  dsimp only [holding]
  rw [h]

theorem content_holding (header : FrameHeader) :
    ((holding config input).withHeader header).content = header.content.of input := by
  have hc : (holding config input).buffer.content = input := List.take_length
  exact congrArg header.content.of hc

theorem rest_of_read {f : StoredFrame} {next : Cursor} (h : f.read.1 = .done () next) :
    next.rest.length < f.buffer.content.length := by
  unfold read at h
  split at h
  · rename_i header mid hf
    cases h
    exact (advances_frame _).rest_lt hf
  · cases h
  · cases h

end StoredFrame

/-- The frames at the front of the input, one behind the other, and what is left of it. -/
def readFrames (config : FrameConfig) (input : Bytes) : List StoredFrame × Bytes :=
  match _h : (StoredFrame.holding config input).read with
  | (.done () next, frame) =>
    let (frames, rest) := readFrames config next.rest
    (frame :: frames, rest)
  | _ => ([], input)
  termination_by input.length
  decreasing_by
    have hr := StoredFrame.rest_of_read (congrArg Prod.fst _h)
    exact Nat.lt_of_lt_of_le hr (List.length_take_le _ _)

/-- Takes data frames in order. There is an answer to each. -/
def Reassembly.pushAll (r : Reassembly) :
    List StoredFrame → List (Except FragmentError (Option Reassembled)) × Reassembly
  | [] => ([], r)
  | frame :: frames =>
    let (answer, r) := r.push frame
    let (answers, r) := r.pushAll frames
    (answer :: answers, r)

/-- A frame that came unmasked. -/
structure StoredFrame.Carries (f : StoredFrame) (opcode : Opcode) (fin : Bool) (content : Bytes) :
    Prop where
  header : ∃ span, f.header? = some ⟨fin, opcode, none, span⟩
  content : f.content = content

namespace StoredFrame.Carries

variable {f : StoredFrame} {opcode : Opcode} {fin : Bool} {content : Bytes}

theorem opcode_eq (h : f.Carries opcode fin content) : f.opcode = opcode := by
  obtain ⟨span, hs⟩ := h.header
  rw [StoredFrame.opcode, hs]
  rfl

theorem fragmentation_eq (h : f.Carries opcode fin content) :
    f.fragmentation = .of fin opcode := by
  obtain ⟨span, hs⟩ := h.header
  rw [fragmentation, hs]
  rfl

theorem complete (h : f.Carries opcode fin content) : f.header?.isSome = true ∧ f.mask? = none := by
  obtain ⟨span, hs⟩ := h.header
  rw [mask?, hs]
  exact ⟨rfl, rfl⟩

end StoredFrame.Carries

section Reading

variable {config : FrameConfig}

theorem readFrames_nil (config : FrameConfig) : readFrames config [] = ([], []) := by
  rw [readFrames]
  rfl

/-- A frame is the first one read, whatever follows it. -/
theorem readFrames_cons (opcode : Opcode) (fin : Bool) {content : Bytes}
    (hc : opcode.isControl = true → fin = true ∧ content.length ≤ 125)
    (hn : content.length < 2 ^ 63) (hl : content.length ≤ config.maxFrameSize) (rest : Bytes) :
    ∃ f : StoredFrame, f.Carries opcode fin content ∧
      readFrames config (frameBytes opcode fin content none ++ rest) =
        (f :: (readFrames config rest).1, (readFrames config rest).2) := by
  have hf := frame_complete none hn hl hc rest
  let header : FrameHeader :=
    ⟨fin, opcode, none, ⟨1 + (sizeBytes content.length none).length, content.length⟩⟩
  refine ⟨(StoredFrame.holding config
    (frameBytes opcode fin content none ++ rest)).withHeader header, ⟨⟨_, rfl⟩, ?_⟩, ?_⟩
  · rw [StoredFrame.content_holding]
    exact frame_content opcode fin content none rest
  · rw [readFrames, StoredFrame.read_holding hf]

/-- A data frame is the first one read, whatever follows it. -/
theorem readFrames_frame (opcode : Opcode) (fin : Bool) {content : Bytes}
    (ho : opcode.isControl = false) (hn : content.length < 2 ^ 63)
    (hl : content.length ≤ config.maxFrameSize) (rest : Bytes) :
    ∃ f : StoredFrame, f.Carries opcode fin content ∧
      readFrames config (frameBytes opcode fin content none ++ rest) =
        (f :: (readFrames config rest).1, (readFrames config rest).2) := by
  refine readFrames_cons opcode fin (fun h => ?_) hn hl rest
  rw [ho] at h
  cases h

/-- The frames of a message behind the first one, in pieces of `size` bytes, and what they carry. -/
inductive Later (size : Nat) : List StoredFrame → Bytes → Prop
  | last {f : StoredFrame} {content : Bytes} (hf : f.Carries .continuation true content)
      (hs : content.length ≤ size) : Later size [f] content
  | more {f : StoredFrame} {frames : List StoredFrame} {content rest : Bytes}
      (hf : f.Carries .continuation false content) (hs : content.length = size)
      (hl : Later size frames rest) : Later size (f :: frames) (content ++ rest)

/-- The later pieces of a message are read again, whatever follows them. -/
theorem readFrames_laterFrames {size : Nat} {rest : Bytes} (hs : 0 < size)
    (hn : rest.length < 2 ^ 63) (hl : rest.length ≤ config.maxFrameSize) (behind : Bytes) :
    ∃ frames, Later size frames rest ∧
      readFrames config (laterFrames size rest ++ behind) =
        (frames ++ (readFrames config behind).1, (readFrames config behind).2) := by
  fun_induction laterFrames size rest with
  | case1 rest h ih =>
    have ht : (rest.take size).length = size := List.length_take_of_le (Nat.le_of_lt h.2)
    have hd := List.length_drop (i := size) (l := rest)
    obtain ⟨frames, hf, hr⟩ := ih (by omega) (by omega)
    have hn' : (rest.take size).length < 2 ^ 63 := by omega
    have hl' : (rest.take size).length ≤ config.maxFrameSize := by omega
    obtain ⟨f, hc, hr'⟩ := readFrames_frame .continuation false rfl hn' hl'
      (laterFrames size (rest.drop size) ++ behind)
    refine ⟨f :: frames, ?_, ?_⟩
    · have := hf.more hc ht
      rwa [List.take_append_drop] at this
    · rw [List.append_assoc, hr', hr, List.cons_append]
  | case2 rest h =>
    obtain ⟨f, hc, hr⟩ := readFrames_frame .continuation true rfl hn hl behind
    exact ⟨[f], .last hc (by omega), hr⟩

/-- The later pieces of a message are read again, and nothing else. -/
theorem readFrames_later {size : Nat} {rest : Bytes} (hs : 0 < size) (hn : rest.length < 2 ^ 63)
    (hl : rest.length ≤ config.maxFrameSize) :
    ∃ frames, readFrames config (laterFrames size rest) = (frames, []) ∧
      Later size frames rest := by
  obtain ⟨frames, hlater, hr⟩ := readFrames_laterFrames hs hn hl []
  rw [List.append_nil, readFrames_nil, List.append_nil] at hr
  exact ⟨frames, hr, hlater⟩

end Reading

section Pushing

theorem Later.payload {size : Nat} {frames : List StoredFrame} {rest : Bytes}
    (h : Later size frames rest) : frames.flatMap (·.content) = rest := by
  induction h with
  | last hf hs => rw [List.flatMap_singleton, hf.content]
  | more hf hs hl ih => rw [List.flatMap_cons, hf.content, ih]

/-- All pieces but the last are full. -/
theorem Later.sizes {size : Nat} {frames : List StoredFrame} {rest : Bytes}
    (h : Later size frames rest) :
    ∃ front last, frames = front ++ [last] ∧ (∀ f ∈ front, f.content.length = size) ∧
      last.content.length ≤ size := by
  induction h with
  | @last f content hf hs => exact ⟨[], f, rfl, List.forall_mem_nil _, hf.content.symm ▸ hs⟩
  | @more f frames content rest hf hs hl ih =>
    obtain ⟨front, last, rfl, ha, hb⟩ := ih
    exact ⟨f :: front, last, rfl, List.forall_mem_cons.2 ⟨hf.content.symm ▸ hs, ha⟩, hb⟩

theorem Later.complete {size : Nat} {frames : List StoredFrame} {rest : Bytes}
    (h : Later size frames rest) : ∀ f ∈ frames, f.header?.isSome = true ∧ f.mask? = none := by
  induction h with
  | last hf hs => exact List.forall_mem_singleton.2 hf.complete
  | more hf hs hl ih => exact List.forall_mem_cons.2 ⟨hf.complete, ih⟩

namespace Reassembly

/-- A frame that leaves its message open is kept. -/
theorem push_open {r : Reassembly} {f : StoredFrame} {opcode : Opcode} {content : Bytes}
    (hf : f.Carries opcode false content)
    (ho : (Fragmentation.of false opcode).follows r.last = true)
    (hs : r.size + content.length ≤ r.maxMessageSize)
    (hl : (Fragmentation.of false opcode).leavesOpen = true) :
    r.push f = (.ok none,
      { r with
        frames := r.frames ++ [f]
        count := r.count + 1
        size := r.size + content.length
        last := .of false opcode }) := by
  simp only [push, hf.fragmentation_eq, hf.content, ho, hl, Bool.not_true, Bool.false_eq_true,
    if_false, if_true, Nat.not_lt.2 hs]

/-- A frame that ends its message completes it, and no message is open then. -/
theorem push_closes {r : Reassembly} {f : StoredFrame} {opcode : Opcode} {content : Bytes}
    (hf : f.Carries opcode true content)
    (ho : (Fragmentation.of true opcode).follows r.last = true)
    (hs : r.size + content.length ≤ r.maxMessageSize)
    (hl : (Fragmentation.of true opcode).leavesOpen = false) :
    r.push f = (.ok (some (join (r.frames ++ [f]))),
      { r with frames := [], count := 0, size := 0, last := .of true opcode }) := by
  simp only [push, hf.fragmentation_eq, hf.content, ho, hl, Bool.not_true, Bool.false_eq_true,
    if_false, Nat.not_lt.2 hs]

/-- A frame that ends its message completes it. -/
theorem push_closing {r : Reassembly} {f : StoredFrame} {opcode : Opcode} {content : Bytes}
    (hf : f.Carries opcode true content)
    (ho : (Fragmentation.of true opcode).follows r.last = true)
    (hs : r.size + content.length ≤ r.maxMessageSize)
    (hl : (Fragmentation.of true opcode).leavesOpen = false) :
    (r.push f).1 = .ok (some (join (r.frames ++ [f]))) :=
  congrArg Prod.fst (push_closes hf ho hs hl)

theorem pushAll_cons (r : Reassembly) (f : StoredFrame) (frames : List StoredFrame) :
    (r.pushAll (f :: frames)).1 = (r.push f).1 :: ((r.push f).2.pushAll frames).1 :=
  rfl

/-- The later frames complete the message that is open, the last one only. -/
theorem pushAll_later {size : Nat} {frames : List StoredFrame} {rest : Bytes}
    (h : Later size frames rest) {r : Reassembly} (ho : r.last.leavesOpen = true)
    (hs : r.size + rest.length ≤ r.maxMessageSize) :
    (r.pushAll frames).1 =
      frames.dropLast.map (fun _ => .ok none) ++ [.ok (some (join (r.frames ++ frames)))] := by
  induction h generalizing r with
  | @last f content hf _ =>
    have hp := push_closing hf (by rw [Fragmentation.follows, ho]; rfl) hs rfl
    rw [pushAll_cons, hp]
    rfl
  | @more f frames content rest hf _ hl ih =>
    rw [List.length_append] at hs
    have hp := push_open hf (by rw [Fragmentation.follows, ho]; rfl) (by omega) rfl
    have hn : frames ≠ [] := by
      obtain ⟨front, last, rfl, -⟩ := hl.sizes
      exact List.concat_ne_nil _ _
    rw [pushAll_cons, hp, List.dropLast_cons_of_ne_nil hn, List.map_cons, List.cons_append]
    rw [ih rfl (by dsimp only; omega), List.append_assoc, List.singleton_append]

end Reassembly

end Pushing

section Messages

variable {opcode : Opcode} {payload : Bytes} {size maxMessageSize : Nat}

theorem of_data (ho : opcode = .text ∨ opcode = .binary) :
    opcode.isControl = false ∧ Fragmentation.of false opcode = .start ∧
      Fragmentation.of true opcode = .none := by
  rcases ho with rfl | rfl <;> exact ⟨rfl, rfl, rfl⟩

/-- The message that frames come to, the first of which carries its opcode. -/
theorem join_cons {f : StoredFrame} {fin : Bool} {content : Bytes}
    (hf : f.Carries opcode fin content) (frames : List StoredFrame) :
    Reassembly.join (f :: frames) =
      ⟨opcode, content ++ frames.flatMap (·.content), f :: frames⟩ := by
  rw [Reassembly.join, List.flatMap_cons, hf.content, List.head?_cons, Option.map_some,
    Option.getD_some, hf.opcode_eq]

/-- One frame completes a message. -/
theorem pushAll_whole (ho : opcode = .text ∨ opcode = .binary) {f : StoredFrame}
    (hf : f.Carries opcode true payload) (hm : payload.length ≤ maxMessageSize) :
    (Reassembly.pushAll { maxMessageSize } [f]).1 = [.ok (some ⟨opcode, payload, [f]⟩)] := by
  obtain ⟨-, -, hw⟩ := of_data ho
  have hp : (Reassembly.push { maxMessageSize } f).1 = _ :=
    Reassembly.push_closing hf (by rw [hw]; rfl) (by rwa [Nat.zero_add]) (by rw [hw]; rfl)
  rw [Reassembly.pushAll_cons, hp, List.nil_append, join_cons hf, List.flatMap_nil,
    List.append_nil]
  rfl

/-- The last of the frames that a message was cut into completes it. -/
theorem pushAll_cut (ho : opcode = .text ∨ opcode = .binary) {f : StoredFrame}
    {frames : List StoredFrame} {first rest : Bytes} (hf : f.Carries opcode false first)
    (hl : Later size frames rest) (hm : first.length + rest.length ≤ maxMessageSize) :
    (Reassembly.pushAll { maxMessageSize } (f :: frames)).1 =
      .ok none :: (frames.dropLast.map (fun _ => .ok none) ++
        [.ok (some ⟨opcode, first ++ rest, f :: frames⟩)]) := by
  obtain ⟨-, hs, -⟩ := of_data ho
  have hp : Reassembly.push { maxMessageSize } f = _ :=
    Reassembly.push_open hf (by rw [hs]; rfl) (by dsimp only; omega) (by rw [hs]; rfl)
  rw [Reassembly.pushAll_cons, hp, Reassembly.pushAll_later hl (hs ▸ rfl) (by dsimp only; omega)]
  rw [List.nil_append, List.singleton_append, join_cons hf, hl.payload]

/-- A message of the server is read as unmasked frames with nothing left over. The last of them
completes the message, and when the message is cut, the pieces in front of it are full. -/
theorem messageBytes_reassembled {config : FrameConfig} (ho : opcode = .text ∨ opcode = .binary)
    (hn : payload.length < 2 ^ 63) (hf : payload.length ≤ config.maxFrameSize)
    (hm : payload.length ≤ maxMessageSize) :
    ∃ front last,
      readFrames config (messageBytes opcode payload size) = (front ++ [last], []) ∧
      (∀ f ∈ front ++ [last], f.header?.isSome = true ∧ f.mask? = none) ∧
      (Reassembly.pushAll { maxMessageSize } (front ++ [last])).1 =
        front.map (fun _ => .ok none) ++ [.ok (some ⟨opcode, payload, front ++ [last]⟩)] ∧
      (0 < size → (∀ f ∈ front, f.content.length = size) ∧ last.content.length ≤ size) := by
  obtain ⟨hc, -, -⟩ := of_data ho
  unfold messageBytes
  split
  · rename_i hsize
    obtain ⟨f, hcar, hr⟩ := readFrames_frame opcode true hc hn hf []
    rw [List.append_nil, readFrames_nil] at hr
    refine ⟨[], f, hr, List.forall_mem_singleton.2 hcar.complete, pushAll_whole ho hcar hm, ?_⟩
    intro hpos
    refine ⟨List.forall_mem_nil _, ?_⟩
    rw [hcar.content]
    omega
  · -- The first piece is full, since the message is longer, and the others are the later frames.
    rename_i hsize
    have ht : (payload.take size).length = size := List.length_take_of_le (by omega)
    have hd : (payload.drop size).length = payload.length - size := List.length_drop
    have hn' : (payload.take size).length < 2 ^ 63 := by omega
    have hf' : (payload.take size).length ≤ config.maxFrameSize := by omega
    obtain ⟨f, hcar, hr'⟩ := readFrames_frame opcode false hc hn' hf'
      (laterFrames size (payload.drop size))
    have hd' : (payload.drop size).length ≤ config.maxFrameSize := by omega
    obtain ⟨frames, hr, hlater⟩ := readFrames_later (by omega : 0 < size) (by omega) hd'
    obtain ⟨front, last, rfl, hfull, hlast⟩ := hlater.sizes
    have hp := pushAll_cut ho hcar hlater (by omega : _ ≤ maxMessageSize)
    rw [List.take_append_drop, List.dropLast_concat] at hp
    rw [hr] at hr'
    refine ⟨f :: front, last, hr', List.forall_mem_cons.2 ⟨hcar.complete, hlater.complete⟩, hp, ?_⟩
    intro hpos
    exact ⟨List.forall_mem_cons.2 ⟨hcar.content.symm ▸ ht, hfull⟩, hlast⟩

/-- Three bytes cut behind the second. -/
theorem messageBytes_reassembled_three :
    ∃ front last,
      readFrames {} (messageBytes .text [0x61, 0x62, 0x63] 2) = (front ++ [last], []) ∧
      (Reassembly.pushAll { maxMessageSize := 3 } (front ++ [last])).1 =
        front.map (fun _ => .ok none) ++
          [.ok (some ⟨.text, [0x61, 0x62, 0x63], front ++ [last]⟩)] ∧
      (∀ f ∈ front, f.content.length = 2) ∧ last.content.length ≤ 2 := by
  have hn : List.length ([0x61, 0x62, 0x63] : Bytes) < 2 ^ 63 := by decide
  have hf : List.length ([0x61, 0x62, 0x63] : Bytes) ≤ FrameConfig.maxFrameSize {} := by decide
  have hm : List.length ([0x61, 0x62, 0x63] : Bytes) ≤ 3 := by decide
  obtain ⟨front, last, hr, -, hp, hs⟩ := messageBytes_reassembled (.inl rfl) hn hf hm
  exact ⟨front, last, hr, hp, hs (by decide : 0 < 2)⟩

end Messages

end OriginServer.WebSocket
