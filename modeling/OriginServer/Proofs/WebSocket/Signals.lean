import OriginServer.Proofs.WebSocket.Fragments

namespace OriginServer.WebSocket

inductive Signal where
  | pong (payload : Bytes)
  | close (payload : Bytes)
  | text (payload : Bytes)

namespace Signal

/-- A signal on the wire. Texts are cut into pieces of `size` bytes. -/
def bytes (size : Nat) : Signal → Bytes
  | pong payload => frameBytes .pong true payload none
  | close payload => frameBytes .close true payload none
  | text payload => messageBytes .text payload size

def text? : Signal → Option Bytes
  | text payload => some payload
  | _ => none

/-- Signals in their order, and whether they end with a closing frame. Nothing comes behind one. -/
inductive Talk : List Signal → Bool → Prop
  | nil : Talk [] false
  | close {payload : Bytes} (hl : payload.length ≤ 125) : Talk [.close payload] true
  | pong {payload : Bytes} {later : List Signal} {closes : Bool} (hl : payload.length ≤ 125)
      (ht : Talk later closes) : Talk (.pong payload :: later) closes
  | text {payload : Bytes} {later : List Signal} {closes : Bool} (ht : Talk later closes) :
      Talk (.text payload :: later) closes

theorem Talk.append {first later : List Signal} {closes : Bool} (hf : Talk first false)
    (hl : Talk later closes) : Talk (first ++ later) closes := by
  generalize hn : false = closing at hf
  induction hf with
  | nil => exact hl
  | close _ => cases hn
  | pong hp _ ih => exact .pong hp (ih hn)
  | text _ ih => exact .text (ih hn)

end Signal

namespace Reassembly

/-- The texts that a client takes from frames of a server. There are none if a frame is masked, if
a control frame comes within a message or is a ping, if a frame comes behind a closing one, if a
message is too large or no text, and if one is left open. -/
def listen (r : Reassembly) : List StoredFrame → Option (List Bytes)
  | [] => if r.last.leavesOpen then none else some []
  | f :: later =>
    if f.header?.isNone || f.mask?.isSome then none
    else if f.opcode.isControl then
      if r.last.leavesOpen then none
      else
        match f.opcode with
        | .pong => r.listen later
        | .close => if later.isEmpty then some [] else none
        | _ => none
    else
      match r.push f with
      | (.ok none, r) => r.listen later
      | (.ok (some message), r) =>
        if message.opcode = .text then (r.listen later).map (message.payload :: ·) else none
      | (.error _, _) => none

/-- No message is open. -/
structure AtRest (r : Reassembly) (maxMessageSize : Nat) : Prop where
  limit : r.maxMessageSize = maxMessageSize
  frames : r.frames = []
  size : r.size = 0
  last : r.last.leavesOpen = false

variable {r r' : Reassembly} {f : StoredFrame} {fin : Bool} {content payload : Bytes}

section Frames

theorem atRest_fresh (maxMessageSize : Nat) : AtRest { maxMessageSize } maxMessageSize :=
  ⟨rfl, rfl, rfl, rfl⟩

theorem listen_pong (hf : f.Carries .pong true content) (hr : r.last.leavesOpen = false)
    (later : List StoredFrame) : r.listen (f :: later) = r.listen later := by
  obtain ⟨span, hs⟩ := hf.header
  rw [listen, StoredFrame.mask?, hf.opcode_eq, hs, hr]
  rfl

theorem listen_close (hf : f.Carries .close true content) (hr : r.last.leavesOpen = false) :
    r.listen [f] = some [] := by
  obtain ⟨span, hs⟩ := hf.header
  rw [listen, StoredFrame.mask?, hf.opcode_eq, hs, hr]
  rfl

/-- A frame that keeps its message open. -/
theorem listen_kept {opcode : Opcode} (hf : f.Carries opcode fin content)
    (ho : opcode.isControl = false) (hp : r.push f = (.ok none, r')) (later : List StoredFrame) :
    r.listen (f :: later) = r'.listen later := by
  obtain ⟨span, hs⟩ := hf.header
  rw [listen, StoredFrame.mask?, hf.opcode_eq, hs, ho, hp]
  rfl

/-- A frame that completes a text. -/
theorem listen_completed {opcode : Opcode} {message : Reassembled}
    (hf : f.Carries opcode fin content) (ho : opcode.isControl = false)
    (hp : r.push f = (.ok (some message), r')) (ht : message.opcode = .text)
    (later : List StoredFrame) :
    r.listen (f :: later) = (r'.listen later).map (message.payload :: ·) := by
  obtain ⟨span, hs⟩ := hf.header
  rw [listen, StoredFrame.mask?, hf.opcode_eq, hs, ho, hp]
  exact if_pos ht

end Frames

section Texts

variable {size maxMessageSize : Nat} {config : FrameConfig}

/-- The later frames of a text, the message of which is open. -/
theorem listen_later {frames : List StoredFrame} {rest : Bytes} (h : Later size frames rest)
    (ho : r.last.leavesOpen = true) (hs : r.size + rest.length ≤ r.maxMessageSize)
    (ht : (join (r.frames ++ frames)).opcode = .text) (later : List StoredFrame) :
    r.listen (frames ++ later) =
      (({ r with frames := [], count := 0, size := 0, last := .last } : Reassembly).listen
        later).map ((join (r.frames ++ frames)).payload :: ·) := by
  induction h generalizing r with
  | @last f content hf _ =>
    have hp := push_closes hf (by rw [Fragmentation.follows, ho]; rfl) hs rfl
    exact listen_completed hf rfl hp ht later
  | @more f frames content rest hf _ hl ih =>
    rw [List.length_append] at hs
    have hp := push_open hf (by rw [Fragmentation.follows, ho]; rfl) (by omega) rfl
    have hj : r.frames ++ f :: frames = r.frames ++ [f] ++ frames := List.append_cons _ _ _
    rw [List.cons_append, listen_kept hf rfl hp, hj]
    rw [hj] at ht
    exact ih rfl (by dsimp only; omega) ht

/-- A text that comes while no message is open is taken, and what comes behind it goes on the
same way. -/
theorem listen_text (size : Nat) (hr : r.AtRest maxMessageSize) (hn : payload.length < 2 ^ 63)
    (hf : payload.length ≤ config.maxFrameSize) (hm : payload.length ≤ maxMessageSize)
    (behind : Bytes) :
    ∃ frames r', AtRest r' maxMessageSize ∧
      readFrames config (messageBytes .text payload size ++ behind) =
        (frames ++ (readFrames config behind).1, (readFrames config behind).2) ∧
      ∀ later, r.listen (frames ++ later) = (r'.listen later).map (payload :: ·) := by
  obtain ⟨hlimit, hframes, hsize, hlast⟩ := hr
  unfold messageBytes
  split
  · obtain ⟨f, hcar, hread⟩ := readFrames_frame .text true rfl hn hf behind
    have hp := push_closes hcar (by rw [Fragmentation.follows, hlast]; rfl) (by omega) rfl
    rw [hframes, List.nil_append, join_cons hcar, List.flatMap_nil, List.append_nil] at hp
    exact ⟨[f], { r with frames := [], count := 0, size := 0, last := .none },
      ⟨hlimit, rfl, rfl, rfl⟩, hread, listen_completed hcar rfl hp rfl⟩
  · rename_i hcut
    have ht : (payload.take size).length = size := List.length_take_of_le (by omega)
    have hd : (payload.drop size).length = payload.length - size := List.length_drop
    have hn' : (payload.take size).length < 2 ^ 63 := by omega
    have hf' : (payload.take size).length ≤ config.maxFrameSize := by omega
    have hd' : (payload.drop size).length ≤ config.maxFrameSize := by omega
    obtain ⟨f, hcar, hread⟩ := readFrames_frame .text false rfl hn' hf'
      (laterFrames size (payload.drop size) ++ behind)
    obtain ⟨frames, hlater, hread'⟩ :=
      readFrames_laterFrames (by omega : 0 < size) (by omega) hd' behind
    have hp := push_open hcar (by rw [Fragmentation.follows, hlast]; rfl) (by omega) rfl
    rw [hframes, List.nil_append] at hp
    let opened : Reassembly :=
      { r with
        frames := [f]
        count := r.count + 1
        size := r.size + (payload.take size).length
        last := .start }
    refine ⟨f :: frames, { r with frames := [], count := 0, size := 0, last := .last },
      ⟨hlimit, rfl, rfl, rfl⟩, ?_, ?_⟩
    · rw [List.append_assoc, hread, hread', List.cons_append]
    · intro later
      have hj : join ([f] ++ frames) = ⟨.text, payload, f :: frames⟩ := by
        rw [List.singleton_append, join_cons hcar, hlater.payload, List.take_append_drop]
      have hl : opened.listen (frames ++ later) = _ :=
        listen_later hlater rfl (by dsimp only [opened]; omega) (congrArg Reassembled.opcode hj)
          later
      have hk : r.listen (f :: (frames ++ later)) = opened.listen (frames ++ later) :=
        listen_kept hcar rfl hp _
      rw [List.cons_append, hk, hl]
      exact congrArg (fun m => Option.map (m.payload :: ·) _) hj

end Texts

/-- Where every text has its size, a client reads signals as frames with nothing left over and takes
the texts in their order. -/
theorem listen_talk {config : FrameConfig} {size maxMessageSize : Nat} {signals : List Signal}
    {closes : Bool} (ht : Signal.Talk signals closes) (hc : 125 ≤ config.maxFrameSize)
    (hs : ∀ text ∈ signals.filterMap Signal.text?, text.length < 2 ^ 63 ∧
      text.length ≤ config.maxFrameSize ∧ text.length ≤ maxMessageSize)
    (hr : r.AtRest maxMessageSize) :
    ∃ frames, readFrames config (signals.flatMap (Signal.bytes size)) = (frames, []) ∧
      r.listen frames = some (signals.filterMap Signal.text?) := by
  induction ht generalizing r with
  | nil =>
    refine ⟨[], readFrames_nil config, ?_⟩
    rw [listen, hr.last]
    rfl
  | @close payload hl =>
    obtain ⟨f, hcar, hread⟩ := readFrames_cons .close true (fun _ => ⟨rfl, hl⟩) (by omega)
      (Nat.le_trans hl hc) []
    rw [readFrames_nil] at hread
    exact ⟨[f], hread, listen_close hcar hr.last⟩
  | @pong payload later closes hl _ ih =>
    obtain ⟨frames, hread, hlisten⟩ := ih hs hr
    obtain ⟨f, hcar, hread'⟩ := readFrames_cons .pong true (fun _ => ⟨rfl, hl⟩) (by omega)
      (Nat.le_trans hl hc) (later.flatMap (Signal.bytes size))
    refine ⟨f :: frames, ?_, (listen_pong hcar hr.last frames).trans hlisten⟩
    rw [hread] at hread'
    exact hread'
  | @text payload later closes _ ih =>
    obtain ⟨⟨hn, hf, hm⟩, hs⟩ := List.forall_mem_cons.1 hs
    obtain ⟨front, r', hr', hread, hlisten⟩ :=
      listen_text size hr hn hf hm (later.flatMap (Signal.bytes size))
    obtain ⟨frames, hread', hlisten'⟩ := ih hs hr'
    refine ⟨front ++ frames, ?_, ?_⟩
    · rw [hread'] at hread
      exact hread
    · rw [hlisten, hlisten']
      rfl

end Reassembly

end OriginServer.WebSocket
