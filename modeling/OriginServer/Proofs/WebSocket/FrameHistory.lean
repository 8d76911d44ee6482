import Mathlib.Logic.Function.Iterate
import OriginServer.Proofs.Storage.BufferEdit
import OriginServer.Proofs.WebSocket.StoredFrame

namespace OriginServer.WebSocket.StoredFrame

open BufferEdit

variable {f : StoredFrame} {opcode : Opcode} {fin : Bool} {payload : Bytes}
  {mask : Option MaskKey}

section History

/-- Builds a frame in the buffer at hand. Where the buffer has no room, the header stays and the
buffer keeps what was written. -/
def assign (f : StoredFrame) (opcode : Opcode) (fin : Bool) (payload : Bytes)
    (mask : Option MaskKey) : Except BufferError Unit × StoredFrame :=
  let head := headerBytes opcode fin payload.length mask
  let writing : BufferEdit Unit := do
    BufferEdit.assign head
    BufferEdit.push (masked mask payload)
  match writing.on f.buffer with
  | (.ok _, buffer) =>
    (.ok (), { f with buffer }.withHeader ⟨fin, opcode, mask, ⟨head.length, payload.length⟩⟩)
  | (.error e, buffer) => (.error e, { f with buffer })

/-- What an owner may do with a frame. -/
inductive Op where
  /-- Changes the buffer behind the back of the frame. -/
  | edit (op : BufferEdit.Op)
  /-- Takes a buffer that has a past of its own. -/
  | replace (ops : List BufferEdit.Op)
  | read
  | unmask
  | assign (opcode : Opcode) (fin : Bool) (payload : Bytes) (mask : Option MaskKey)
  | clear

/-- The frame behind an operation, whether it was refused or not. -/
def Op.apply (f : StoredFrame) : Op → StoredFrame
  | edit op => { f with buffer := (op.edit.on f.buffer).2 }
  | replace ops => f.withBuffer (BufferEdit.after ops)
  | read => f.read.2
  | unmask => f.unmask
  | assign opcode fin payload mask => (f.assign opcode fin payload mask).2
  | clear => f.clear

/-- Some operations on a new frame lead here. -/
def Reachable (f : StoredFrame) : Prop :=
  ∃ (config : FrameConfig) (first : StoredFrame) (ops : List Op),
    create config = .ok first ∧ f = ops.foldl Op.apply first

/-- Building in place completes where building does, and with the same frame. -/
theorem assign_eq_ok {built : StoredFrame} :
    f.assign opcode fin payload mask = (.ok (), built) ↔
      f.setPayload opcode fin payload mask = .ok built := by
  simp only [assign, setPayload, on_bind, on_assign, on_push, settle]
  simp only [bind, Except.bind]
  cases hs : f.buffer.set (headerBytes opcode fin payload.length mask) with
  | error e => simp
  | ok b =>
    dsimp only
    cases hp : b.push (masked mask payload) with
    | error e => simp
    | ok b' => simp [pure, Except.pure]

theorem kept_assign (h : Kept f.buffer) (opcode : Opcode) (fin : Bool) (payload : Bytes)
    (mask : Option MaskKey) : Kept (f.assign opcode fin payload mask).2.buffer := by
  obtain ⟨hhead, -⟩ := h.assign (headerBytes opcode fin payload.length mask)
  unfold assign
  dsimp only
  rw [on_bind]
  cases hw : (BufferEdit.assign (headerBytes opcode fin payload.length mask)).on f.buffer with
  | mk outcome b =>
    rw [hw] at hhead
    cases outcome with
    | error e => exact hhead
    | ok u =>
      obtain ⟨hpush, -⟩ := hhead.push (masked mask payload)
      dsimp only at hpush ⊢
      split
      all_goals
        rename_i hb
        rw [hb] at hpush
        exact hpush

theorem kept_apply (h : Kept f.buffer) (op : Op) : Kept (op.apply f).buffer := by
  cases op with
  | edit op => exact (h.edit op).1
  | replace ops =>
    have hempty : Kept ({} : Buffer) :=
      ⟨Buffer.sound_empty none, (Buffer.zeroed_empty none).zero⟩
    exact (hempty.foldl ops).1
  | read =>
    show Kept f.read.2.buffer
    rw [buffer_read]
    exact h
  | unmask =>
    show Kept f.unmask.buffer
    unfold StoredFrame.unmask
    split
    · exact (h.edit (.write _ (maskSpan_length _ _))).1
    · exact h
  | assign opcode fin payload mask => exact kept_assign h opcode fin payload mask
  | clear => exact (h.edit .clear).1

/-- The buffer of a frame is sound at all times. -/
theorem Reachable.kept (h : f.Reachable) : Kept f.buffer := by
  obtain ⟨config, first, ops, hc, rfl⟩ := h
  have hfirst : Kept first.buffer := by
    obtain ⟨b, hb, hf⟩ := bind_eq_ok.1 hc
    cases hf
    obtain ⟨-, hs, -⟩ := Buffer.withCapacity_sound hb
    exact ⟨hs.withThreshold _, (Buffer.withCapacity_zeroed hb).zero⟩
  clear hc
  induction ops generalizing first with
  | nil => exact hfirst
  | cons op ops ih => exact ih _ (kept_apply hfirst op)

end History

section Presents

/-- The frame is that one: so it is on the wire, and taking off its mask, once or more often, leaves
its payload in the clear. -/
structure Presents (f : StoredFrame) (opcode : Opcode) (fin : Bool) (payload : Bytes)
    (mask : Option MaskKey) : Prop where
  wire_eq : f.wire = frameBytes opcode fin payload mask
  opcode_eq : f.opcode = opcode
  fin_eq : f.fin = fin
  fragmentation_eq : f.fragmentation = .of fin opcode
  mask_eq : f.mask? = mask
  content_eq (n : Nat) : (StoredFrame.unmask^[n + 1] f).content = payload

theorem unmask_unmask (f : StoredFrame) : f.unmask.unmask = f.unmask := by
  cases hm : f.mask? with
  | none =>
    have hf : f.unmask = f := by simp only [unmask, hm]
    rw [hf, hf]
  | some key =>
    cases hi : f.isMasked with
    | false =>
      have hf : f.unmask = f := by simp only [unmask, hm, hi]
      rw [hf, hf]
    | true =>
      have hf : f.unmask =
          { f with buffer := f.buffer.modify (maskSpan key f.span), isMasked := false } := by
        simp only [unmask, hm, hi]
      have hn : f.unmask.isMasked = false := by rw [hf]
      generalize f.unmask = g at hn
      unfold unmask
      rw [hn]
      split <;> simp_all

theorem iterate_unmask (f : StoredFrame) (n : Nat) : unmask^[n + 1] f = f.unmask := by
  induction n with
  | zero => rfl
  | succ n ih => rw [Function.iterate_succ_apply', ih, unmask_unmask]

/-- A header over the bytes of a frame. -/
theorem presents_withHeader {rest : Bytes}
    (h : f.buffer.content = frameBytes opcode fin payload mask ++ rest) :
    (f.withHeader ⟨fin, opcode, mask,
      ⟨1 + (sizeBytes payload.length mask).length, payload.length⟩⟩).Presents
        opcode fin payload mask := by
  have hlen : (frameBytes opcode fin payload mask).length =
      1 + (sizeBytes payload.length mask).length + payload.length := by
    simp only [frameBytes_eq, List.length_cons, List.length_append, length_masked]
    omega
  refine ⟨?_, rfl, rfl, rfl, rfl, fun n => ?_⟩
  · show f.buffer.content.take (1 + (sizeBytes payload.length mask).length + payload.length) = _
    rw [h, ← hlen, List.take_left]
  · rw [iterate_unmask, unmask_content, h]
    · dsimp only
      rw [frame_content, masked_masked]
    · dsimp only [Span.stop]
      rw [h, ← hlen, List.length_append]
      omega

/-- A frame is built wherever a store has room for it. -/
theorem setPayload_complete (h : f.buffer.Sound)
    (hr : (frameBytes opcode fin payload mask).length ≤ Buffer.maxStore) :
    ∃ built, f.setPayload opcode fin payload mask = .ok built := by
  have hzero : (f.buffer.truncate 0).length = 0 := Buffer.length_truncate (Nat.zero_le _)
  rw [frameBytes, List.length_append] at hr
  have hhead : (f.buffer.truncate 0).length + (headerBytes opcode fin payload.length mask).length ≤
      Buffer.maxStore := by omega
  obtain ⟨b₁, hs, hsound, -⟩ := (h.truncate 0).push_complete hhead
  have hlen := Buffer.length_push hs
  have hbody : b₁.length + (masked mask payload).length ≤ Buffer.maxStore := by omega
  obtain ⟨b₂, hp, -⟩ := hsound.push_complete hbody
  exact ⟨_, bind_eq_ok.2 ⟨b₁, hs, bind_eq_ok.2 ⟨b₂, hp, rfl⟩⟩⟩

theorem presents_setPayload (h : f.buffer.Sound) {built : StoredFrame}
    (hb : f.setPayload opcode fin payload mask = .ok built) :
    built.Presents opcode fin payload mask := by
  obtain ⟨b₁, hs, hb⟩ := bind_eq_ok.1 hb
  obtain ⟨b₂, hp, hb⟩ := bind_eq_ok.1 hb
  obtain ⟨hsound, hcontent⟩ := (h.truncate 0).push hs
  have hframe : b₂.content = frameBytes opcode fin payload mask ++ [] := by
    rw [(hsound.push hp).2, hcontent, h.content_truncate, List.take_zero, List.nil_append,
      List.append_nil]
    rfl
  have hhead : (headerBytes opcode fin payload.length mask).length =
      1 + (sizeBytes payload.length mask).length := by
    rw [headerBytes_eq, List.length_cons, Nat.add_comm]
  cases hb
  rw [hhead]
  exact presents_withHeader (f := { f with buffer := b₂ }) hframe

/-- What was written is read as the frame that was meant, whatever header the frame had. -/
theorem presents_read {rest : Bytes}
    (h : f.buffer.content = frameBytes opcode fin payload mask ++ rest)
    (hn : payload.length < 2 ^ 63) (hl : payload.length ≤ f.config.maxFrameSize)
    (hc : opcode.isControl = true → fin = true ∧ payload.length ≤ 125) :
    f.read.1 = .done () ⟨(frameBytes opcode fin payload mask).length, rest⟩ ∧
      f.read.2.Presents opcode fin payload mask := by
  have hr := frame_complete mask hn hl hc rest
  rw [← h] at hr
  have hread : f.read = (.done () ⟨(frameBytes opcode fin payload mask).length, rest⟩,
      f.withHeader ⟨fin, opcode, mask,
        ⟨1 + (sizeBytes payload.length mask).length, payload.length⟩⟩) := by
    rw [read, hr]
  rw [hread]
  exact ⟨rfl, presents_withHeader h⟩

/-- Building a frame and reading it agree with writing it, whatever was done to either frame before,
and by either way that bytes come into a frame. -/
theorem presents_from_any_past {f : StoredFrame} (hf : f.Reachable) (g : StoredFrame)
    (opcode : Opcode) (fin : Bool) (payload : Bytes) (mask : Option MaskKey)
    (hn : payload.length < 2 ^ 63) :
    ((frameBytes opcode fin payload mask).length ≤ Buffer.maxStore →
      ∃ built, f.setPayload opcode fin payload mask = .ok built) ∧
    (∀ built, f.setPayload opcode fin payload mask = .ok built →
      f.assign opcode fin payload mask = (.ok (), built) ∧
        built.Presents opcode fin payload mask) ∧
    ∀ (b : Buffer) (rest : Bytes), b.content = frameBytes opcode fin payload mask ++ rest →
      payload.length ≤ g.config.maxFrameSize →
      (opcode.isControl = true → fin = true ∧ payload.length ≤ 125) →
      ∀ loaded ∈ [g.withBuffer b, { g with buffer := b }],
        loaded.read.1 = .done () ⟨(frameBytes opcode fin payload mask).length, rest⟩ ∧
          loaded.read.2.Presents opcode fin payload mask := by
  have hs := hf.kept.toSound
  refine ⟨setPayload_complete hs,
    fun built hb => ⟨assign_eq_ok.2 hb, presents_setPayload hs hb⟩, ?_⟩
  intro b rest hb hl hc loaded hloaded
  have hg : loaded.buffer = b ∧ loaded.config = g.config := by
    simp only [List.mem_cons, List.not_mem_nil, or_false] at hloaded
    rcases hloaded with rfl | rfl <;> exact ⟨rfl, rfl⟩
  exact presents_read (hg.1 ▸ hb) hn (hg.2 ▸ hl) hc

theorem presents_from_any_past_masked :
    let first : StoredFrame := ⟨⟨5, 4, 4⟩, ⟨[0, 0, 0, 0], 0, some 4⟩, none, false⟩
    let f := [Op.assign .binary false (Bytes.ofText "secret") (some ⟨9, 8, 7, 6⟩), .unmask,
      .edit (.truncate 3), .read].foldl Op.apply first
    let hello := Bytes.ofText "hello"
    let key : MaskKey := ⟨1, 2, 3, 4⟩
    let loaded := f.withBuffer ⟨frameBytes .text true hello (some key) ++ [0x21], 12, none⟩
    f.Reachable ∧ hello.length < 2 ^ 63 ∧
      (∃ built, f.setPayload .text true hello (some key) = .ok built ∧
        built.Presents .text true hello (some key)) ∧
      loaded.read.1 = .done () ⟨11, [0x21]⟩ ∧
        loaded.read.2.Presents .text true hello (some key) := by
  intro first f hello key loaded
  have hf : f.Reachable := ⟨first.config, first, _, rfl, rfl⟩
  have hn : hello.length < 2 ^ 63 := by decide +kernel
  obtain ⟨hbuild, hbuilt, hread⟩ :=
    presents_from_any_past hf f .text true hello (some key) hn
  obtain ⟨built, hb⟩ := hbuild (by decide +kernel)
  have hloaded := hread ⟨frameBytes .text true hello (some key) ++ [0x21], 12, none⟩ [0x21]
    (by decide +kernel) (by decide +kernel) (by decide +kernel) loaded (List.mem_cons_self ..)
  exact ⟨hf, hn, ⟨built, hb, (hbuilt built hb).2⟩, hloaded.1, hloaded.2⟩

end Presents

end OriginServer.WebSocket.StoredFrame
