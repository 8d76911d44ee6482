import OriginServer.Proofs.Storage.Buffer
import OriginServer.Proofs.WebSocket.Frame
import OriginServer.WebSocket.StoredFrame

namespace OriginServer.WebSocket.StoredFrame

/-- A frame can be made where its buffer has room. -/
theorem create_complete (config : FrameConfig) (h : config.bufferSize ≤ Buffer.maxStore) :
    ∃ f : StoredFrame, Recyclable.create config = some f ∧ Recyclable.key f = config := by
  obtain ⟨b, hb⟩ := Buffer.withCapacity_complete h
  have hc : create config = .ok _ := bind_eq_ok.2 ⟨b, hb, rfl⟩
  exact ⟨_, congrArg Except.toOption hc, rfl⟩

/-- Also where the span reaches beyond the bytes. -/
theorem maskSpan_length (key : MaskKey) (s : Span) (bytes : Bytes) :
    (maskSpan key s bytes).length = bytes.length := by
  have ho : (key.apply (s.of bytes)).length = min s.len (bytes.length - s.start) := by
    rw [← List.length_drop, ← List.length_take]
    exact length_masked (some key) _
  simp only [maskSpan, List.length_append, List.length_take, List.length_drop, Span.stop, ho]
  omega

theorem of_maskSpan (key : MaskKey) {s : Span} {bytes : Bytes} (h : s.stop ≤ bytes.length) :
    s.of (maskSpan key s bytes) = key.apply (s.of bytes) := by
  have ho : (key.apply (s.of bytes)).length = s.len :=
    (length_masked (some key) _).trans (Span.length_of h)
  simp only [Span.stop] at h
  rw [maskSpan, List.append_assoc, Span.of_middle _ ho.symm]
  rw [List.length_take]
  omega

variable {f : StoredFrame} {header : FrameHeader}

theorem read_eq_done {next : Cursor} (h : f.read.1 = .done () next) :
    ∃ header, readFrame f.config.maxFrameSize f.buffer.content = .done header next ∧
      f.read.2 = f.withHeader header := by
  unfold read at h ⊢
  split at h
  · rename_i header mid hr
    cases h
    exact ⟨header, hr, rfl⟩
  · cases h
  · cases h

theorem unmask_header (f : StoredFrame) : f.unmask.header? = f.header? := by
  unfold unmask
  split <;> rfl

/-- The payload of a frame in the clear. -/
theorem unmask_content (hs : header.content.stop ≤ f.buffer.content.length) :
    (f.withHeader header).unmask.content =
      masked header.mask (header.content.of f.buffer.content) := by
  cases hm : header.mask with
  | none =>
    simp only [unmask, mask?, withHeader, Option.bind_some, hm]
    rfl
  | some key =>
    have hu : (f.withHeader header).unmask =
        { f.withHeader header with
          buffer := f.buffer.modify (maskSpan key header.content), isMasked := false } := by
      simp only [unmask, mask?, withHeader, Option.bind_some, hm, Option.isSome_some]
      rfl
    rw [hu]
    unfold content
    dsimp only
    rw [Buffer.content_modify (maskSpan_length key _ _)]
    exact of_maskSpan key hs

end OriginServer.WebSocket.StoredFrame
