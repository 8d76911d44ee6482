import OriginServer.Proofs.WebSocket.Frame

namespace OriginServer.WebSocket

open Scanner

theorem closed_firstByte : firstByte.Closed := by
  refine closed_any.bind fun b => (closed_ensure _ _).bind fun _ => ?_
  split
  · exact closed_refuse _
  · exact closed_pure _

/-- The rules for control frames look at the length byte and leave it to be read. -/
theorem local_controlRules (fin : Bool) (opcode : Opcode) : (controlRules fin opcode).Local := by
  unfold controlRules
  split
  · refine (closed_ensure _ _).toLocal.bind fun _ => ?_
    rintro ⟨pos, rest⟩ a next h
    cases rest with
    | nil =>
      cases h
      refine ⟨[], rfl, rfl, fun tail ht => ?_⟩
      have hnil : tail = [] := List.head?_eq_none_iff.1 ht
      rw [hnil]
      rfl
    | cons b rest =>
      by_cases hb : maxControlPayload < b.toNat % 128
      · simp [hb] at h
      · simp only [hb, if_false, Scan.done.injEq] at h
        obtain ⟨-, rfl⟩ := h
        refine ⟨[], rfl, rfl, fun tail ht => ?_⟩
        obtain ⟨t, rfl⟩ := List.head?_eq_some_iff.1 ht
        simp [hb]
  · exact (closed_pure _).toLocal

theorem closed_payloadLength (short : Nat) : (payloadLength short).Closed := by
  have digits (n : Nat) : (ofBigEndian <$> take n : Scanner FrameError Nat).Closed :=
    (closed_take n).bind fun _ => closed_pure _
  unfold payloadLength
  split
  · exact (digits 2).bind fun _ => (closed_ensure _ _).bind fun _ => closed_pure _
  · split
    · exact (digits 8).bind fun _ => (closed_ensure _ _).bind fun _ =>
        (closed_ensure _ _).bind fun _ => closed_pure _
    · exact closed_pure _

theorem closed_maskKey (announced : Bool) : (maskKey announced).Closed := by
  unfold maskKey
  split
  · exact (closed_take _).bind fun _ => closed_pure _
  · exact closed_pure _

/-- A payload takes the length byte, at least. -/
theorem sealed_payload (limit : Nat) : (payload limit).Sealed := by
  have hany : (any : Scanner FrameError UInt8).Sealed := ⟨closed_any, advances_any⟩
  exact hany.bind fun _ => (closed_payloadLength _).bind fun _ => (closed_ensure _ _).bind fun _ =>
    (closed_maskKey _).bind fun _ => closed_position.bind fun _ => (closed_take _).bind fun _ =>
      closed_pure _

theorem sealed_frame (limit : Nat) : (frame limit).Sealed :=
  closed_firstByte.toLocal.bind_sealed fun _ => (local_controlRules _ _).bind_sealed fun _ =>
    (sealed_payload limit).bind fun _ => closed_pure _

/-- Reading frames is sound at every point of arrival: a refusal is final, and a complete frame,
which ends with its payload, is read in the same way with more bytes behind it and without them,
and not before its last byte is there. -/
theorem readFrame_incremental (limit : Nat) (input later : Bytes) :
    (∀ cause, readFrame limit input = .fail cause →
      readFrame limit (input ++ later) = .fail cause) ∧
    (∀ header next, readFrame limit input = .done header next →
      next.pos ≤ input.length ∧ header.content.stop = next.pos ∧
      readFrame limit (input ++ later) = .done header ⟨next.pos, next.rest ++ later⟩ ∧
      readFrame limit (input.take next.pos) = .done header ⟨next.pos, []⟩ ∧
      ∀ m < next.pos, readFrame limit (input.take m) = .more) := by
  constructor
  · intro cause h
    exact (steady_frame limit).fail later h
  · intro header next h
    obtain ⟨hstop, hle, -⟩ := readFrame_places h
    refine ⟨hle, hstop, ?_, ?_, ?_⟩
    · exact (steady_frame limit).done later h
    · exact (sealed_frame limit).closed.take h
    · intro m hm
      exact (steady_frame limit).more_of_take (advances_frame limit).forward h hm

end OriginServer.WebSocket
