import OriginServer.Http.Chunked
import OriginServer.Proofs.Http.Token
import OriginServer.Proofs.Span

namespace OriginServer

theorem Numeral.ofHex_le_append (w x : Bytes) : ofHex w ≤ ofHex (w ++ x) := by
  have hfold (n : Nat) (x : Bytes) :
      n ≤ x.foldl (fun n b => n * 16 + (Ascii.hexValue? b).getD 0) n := by
    induction x generalizing n with
    | nil => exact Nat.le_refl n
    | cons b x ih =>
      rw [List.foldl_cons]
      exact Nat.le_trans (by omega) (ih _)
  rw [ofHex, ofHex, List.foldl_append]
  exact hfold _ x

namespace Http.Chunked

open Ascii Scanner

theorem steady_size : size.Steady := by
  refine Steady.bind ?_ fun _ => (steady_ensure _ _).bind fun _ => steady_pure _
  exact steady_runUnless isHexDigit (fun w => Numeral.wordLimit ≤ Numeral.ofHex w) _
    fun w x h => Nat.le_trans h (Numeral.ofHex_le_append w x)

theorem local_size : size.Local :=
  Local.bind (local_runUnless isHexDigit (fun w => Numeral.wordLimit ≤ Numeral.ofHex w) _)
    fun _ => (closed_ensure _ _).toLocal.bind fun _ => (closed_pure _).toLocal

theorem steady_word : word.Steady := (steady_run _).bind fun _ => steady_ensure _ _

theorem local_word : word.Local := (local_run _).bind fun _ => (closed_ensure _ _).toLocal

theorem steady_extensionValue : extensionValue.Steady := by
  refine (steady_run _).bind fun _ => steady_peek_bind fun b c later hb h => ?_
  by_cases hq : b = dquote
  · rw [if_pos hq] at h ⊢
    exact quotedString_append later (hq ▸ hb) h
  · rw [if_neg hq] at h ⊢
    exact steady_word c later h

theorem local_extensionValue : extensionValue.Local := by
  refine (local_run _).bind fun _ => local_peek.bind fun b => ?_
  split
  · exact (closed_quotedString _).toLocal
  · exact local_word

theorem steady_extension : extension.Steady := by
  refine (steady_run _).bind fun _ => steady_word.bind fun _ => (steady_run _).bind fun _ =>
    steady_peek.bind fun b => ?_
  split
  · exact (steady_byte _ _).bind fun _ => steady_extensionValue
  · exact steady_pure _

theorem local_extension : extension.Local := by
  refine (local_run _).bind fun _ => local_word.bind fun _ => (local_run _).bind fun _ =>
    local_peek.bind fun b => ?_
  split
  · exact (closed_byte _ _).toLocal.bind fun _ => local_extensionValue
  · exact (closed_pure _).toLocal

theorem steady_extensionStep : extensionStep.Steady := by
  refine Steady.bind ?_ fun found => ?_
  · refine (steady_run _).bind fun _ => steady_peek.bind fun b => ?_
    split
    · exact steady_pure _
    · exact (steady_byte _ _).bind fun _ => steady_pure _
  · cases found with
    | true => exact steady_extension.bind fun _ => steady_pure _
    | false => exact steady_pure _

theorem local_extensionStep : extensionStep.Local := by
  refine Local.bind ?_ fun found => ?_
  · refine (local_run _).bind fun _ => local_peek.bind fun b => ?_
    split
    · exact (closed_pure _).toLocal
    · exact (closed_byte _ _).toLocal.bind fun _ => (closed_pure _).toLocal
  · cases found with
    | true => exact local_extension.bind fun _ => (closed_pure _).toLocal
    | false => exact (closed_pure _).toLocal

section Extensions

variable {c next : Cursor}

theorem extensions_of_true (h : extensionStep c = .done true next) :
    extensions c = extensions next := by
  rw [extensions]
  split <;> rename_i h' <;> cases h.symm.trans h'
  rfl

theorem extensions_of_false (h : extensionStep c = .done false next) :
    extensions c = .done () next := by
  rw [extensions]
  split <;> rename_i h' <;> cases h.symm.trans h'
  rfl

theorem extensions_of_fail {cause : ParseError} (h : extensionStep c = .fail cause) :
    extensions c = .fail cause := by
  rw [extensions]
  split <;> rename_i h' <;> cases h.symm.trans h'
  rfl

end Extensions

theorem steady_extensions : Steady extensions := by
  intro c later h
  fun_induction extensions c with
  | case1 c next hn ih =>
    rw [extensions_of_true (steady_extensionStep.done later hn)]
    exact ih h
  | case2 c next hn => exact extensions_of_false (steady_extensionStep.done later hn)
  | case3 => exact absurd rfl h
  | case4 c cause hn => exact extensions_of_fail (steady_extensionStep.fail later hn)

theorem local_extensions : Local extensions := by
  intro c u next h
  fun_induction extensions c with
  | case1 c mid hm ih =>
    obtain ⟨s, hs, ps, ts⟩ := local_extensionStep _ _ _ hm
    obtain ⟨t, ht, pt, tt⟩ := ih h
    refine ⟨s ++ t, by simp [hs, ht], by simp [ps, pt]; omega, fun tail hh => ?_⟩
    have hmid : (t ++ tail).head? = mid.rest.head? := by
      rw [ht, List.head?_append, List.head?_append, hh]
    rw [List.append_assoc, extensions_of_true (ts (t ++ tail) hmid)]
    exact tt tail hh
  | case2 c mid hm =>
    cases h
    obtain ⟨s, hs, ps, ts⟩ := local_extensionStep _ _ _ hm
    exact ⟨s, hs, ps, fun tail hh => extensions_of_false (ts tail hh)⟩
  | case3 => cases h
  | case4 => cases h

theorem steady_line : line.Steady :=
  steady_size.bind fun _ => steady_extensions.bind fun _ => (steady_lineEnd _).bind fun _ =>
    steady_pure _

theorem sealed_line : line.Sealed :=
  local_size.bind_sealed fun _ => local_extensions.bind_sealed fun _ => (sealed_lineEnd _).bind
    fun _ => closed_pure _

/-- The data of a chunk without its line break. -/
def payload (base size : Nat) : Scanner ParseError Span := fun c =>
  if Numeral.wordLimit ≤ c.pos - base + size then .fail .invalidChunk
  else if c.rest.length < size then .more
  else .done ⟨c.pos, size⟩ ⟨c.pos + size, c.rest.drop size⟩

theorem payload_eq (base size : Nat) (c : Cursor) :
    payload base size c =
      if Numeral.wordLimit ≤ c.pos - base + size then Scan.fail .invalidChunk
      else (take size >>= fun _ => (Pure.pure ⟨c.pos, size⟩ : Scanner ParseError Span)) c := by
  unfold payload
  split
  · rfl
  · rw [bind_pure_apply]
    unfold take
    split <;> rfl

theorem steady_payload (base size : Nat) : (payload base size).Steady := by
  intro c later h
  rw [payload_eq] at h
  rw [payload_eq, payload_eq, Cursor.append_pos]
  split at h
  · rename_i hw
    rw [if_pos hw, if_pos hw, Scan.append_fail]
  · rename_i hw
    rw [if_neg hw, if_neg hw]
    exact ((steady_take _).bind fun _ => steady_pure _) c later h

theorem closed_payload (base size : Nat) : (payload base size).Closed := by
  intro c a next h
  rw [payload_eq] at h
  split at h
  · cases h
  · rename_i hw
    obtain ⟨t, ht, hp, tt⟩ := ((closed_take size).bind fun _ => closed_pure _) c a next h
    refine ⟨t, ht, hp, fun tail => ?_⟩
    rw [payload_eq, if_neg hw]
    exact tt tail

theorem steady_chunk (base : Nat) : (chunk base).Steady := by
  refine steady_line.bind fun size => ?_
  split
  · exact steady_pure _
  · exact ((steady_payload base size).bind fun _ => (steady_lineEnd _).bind fun _ =>
      steady_pure _).bind fun _ => steady_pure _

theorem sealed_chunk (base : Nat) : (chunk base).Sealed := by
  refine sealed_line.bind fun size => ?_
  split
  · exact closed_pure _
  · exact ((closed_payload base size).bind fun _ => (closed_lineEnd _).bind fun _ =>
      closed_pure _).bind fun _ => closed_pure _

section ChunksFrom

variable {base : Nat} {c next last : Cursor}

theorem chunksFrom_none (h : chunk base c = .done none next) :
    chunksFrom base c = .done [] next := by
  rw [chunksFrom]
  split <;> rename_i h' <;> cases h.symm.trans h'
  rfl

theorem chunksFrom_some {span : Span} (h : chunk base c = .done (some span) next) :
    chunksFrom base c =
      match chunksFrom base next with
      | .done spans last => .done (span :: spans) last
      | .more => .more
      | .fail cause => .fail cause := by
  rw [chunksFrom]
  split <;> rename_i h' <;> cases h.symm.trans h'
  rfl

theorem chunksFrom_fail {cause : ParseError} (h : chunk base c = .fail cause) :
    chunksFrom base c = .fail cause := by
  rw [chunksFrom]
  split <;> rename_i h' <;> cases h.symm.trans h'
  rfl

end ChunksFrom

theorem steady_chunksFrom (base : Nat) : Steady (chunksFrom base) := by
  intro c later h
  fun_induction chunksFrom base c with
  | case1 c next hn => exact chunksFrom_none ((steady_chunk base).done later hn)
  | case2 c span next hn spans last hl ih =>
    rw [hl] at ih
    rw [chunksFrom_some ((steady_chunk base).done later hn), ih (by simp)]
    rfl
  | case3 => exact absurd rfl h
  | case4 c span next hn cause hl ih =>
    rw [hl] at ih
    rw [chunksFrom_some ((steady_chunk base).done later hn), ih (by simp)]
    rfl
  | case5 => exact absurd rfl h
  | case6 c cause hn => exact chunksFrom_fail ((steady_chunk base).fail later hn)

theorem closed_chunksFrom (base : Nat) : Closed (chunksFrom base) := by
  intro c spans next h
  fun_induction chunksFrom base c generalizing spans with
  | case1 c mid hm =>
    cases h
    obtain ⟨t, ht, pt, tt⟩ := (sealed_chunk base).closed _ _ _ hm
    exact ⟨t, ht, pt, fun tail => chunksFrom_none (tt tail)⟩
  | case2 c span mid hm spans last hl ih =>
    cases h
    obtain ⟨s, hs, ps, ts⟩ := (sealed_chunk base).closed _ _ _ hm
    obtain ⟨t, ht, pt, tt⟩ := ih _ hl
    refine ⟨s ++ t, by simp [hs, ht], by simp [ps, pt]; omega, fun tail => ?_⟩
    rw [List.append_assoc, chunksFrom_some (ts (t ++ tail)), tt tail]
  | case3 => cases h
  | case4 => cases h
  | case5 => cases h
  | case6 => cases h

theorem steady_chunks : chunks.Steady := fun c later h => steady_chunksFrom c.pos c later h

theorem closed_chunks : chunks.Closed := fun c a next h => closed_chunksFrom c.pos c a next h

theorem data_within {base size : Nat} {c next : Cursor} {s : Span}
    (h : data base size c = .done s next) : s.Within c.pos next.pos ∧ s.len = size := by
  obtain ⟨span, m₁, h₁, h⟩ := bind_eq_done h
  obtain ⟨_, m₂, h₂, h⟩ := bind_eq_done h
  obtain ⟨rfl, rfl⟩ := pure_eq_done h
  have hle₂ := (advances_lineEnd _).forward.pos_le h₂
  split at h₁
  · cases h₁
  · split at h₁
    · cases h₁
    · cases h₁
      exact ⟨⟨Nat.le_refl _, hle₂⟩, rfl⟩

/-- No chunk is empty: the one of size zero ends the body. -/
theorem chunk_within {base : Nat} {c next : Cursor} {s : Span}
    (h : chunk base c = .done (some s) next) : s.Within c.pos next.pos ∧ 0 < s.len := by
  obtain ⟨size, m₁, h₁, h⟩ := bind_eq_done h
  have hle₁ := advances_line.forward.pos_le h₁
  split at h
  · cases (pure_eq_done h).1
  · rename_i hsize
    obtain ⟨span, m₂, h₂, h⟩ := bind_eq_done h
    obtain ⟨he, rfl⟩ := pure_eq_done h
    cases he
    obtain ⟨hw, hlen⟩ := data_within h₂
    exact ⟨hw.mono hle₁ (Nat.le_refl _), hlen ▸ Nat.pos_of_ne_zero hsize⟩

section Chunks

variable {base : Nat} {c next : Cursor} {spans : List Span}

/-- The data of the chunks lies in the body, in order. -/
theorem chain_chunks (h : chunksFrom base c = .done spans next) :
    Span.Chain c.pos next.pos spans := by
  fun_induction chunksFrom base c generalizing spans with
  | case1 c mid hm =>
    cases h
    exact (advances_chunk base).forward.pos_le hm
  | case2 c span mid hm spans last hl ih =>
    cases h
    obtain ⟨hstart, hstop⟩ := (chunk_within hm).1
    exact ⟨hstart, (ih hl).mono_left hstop⟩
  | case3 => cases h
  | case4 => cases h
  | case5 => cases h
  | case6 => cases h

theorem chunks_pos (h : chunksFrom base c = .done spans next) : ∀ s ∈ spans, 0 < s.len := by
  fun_induction chunksFrom base c generalizing spans with
  | case1 c mid hm =>
    cases h
    exact List.forall_mem_nil _
  | case2 c span mid hm spans last hl ih =>
    cases h
    exact List.forall_mem_cons.2 ⟨(chunk_within hm).2, ih hl⟩
  | case3 | case4 | case5 | case6 => cases h

end Chunks

end Http.Chunked

end OriginServer
