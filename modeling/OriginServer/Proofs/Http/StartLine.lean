import OriginServer.Http.Message
import OriginServer.Proofs.Http.Token
import OriginServer.Proofs.Span

namespace OriginServer.Http

open Ascii Scanner

variable {isUrl : String → Bool}

theorem steady_digit (e : ParseError) : (digit e).Steady :=
  (steady_satisfy _ _).bind fun _ => steady_pure _

theorem closed_digit (e : ParseError) : (digit e).Closed :=
  (closed_satisfy _ _).bind fun _ => closed_pure _

/-- A version at the end of the input may turn out to have too many digits. -/
theorem steadyInside_version : version.SteadyInside :=
  (steady_run _).bind_inside fun _ => (steady_caseless _ _).bind_inside fun _ =>
    (steady_digit _).bind_inside fun _ => (steady_byte _ _).bind_inside fun _ =>
      (steady_digit _).bind_inside fun _ => (steadyInside_notBefore _ _).bind_pure _

theorem local_version : version.Local :=
  (local_run _).bind fun _ => (closed_caseless _ _).toLocal.bind fun _ =>
    (closed_digit _).toLocal.bind fun _ => (closed_byte _ _).toLocal.bind fun _ =>
      (closed_digit _).toLocal.bind fun _ => (local_notBefore _ _).bind fun _ =>
        (closed_pure _).toLocal

theorem starves_version : version.Starves := (starves_run _).bind _

theorem takes_digit (e : ParseError) : Takes 1 (digit e) :=
  (advances_satisfy _ _).takes.bind fun _ => forward_pure _

/-- A version has a dot between two digits behind its mark. -/
theorem takes_version : Takes (Version.mark.length + 3) version :=
  (forward_run _).bind_takes fun _ => (takes_caseless _ _).bind_takes fun _ =>
    (takes_digit _).bind_takes fun _ => (advances_byte _ _).takes.bind_takes fun _ =>
      (takes_digit _).bind fun _ => (forward_notBefore _ _).bind fun _ => forward_pure _

theorem steady_methodName (limit : Nat) : (methodName limit).Steady := by
  refine steady_position.bind fun _ => Steady.bind ?_ fun _ => (steady_ensure _ _).bind fun _ =>
    steady_pure _
  refine steady_runUnless isTokenByte (fun w => limit < w.length) _ fun w x h => ?_
  rw [List.length_append]
  omega

theorem local_methodName (limit : Nat) : (methodName limit).Local :=
  closed_position.toLocal.bind fun _ => Local.bind
    (local_runUnless isTokenByte (fun w => limit < w.length) _) fun _ =>
      (closed_ensure _ _).toLocal.bind fun _ => (closed_pure _).toLocal

/-- No method is empty. -/
theorem takes_methodName (limit : Nat) : Takes 1 (methodName limit) := by
  intro c s next h
  obtain ⟨start, m₁, h₁, h⟩ := bind_eq_done h
  obtain ⟨rfl, rfl⟩ := position_eq_done h₁
  obtain ⟨name, m₂, h₂, h⟩ := bind_eq_done h
  obtain ⟨_, m₃, h₃, h⟩ := bind_eq_done h
  obtain ⟨rfl, rfl⟩ := pure_eq_done h
  obtain ⟨hname, rfl⟩ := ensure_eq_done h₃
  have hr : m₁.rest = name ++ next.rest := by
    split at h₂
    · cases h₂
    · exact (run_eq_done h₂).1
  have hpos : 0 < name.length := by simpa [List.length_pos_iff] using hname
  rw [hr, List.length_append]
  omega

theorem steady_requestTarget : (requestTarget isUrl).Steady :=
  steady_position.bind fun _ => (steady_run _).bind fun _ => (steady_byte _ _).bind fun _ =>
    (steady_ensure _ _).bind fun _ => (steady_ensure _ _).bind fun _ => steady_pure _

theorem local_requestTarget : (requestTarget isUrl).Local :=
  closed_position.toLocal.bind fun _ => (local_run _).bind fun _ =>
    (closed_byte _ _).toLocal.bind fun _ => (closed_ensure _ _).toLocal.bind fun _ =>
      (closed_ensure _ _).toLocal.bind fun _ => (closed_pure _).toLocal

theorem steady_requestLine (limit : Nat) : (requestLine isUrl limit).Steady :=
  (steady_methodName _).bind fun _ => (steady_byte _ _).bind fun _ => steady_requestTarget.bind
    fun _ => (steadyInside_notBefore _ _).bind
      (fun _ => steadyInside_version.bind
        (fun _ => (steady_lineEnd _).bind fun _ => steady_pure _)
        fun _ => (starves_lineEnd _).bind _)
      fun _ => starves_version.bind _

theorem sealed_requestLine (limit : Nat) : (requestLine isUrl limit).Sealed :=
  (local_methodName _).bind_sealed fun _ => (closed_byte _ _).toLocal.bind_sealed fun _ =>
    local_requestTarget.bind_sealed fun _ => (local_notBefore _ _).bind_sealed fun _ =>
      local_version.bind_sealed fun _ => (sealed_lineEnd _).bind fun _ => closed_pure _

/-- No target is empty, and a space follows it. -/
theorem takes_requestTarget : Takes 2 (requestTarget isUrl) := by
  intro c s next h
  obtain ⟨start, m₁, h₁, h⟩ := bind_eq_done h
  obtain ⟨rfl, rfl⟩ := position_eq_done h₁
  obtain ⟨target, m₂, h₂, h⟩ := bind_eq_done h
  obtain ⟨_, m₃, h₃, h⟩ := bind_eq_done h
  obtain ⟨_, m₄, h₄, h⟩ := bind_eq_done h
  obtain ⟨_, m₅, h₅, h⟩ := bind_eq_done h
  obtain ⟨rfl, rfl⟩ := pure_eq_done h
  obtain ⟨htarget, rfl⟩ := ensure_eq_done h₄
  obtain ⟨-, rfl⟩ := ensure_eq_done h₅
  have hr := (run_eq_done h₂).1
  have hspace := (advances_byte _ _).rest_lt h₃
  have hpos : 0 < target.length := by simpa [List.length_pos_iff] using htarget
  rw [hr, List.length_append]
  omega

theorem takes_requestLine (limit : Nat) :
    Takes (Version.mark.length + 9) (requestLine isUrl limit) := by
  have hsum : Takes (1 + (1 + (2 + (Version.mark.length + 3 + 2)))) (requestLine isUrl limit) :=
    (takes_methodName _).bind_takes fun _ => (advances_byte _ _).takes.bind_takes fun _ =>
      takes_requestTarget.bind_takes fun _ => (forward_notBefore _ _).bind_takes fun _ =>
        takes_version.bind_takes fun _ => (takes_lineEnd _).bind fun _ => forward_pure _
  exact hsum.mono (by omega)

theorem steady_statusLine : statusLine.Steady :=
  steadyInside_version.bind
    (fun _ => (steady_byte _ _).bind fun _ => (steady_digit _).bind fun _ => (steady_digit _).bind
      fun _ => (steady_digit _).bind fun _ => (steady_byte _ _).bind fun _ => steady_position.bind
        fun _ => (steady_run _).bind fun _ => (steady_lineEnd _).bind fun _ => steady_pure _)
    fun _ => (starves_byte _ _).bind _

theorem sealed_statusLine : statusLine.Sealed :=
  local_version.bind_sealed fun _ => (closed_byte _ _).toLocal.bind_sealed fun _ =>
    (closed_digit _).toLocal.bind_sealed fun _ => (closed_digit _).toLocal.bind_sealed fun _ =>
      (closed_digit _).toLocal.bind_sealed fun _ => (closed_byte _ _).toLocal.bind_sealed fun _ =>
        closed_position.toLocal.bind_sealed fun _ => (local_run _).bind_sealed fun _ =>
          (sealed_lineEnd _).bind fun _ => closed_pure _

theorem takes_statusLine : Takes (Version.mark.length + 10) statusLine := by
  have hsum : Takes (Version.mark.length + 3 + (1 + (1 + (1 + (1 + (1 + 2)))))) statusLine :=
    takes_version.bind_takes fun _ => (advances_byte _ _).takes.bind_takes fun _ =>
      (takes_digit _).bind_takes fun _ => (takes_digit _).bind_takes fun _ =>
        (takes_digit _).bind_takes fun _ => (advances_byte _ _).takes.bind_takes fun _ =>
          forward_position.bind_takes fun _ => (forward_run _).bind_takes fun _ =>
            (takes_lineEnd _).bind fun _ => forward_pure _
  exact hsum.mono (by omega)

/-- The first line of a response, as that of a message. -/
def statusStart : Scanner ParseError (Version × StartLine) := do
  let l ← statusLine
  return (l.version, .status l.code l.phrase)

/-- The first line of a request, as that of a message. -/
def requestStart (limit : Nat) : Scanner ParseError (Version × StartLine) := do
  let l ← requestLine Target.isUrl limit
  return (l.version, .request l.method l.target)

/-- The bytes begin with the mark of a version, as far as they go. -/
def looksLikeStatus (input : Bytes) : Bool :=
  let n := min Version.mark.length input.length
  Bytes.sameLetters (input.take n) (Version.mark.take n)

theorem startLine_eq (limits : Limits) (c : Cursor) :
    startLine limits c =
      if looksLikeStatus c.rest then
        if c.rest.length < Version.mark.length then .more else statusStart c
      else requestStart limits.maxMethodLength c := by
  have hn : (c.rest.take Version.mark.length).length = min Version.mark.length c.rest.length :=
    List.length_take
  have ht : c.rest.take Version.mark.length =
      c.rest.take (min Version.mark.length c.rest.length) := by
    rcases Nat.le_total Version.mark.length c.rest.length with h | h
    · rw [Nat.min_eq_left h]
    · rw [Nat.min_eq_right h, List.take_of_length_le h, List.take_length]
  have hl : (min Version.mark.length c.rest.length < Version.mark.length) =
      (c.rest.length < Version.mark.length) := by
    apply propext
    omega
  simp only [startLine, hn]
  simp only [ht, hl, looksLikeStatus, statusStart, requestStart, bind_pure_apply]
  cases statusLine c <;> cases requestLine Target.isUrl limits.maxMethodLength c <;> rfl

/-- Bytes that begin otherwise than the mark still do when more bytes follow. -/
theorem looksLikeStatus_of_append {input later : Bytes} (h : looksLikeStatus (input ++ later)) :
    looksLikeStatus input := by
  have hle : min Version.mark.length input.length ≤
      min Version.mark.length (input ++ later).length := by
    rw [List.length_append]
    omega
  have hm : min Version.mark.length input.length ≤ (input.map Ascii.toLower).length := by
    rw [List.length_map]
    omega
  simp only [looksLikeStatus, Bytes.sameLetters, beq_iff_eq, List.map_take] at h ⊢
  have ht := congrArg (List.take (min Version.mark.length input.length)) h
  rw [List.take_take, List.take_take, Nat.min_eq_left hle, List.map_append,
    List.take_append_of_le_length hm] at ht
  exact ht

theorem looksLikeStatus_append {input later : Bytes} (hl : Version.mark.length ≤ input.length) :
    looksLikeStatus (input ++ later) ↔ looksLikeStatus input := by
  refine ⟨looksLikeStatus_of_append, fun h => ?_⟩
  have hl' : Version.mark.length ≤ (input ++ later).length := by
    rw [List.length_append]
    omega
  simp only [looksLikeStatus, Nat.min_eq_left hl, Nat.min_eq_left hl'] at h ⊢
  rwa [List.take_append_of_le_length hl]

theorem steady_startLine (limits : Limits) : Steady (startLine limits) := by
  intro c later h
  have hstatus : statusStart.Steady := steady_statusLine.bind fun _ => steady_pure _
  have hrequest : (requestStart limits.maxMethodLength).Steady :=
    (steady_requestLine _).bind fun _ => steady_pure _
  rw [startLine_eq] at h
  rw [startLine_eq, startLine_eq]
  by_cases hs : looksLikeStatus c.rest
  · rw [if_pos hs] at h ⊢
    by_cases hl : c.rest.length < Version.mark.length
    · exact absurd (if_pos hl) h
    · rw [if_neg hl] at h ⊢
      have hl' : ¬ (c.rest ++ later).length < Version.mark.length := by
        rw [List.length_append]
        omega
      rw [Cursor.append_rest, if_pos ((looksLikeStatus_append (Nat.not_lt.1 hl)).2 hs), if_neg hl']
      exact hstatus c later h
  · rw [if_neg hs] at h ⊢
    rw [Cursor.append_rest, if_neg fun hs' => hs (looksLikeStatus_of_append hs')]
    exact hrequest c later h

theorem sealed_startLine (limits : Limits) : Sealed (startLine limits) := by
  refine ⟨fun c a next h => ?_, advances_startLine limits⟩
  have hstatus : statusStart.Sealed := sealed_statusLine.bind fun _ => closed_pure _
  have hrequest : (requestStart limits.maxMethodLength).Sealed :=
    (sealed_requestLine _).bind fun _ => closed_pure _
  -- Either line takes the bytes that tell it from the other.
  have seen {taken : Bytes} (hr : c.rest = taken ++ next.rest)
      (hl : next.rest.length + Version.mark.length ≤ c.rest.length) (tail : Bytes) :
      (looksLikeStatus (taken ++ tail) ↔ looksLikeStatus c.rest) ∧
        Version.mark.length ≤ (taken ++ tail).length := by
    have hk : Version.mark.length ≤ taken.length := by
      rw [hr, List.length_append] at hl
      omega
    rw [hr, looksLikeStatus_append hk, looksLikeStatus_append hk, List.length_append]
    exact ⟨Iff.rfl, by omega⟩
  rw [startLine_eq] at h
  split at h
  · rename_i hs
    split at h
    · cases h
    · obtain ⟨taken, hr, hp, ht⟩ := hstatus.closed c a next h
      have hl := (takes_statusLine.bind fun _ => forward_pure _) c a next h
      refine ⟨taken, hr, hp, fun tail => ?_⟩
      obtain ⟨hs', hl'⟩ := seen hr (by omega) tail
      rw [startLine_eq, if_pos (hs'.2 hs), if_neg (Nat.not_lt.2 hl')]
      exact ht tail
  · rename_i hs
    obtain ⟨taken, hr, hp, ht⟩ := hrequest.closed c a next h
    have hl := ((takes_requestLine _).bind fun _ => forward_pure _) c a next h
    refine ⟨taken, hr, hp, fun tail => ?_⟩
    rw [startLine_eq, if_neg fun hs' => hs ((seen hr (by omega) tail).1.1 hs')]
    exact ht tail

/-- A first line of either kind is at least a mark and nine bytes long. -/
theorem takes_startLine (limits : Limits) : Takes (Version.mark.length + 9) (startLine limits) := by
  intro c a next h
  rw [startLine_eq] at h
  split at h
  · split at h
    · cases h
    · have hl := (takes_statusLine.bind fun _ => forward_pure _) c a next h
      omega
  · exact ((takes_requestLine _).bind fun _ => forward_pure _) c a next h

/-- The places that a first line names. -/
def StartLine.spans : StartLine → List Span
  | request method target => [method, target]
  | status _ phrase => [phrase]

theorem methodName_within {limit : Nat} {c next : Cursor} {s : Span}
    (h : methodName limit c = .done s next) : s.Within c.pos next.pos := by
  obtain ⟨start, m₁, h₁, h⟩ := bind_eq_done h
  obtain ⟨rfl, rfl⟩ := position_eq_done h₁
  obtain ⟨name, m₂, h₂, h⟩ := bind_eq_done h
  obtain ⟨_, m₃, h₃, h⟩ := bind_eq_done h
  obtain ⟨rfl, rfl⟩ := pure_eq_done h
  have hp : m₂.pos = m₁.pos + name.length := by
    split at h₂
    · cases h₂
    · exact (run_eq_done h₂).2.1
  have hle := (forward_ensure _ _).pos_le h₃
  exact ⟨Nat.le_refl _, by simp only [Span.stop]; omega⟩

theorem requestTarget_ended {c next : Cursor} {s : Span}
    (h : requestTarget isUrl c = .done s next) : s.ended.Within c.pos next.pos := by
  obtain ⟨start, m₁, h₁, h⟩ := bind_eq_done h
  obtain ⟨rfl, rfl⟩ := position_eq_done h₁
  obtain ⟨target, m₂, h₂, h⟩ := bind_eq_done h
  obtain ⟨_, m₃, h₃, h⟩ := bind_eq_done h
  obtain ⟨_, m₄, h₄, h⟩ := bind_eq_done h
  obtain ⟨_, m₅, h₅, h⟩ := bind_eq_done h
  obtain ⟨rfl, rfl⟩ := pure_eq_done h
  have hp := (run_eq_done h₂).2.1
  have hlt₁ := (advances_byte _ _).pos_lt h₃
  have hle₂ := (forward_ensure _ _).pos_le h₄
  have hle₃ := (forward_ensure _ _).pos_le h₅
  exact ⟨Nat.le_refl _, by simp only [Span.ended, Span.stop]; omega⟩

/-- Method and target are each followed by a space. -/
theorem requestLine_apart {limit : Nat} {c next : Cursor} {l : RequestLine}
    (h : requestLine isUrl limit c = .done l next) :
    Span.Apart c.pos next.pos [l.method, l.target] := by
  obtain ⟨method, m₁, h₁, h⟩ := bind_eq_done h
  obtain ⟨_, m₂, h₂, h⟩ := bind_eq_done h
  obtain ⟨target, m₃, h₃, h⟩ := bind_eq_done h
  obtain ⟨_, m₄, h₄, h⟩ := bind_eq_done h
  obtain ⟨v, m₅, h₅, h⟩ := bind_eq_done h
  obtain ⟨_, m₆, h₆, h⟩ := bind_eq_done h
  obtain ⟨rfl, rfl⟩ := pure_eq_done h
  obtain ⟨hstart, hstop⟩ := methodName_within h₁
  have hlt₂ := (advances_byte _ _).pos_lt h₂
  obtain ⟨hstart', hstop'⟩ := requestTarget_ended h₃
  have hle₄ := (forward_notBefore _ _).pos_le h₄
  have hle₅ := forward_version.pos_le h₅
  have hle₆ := (advances_lineEnd _).forward.pos_le h₆
  refine ⟨hstart, ?_, ?_⟩
  · simp only [Span.ended_start, Span.ended_stop] at hstart' ⊢
    omega
  · exact Nat.le_trans hstop' (by omega)

/-- The reason is followed by the line break. -/
theorem statusLine_apart {c next : Cursor} {l : StatusLine}
    (h : statusLine c = .done l next) : Span.Apart c.pos next.pos [l.phrase] := by
  obtain ⟨v, m₁, h₁, h⟩ := bind_eq_done h
  obtain ⟨_, m₂, h₂, h⟩ := bind_eq_done h
  obtain ⟨_, m₃, h₃, h⟩ := bind_eq_done h
  obtain ⟨_, m₄, h₄, h⟩ := bind_eq_done h
  obtain ⟨_, m₅, h₅, h⟩ := bind_eq_done h
  obtain ⟨_, m₆, h₆, h⟩ := bind_eq_done h
  obtain ⟨start, m₇, h₇, h⟩ := bind_eq_done h
  obtain ⟨rfl, rfl⟩ := position_eq_done h₇
  obtain ⟨phrase, m₈, h₈, h⟩ := bind_eq_done h
  obtain ⟨_, m₉, h₉, h⟩ := bind_eq_done h
  obtain ⟨rfl, rfl⟩ := pure_eq_done h
  have hle₁ := forward_version.pos_le h₁
  have hle₂ := (advances_byte _ _).forward.pos_le h₂
  have hle₃ := (forward_digit _).pos_le h₃
  have hle₄ := (forward_digit _).pos_le h₄
  have hle₅ := (forward_digit _).pos_le h₅
  have hle₆ := (advances_byte _ _).forward.pos_le h₆
  have hp := (run_eq_done h₈).2.1
  have hlt₉ := (advances_lineEnd _).pos_lt h₉
  refine ⟨?_, ?_⟩
  · simp only [Span.ended_start]
    omega
  · simp only [Span.ended, Span.stop, List.map_nil, Span.Chain]
    omega

theorem startLine_apart {limits : Limits} {c next : Cursor} {v : Version} {start : StartLine}
    (h : startLine limits c = .done (v, start) next) :
    Span.Apart c.pos next.pos start.spans := by
  rw [startLine_eq] at h
  split at h
  · split at h
    · cases h
    · obtain ⟨l, mid, hl, hn⟩ := bind_eq_done h
      obtain ⟨he, rfl⟩ := pure_eq_done hn
      cases he
      exact statusLine_apart hl
  · obtain ⟨l, mid, hl, hn⟩ := bind_eq_done h
    obtain ⟨he, rfl⟩ := pure_eq_done hn
    cases he
    exact requestLine_apart hl

theorem startLine_within {limits : Limits} {c next : Cursor} {v : Version} {start : StartLine}
    (h : startLine limits c = .done (v, start) next) :
    ∀ s ∈ start.spans, s.Within c.pos next.pos :=
  (startLine_apart h).within

end OriginServer.Http
