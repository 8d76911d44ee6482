import OriginServer.Proofs.Http.Chunked
import OriginServer.Proofs.Http.Field
import OriginServer.Proofs.Http.StartLine

namespace OriginServer.Http

open Ascii Scanner

theorem pairs_of_append {parts : Parts} {b : Bytes} {first : Nat} (later : Bytes)
    (h : ∀ f ∈ parts.fields, f.Within first b.length) :
    parts.pairs (b ++ later) = parts.pairs b := by
  apply List.map_congr_left
  intro f hf
  obtain ⟨hn, hv⟩ := h f hf
  rw [Span.of_append hn.2, Span.of_append hv.2]

section Body

variable {framing : Framing} {parts parts' : Parts} {c next : Cursor}

theorem readBody_chunked {chunks : List Span} {mid : Cursor}
    (h : Chunked.chunks c = .done chunks mid) :
    readBody .chunked parts c =
      ({ parts with body := ⟨c.pos, mid.pos - c.pos⟩, chunks },
        (fieldSection (fun _ => none) 0 mid).2) := by
  simp only [readBody, h]

theorem readBody_append (later : Bytes) (h : (readBody framing parts c).2 ≠ .more) :
    readBody framing parts (c.append later) =
      ((readBody framing parts c).1, (readBody framing parts c).2.append later) := by
  cases framing with
  | empty => rfl
  | length n =>
    simp only [readBody, Cursor.append_pos, Cursor.append_rest, List.length_append] at h ⊢
    by_cases hw : Numeral.wordLimit ≤ c.pos + n
    · simp only [if_pos hw, Scan.append_fail]
    · simp only [if_neg hw] at h ⊢
      by_cases hl : c.rest.length < n
      · exact absurd (by rw [if_pos hl]) h
      · have hl' : ¬ c.rest.length + later.length < n := by omega
        simp only [if_neg hl, if_neg hl', Scan.append_done, Cursor.append,
          List.drop_append_of_le_length (Nat.not_lt.1 hl)]
  | chunked =>
    cases hc : Chunked.chunks c with
    | more => exact absurd (by simp only [readBody, hc]) h
    | fail cause =>
      have hc' := Chunked.steady_chunks.fail later hc
      simp only [readBody, hc, hc', Scan.append_fail]
    | done chunks mid =>
      have hc' := Chunked.steady_chunks.done later hc
      rw [readBody_chunked hc] at h ⊢
      rw [readBody_chunked hc', fieldSection_append later h]
      rfl

/-- A body is read in the same way before any other input. -/
theorem readBody_closed (h : readBody framing parts c = (parts', .done () next)) :
    ∃ taken : Bytes, c.rest = taken ++ next.rest ∧ next.pos = c.pos + taken.length ∧
      ∀ tail : Bytes,
        readBody framing parts ⟨c.pos, taken ++ tail⟩ = (parts', .done () ⟨next.pos, tail⟩) := by
  cases framing with
  | empty =>
    cases h
    exact ⟨[], rfl, rfl, fun _ => rfl⟩
  | length n =>
    simp only [readBody] at h
    split at h
    · cases h
    · rename_i hw
      split at h
      · cases h
      · rename_i hl
        cases h
        have ht : (c.rest.take n).length = n := by
          rw [List.length_take]
          omega
        refine ⟨c.rest.take n, (List.take_append_drop _ _).symm, by rw [ht], fun tail => ?_⟩
        have hl' : ¬ (c.rest.take n ++ tail).length < n := by
          rw [List.length_append, ht]
          omega
        simp only [readBody, if_neg hw, if_neg hl', List.drop_left' ht]
  | chunked =>
    cases hc : Chunked.chunks c with
    | more => simp [readBody, hc] at h
    | fail cause => simp [readBody, hc] at h
    | done chunks mid =>
      rw [readBody_chunked hc] at h
      obtain ⟨hp, hf⟩ := Prod.mk.inj h
      obtain ⟨s, hs, ps, ts⟩ := Chunked.closed_chunks _ _ _ hc
      obtain ⟨t, _, ht, pt, tt⟩ := fieldSection_sealed (Prod.ext rfl hf)
      refine ⟨s ++ t, by simp [hs, ht], by simp [ps, pt]; omega, fun tail => ?_⟩
      rw [List.append_assoc, readBody_chunked (ts (t ++ tail)), tt tail, ← hp]

/-- The chunks of a body lie between its start and its end. -/
theorem readBody_chain
    (h : readBody framing { parts with framing := some framing } c = (parts', .done () next))
    (hf : parts'.framing = some .chunked) :
    parts'.body.start = c.pos ∧ Span.Chain c.pos next.pos parts'.chunks := by
  cases framing with
  | empty =>
    cases h
    cases hf
  | length n =>
    simp only [readBody] at h
    split at h
    · cases h
    · split at h
      · cases h
      · cases h
        cases hf
  | chunked =>
    cases hc : Chunked.chunks c with
    | more => simp [readBody, hc] at h
    | fail cause => simp [readBody, hc] at h
    | done chunks mid =>
      rw [readBody_chunked hc] at h
      obtain ⟨rfl, hs⟩ := Prod.mk.inj h
      obtain ⟨_, _, _, hp, _⟩ := fieldSection_sealed (Prod.ext rfl hs)
      exact ⟨rfl, (Chunked.chain_chunks hc).mono_right (by omega)⟩

/-- The body does not change what is known of the first line and the fields. -/
theorem readBody_head (framing : Framing) (parts : Parts) (c : Cursor) :
    (readBody framing parts c).1.version = parts.version ∧
      (readBody framing parts c).1.start = parts.start ∧
      (readBody framing parts c).1.fields = parts.fields := by
  unfold readBody
  split
  · exact ⟨rfl, rfl, rfl⟩
  · split
    · exact ⟨rfl, rfl, rfl⟩
    · split <;> exact ⟨rfl, rfl, rfl⟩
  · split <;> exact ⟨rfl, rfl, rfl⟩

theorem readBody_framing (framing : Framing) (parts : Parts) (c : Cursor) :
    (readBody framing parts c).1.framing = parts.framing := by
  unfold readBody
  split
  · rfl
  · split
    · rfl
    · split <;> rfl
  · split <;> rfl

end Body

section Head

variable {limits : Limits} {input : Bytes} {parts : Parts} {next : Cursor}

/-- Reads the first line and the fields, up to the empty line. -/
def readHead (limits : Limits) (input : Bytes) : Parts × Scan ParseError Unit :=
  match startLine limits ⟨0, input⟩ with
  | .more => ({}, .more)
  | .fail cause => ({}, .fail cause)
  | .done (version, start) next =>
    ({ version, start := some start, fields := (fieldSection limits.full 0 next).1 },
      (fieldSection limits.full 0 next).2)

theorem readHead_of_done {version : Version} {start : StartLine} {mid : Cursor}
    (h : startLine limits ⟨0, input⟩ = .done (version, start) mid) :
    readHead limits input =
      ({ version, start := some start, fields := (fieldSection limits.full 0 mid).1 },
        (fieldSection limits.full 0 mid).2) := by
  simp only [readHead, h]

theorem readHead_append (later : Bytes) (h : (readHead limits input).2 ≠ .more) :
    readHead limits (input ++ later) =
      ((readHead limits input).1, (readHead limits input).2.append later) := by
  cases hs : startLine limits ⟨0, input⟩ with
  | more => exact absurd (by simp only [readHead, hs]) h
  | fail cause =>
    have hs' : startLine limits ⟨0, input ++ later⟩ = .fail cause :=
      (steady_startLine limits).fail later hs
    simp only [readHead, hs, hs', Scan.append_fail]
  | done a mid =>
    have hs' : startLine limits ⟨0, input ++ later⟩ = .done a (mid.append later) :=
      (steady_startLine limits).done later hs
    rw [readHead_of_done hs] at h ⊢
    rw [readHead_of_done hs', fieldSection_append later h]

/-- The head is read in the same way before any other input. -/
theorem readHead_closed (h : readHead limits input = (parts, .done () next)) :
    ∃ taken : Bytes, input = taken ++ next.rest ∧ next.pos = taken.length ∧ ∀ tail : Bytes,
      readHead limits (taken ++ tail) = (parts, .done () ⟨next.pos, tail⟩) := by
  cases hs : startLine limits ⟨0, input⟩ with
  | more => simp [readHead, hs] at h
  | fail cause => simp [readHead, hs] at h
  | done a mid =>
    rw [readHead_of_done hs] at h
    obtain ⟨hp, hf⟩ := Prod.mk.inj h
    obtain ⟨s, ss, ps, ts⟩ := (sealed_startLine limits).closed _ _ _ hs
    obtain ⟨t, _, st, pt, tt⟩ := fieldSection_sealed (Prod.ext rfl hf)
    have hi : input = s ++ mid.rest := ss
    simp only [Nat.zero_add] at ps
    refine ⟨s ++ t, by simp [hi, st], by simp [ps, pt], fun tail => ?_⟩
    rw [List.append_assoc, readHead_of_done (ts (t ++ tail)), tt tail, ← hp]

/-- All that is known of the first line and the fields lies in front of `stop`. -/
def Parts.HeadWithin (p : Parts) (stop : Nat) : Prop :=
  (∀ start ∈ p.start, ∀ s ∈ start.spans, s.Within 0 stop) ∧ ∀ f ∈ p.fields, f.Within 0 stop

theorem readHead_within (h : readHead limits input = (parts, .done () next)) :
    parts.HeadWithin next.pos := by
  cases hs : startLine limits ⟨0, input⟩ with
  | more => simp [readHead, hs] at h
  | fail cause => simp [readHead, hs] at h
  | done a mid =>
    rw [readHead_of_done hs] at h
    obtain ⟨rfl, hf⟩ := Prod.mk.inj h
    obtain ⟨hle, hw⟩ := fieldSection_within (Prod.ext rfl hf)
    refine ⟨fun start hm s hmem => ?_,
      fun f hmem => (hw f hmem).mono (Nat.zero_le _) (Nat.le_refl _)⟩
    cases hm
    exact (startLine_within hs s hmem).mono (Nat.le_refl _) hle

/-- What was understood of the head stays when more bytes arrive. -/
theorem readHead_grows (later : Bytes) :
    ((readHead limits input).1.start = none ∨
      (readHead limits input).1.start = (readHead limits (input ++ later)).1.start) ∧
    (readHead limits input).1.fields <+: (readHead limits (input ++ later)).1.fields := by
  cases hs : startLine limits ⟨0, input⟩ with
  | more => simp [readHead, hs]
  | fail cause => simp [readHead, hs]
  | done a mid =>
    have hs' : startLine limits ⟨0, input ++ later⟩ = .done a (mid.append later) :=
      (steady_startLine limits).done later hs
    rw [readHead_of_done hs, readHead_of_done hs']
    exact ⟨.inr rfl, fieldSection_prefix later⟩

end Head

section Message

variable {limits : Limits} {input : Bytes} {parts : Parts} {next : Cursor}

theorem readMessage_eq (limits : Limits) (input : Bytes) :
    readMessage limits input =
      match readHead limits input with
      | (parts, .more) => (parts, .more)
      | (parts, .fail cause) => (parts, .fail cause)
      | (parts, .done () next) =>
        match Framing.decide (parts.pairs input) with
        | .error cause => (parts, .fail cause)
        | .ok framing => readBody framing { parts with framing := some framing } next := by
  simp only [readMessage, readHead]
  cases startLine limits ⟨0, input⟩ with
  | more => rfl
  | fail cause => rfl
  | done a mid =>
    obtain ⟨version, start⟩ := a
    dsimp only
    cases (fieldSection limits.full 0 mid).2 <;> rfl

theorem readMessage_of_head {framing : Framing} {mid : Cursor}
    (h : readHead limits input = (parts, .done () mid))
    (hf : Framing.decide (parts.pairs input) = .ok framing) :
    readMessage limits input = readBody framing { parts with framing := some framing } mid := by
  rw [readMessage_eq, h]
  simp only [hf]

theorem pairs_of_head (later : Bytes) (h : readHead limits input = (parts, .done () next)) :
    parts.pairs (input ++ later) = parts.pairs input := by
  obtain ⟨taken, hi, hp, -⟩ := readHead_closed h
  refine pairs_of_append later fun f hm => ((readHead_within h).2 f hm).mono (Nat.le_refl _) ?_
  rw [hi, List.length_append]
  omega

/-- The first line and the fields of a message are those of its head. -/
theorem readMessage_head (limits : Limits) (input : Bytes) :
    (readMessage limits input).1.version = (readHead limits input).1.version ∧
      (readMessage limits input).1.start = (readHead limits input).1.start ∧
      (readMessage limits input).1.fields = (readHead limits input).1.fields := by
  rw [readMessage_eq]
  split
  · rename_i h
    simp only [h, and_self]
  · rename_i h
    simp only [h, and_self]
  · rename_i parts next h
    split
    · simp only [h, and_self]
    · rw [h]
      exact readBody_head _ _ _

/-- An answer about a message stays when more bytes arrive. -/
theorem readMessage_append (later : Bytes) (h : (readMessage limits input).2 ≠ .more) :
    readMessage limits (input ++ later) =
      ((readMessage limits input).1, (readMessage limits input).2.append later) := by
  cases hh : readHead limits input with
  | mk parts outcome =>
    have hm : (readHead limits input).2 ≠ .more := by
      intro hm
      rw [hh] at hm
      subst hm
      rw [readMessage_eq, hh] at h
      exact h rfl
    have hh' := readHead_append later hm
    rw [hh] at hh'
    cases outcome with
    | more => exact absurd (by rw [hh]) hm
    | fail cause =>
      rw [readMessage_eq, readMessage_eq, hh, hh']
      rfl
    | done a mid =>
      have hp : parts.pairs (input ++ later) = parts.pairs input := pairs_of_head later hh
      cases hf : Framing.decide (parts.pairs input) with
      | error cause =>
        rw [readMessage_eq, readMessage_eq, hh, hh']
        simp only [Scan.append_done, hp, hf, Scan.append_fail]
      | ok framing =>
        rw [readMessage_of_head hh hf] at h ⊢
        rw [readMessage_of_head hh' (hp ▸ hf), readBody_append later h]

/-- The head of a message is a first line and an empty one, at least. -/
theorem readHead_least (h : readHead limits input = (parts, .done () next)) : 16 ≤ next.pos := by
  cases hs : startLine limits ⟨0, input⟩ with
  | more => simp [readHead, hs] at h
  | fail cause => simp [readHead, hs] at h
  | done a mid =>
    rw [readHead_of_done hs] at h
    have hmark : Version.mark.length = 5 := by decide
    have hfirst := (takes_startLine limits).pos_le (advances_startLine limits).forward hs
    have hsection : (fieldSection limits.full 0 mid).2 = .done () next := congrArg Prod.snd h
    have hfields := fieldSection_takes (Prod.ext rfl hsection)
    dsimp only at hfirst
    omega

/-- No message of fewer than sixteen bytes is complete. -/
theorem readMessage_least (h : readMessage limits input = (parts, .done () next)) :
    16 ≤ next.pos := by
  cases hh : readHead limits input with
  | mk head outcome =>
    cases outcome with
    | more => simp [readMessage_eq, hh] at h
    | fail cause => simp [readMessage_eq, hh] at h
    | done a mid =>
      cases hf : Framing.decide (head.pairs input) with
      | error cause => simp [readMessage_eq, hh, hf] at h
      | ok framing =>
        rw [readMessage_of_head hh hf] at h
        exact Nat.le_trans (readHead_least hh) (readBody_pos h)

/-- A complete message is read in the same way before any other input. -/
theorem readMessage_closed (h : readMessage limits input = (parts, .done () next)) :
    ∃ taken : Bytes, input = taken ++ next.rest ∧ next.pos = taken.length ∧ ∀ tail : Bytes,
      readMessage limits (taken ++ tail) = (parts, .done () ⟨next.pos, tail⟩) := by
  cases hh : readHead limits input with
  | mk head outcome =>
    cases outcome with
    | more => simp [readMessage_eq, hh] at h
    | fail cause => simp [readMessage_eq, hh] at h
    | done a mid =>
      cases hf : Framing.decide (head.pairs input) with
      | error cause => simp [readMessage_eq, hh, hf] at h
      | ok framing =>
        rw [readMessage_of_head hh hf] at h
        obtain ⟨s, hs, ps, ts⟩ := readHead_closed hh
        obtain ⟨t, ht, pt, tt⟩ := readBody_closed h
        refine ⟨s ++ t, by simp [hs, ht], by simp [ps, pt], fun tail => ?_⟩
        -- The fields lie in `s`, so what follows it does not change the framing.
        have hp : head.pairs (s ++ (t ++ tail)) = head.pairs input := by
          rw [hs, pairs_of_head (t ++ tail) (by simpa using ts []),
            pairs_of_head mid.rest (by simpa using ts [])]
        rw [List.append_assoc, readMessage_of_head (ts (t ++ tail)) (hp ▸ hf), tt tail]

theorem readMessage_pos_le (h : readMessage limits input = (parts, .done () next)) :
    next.pos ≤ input.length := by
  obtain ⟨taken, hi, hp, -⟩ := readMessage_closed h
  rw [hi, List.length_append]
  omega

theorem readMessage_rest (h : readMessage limits input = (parts, .done () next)) :
    next.rest = input.drop next.pos := by
  obtain ⟨taken, hi, hp, -⟩ := readMessage_closed h
  rw [hi, hp, List.drop_left]

theorem readMessage_take (h : readMessage limits input = (parts, .done () next)) :
    readMessage limits (input.take next.pos) = (parts, .done () ⟨next.pos, []⟩) := by
  obtain ⟨taken, hi, hp, ht⟩ := readMessage_closed h
  rw [hi, hp, List.take_left, ← hp]
  simpa using ht []

/-- Less than a complete message is never decided. -/
theorem readMessage_take_of_lt {m : Nat} (h : readMessage limits input = (parts, .done () next))
    (hm : m < next.pos) : (readMessage limits (input.take m)).2 = .more := by
  have hi (hne : (readMessage limits (input.take m)).2 ≠ .more) :
      .done () next = (readMessage limits (input.take m)).2.append (input.drop m) := by
    have ha := readMessage_append (input.drop m) hne
    rw [List.take_append_drop, h] at ha
    exact congrArg Prod.snd ha
  cases hs : (readMessage limits (input.take m)).2 with
  | more => rfl
  | fail cause =>
    rw [hs] at hi
    cases hi nofun
  | done a early =>
    rw [hs] at hi
    have hi := hi nofun
    have he : early.pos ≤ (input.take m).length := readMessage_pos_le (Prod.ext rfl hs)
    have hn : next.pos = early.pos := by
      cases hi
      rfl
    rw [List.length_take] at he
    omega

/-- The head of a message lies in front of its chunks. -/
theorem readMessage_places (h : readMessage limits input = (parts, .done () next)) :
    ∃ stop, parts.HeadWithin stop ∧ stop ≤ next.pos ∧
      (parts.framing = some .chunked →
        parts.body.start = stop ∧ Span.Chain stop next.pos parts.chunks) := by
  cases hh : readHead limits input with
  | mk head outcome =>
    cases outcome with
    | more => simp [readMessage_eq, hh] at h
    | fail cause => simp [readMessage_eq, hh] at h
    | done a mid =>
      cases hf : Framing.decide (head.pairs input) with
      | error cause => simp [readMessage_eq, hh, hf] at h
      | ok framing =>
        rw [readMessage_of_head hh hf] at h
        obtain ⟨-, hs, hv⟩ := readBody_head framing { head with framing := some framing } mid
        obtain ⟨ws, wf⟩ := readHead_within hh
        rw [h] at hs hv
        refine ⟨mid.pos, ⟨?_, ?_⟩, readBody_pos h, readBody_chain h⟩
        · rw [hs]
          exact ws
        · rw [hv]
          exact wf

/-- Where the chunks of a message were read: between its head and its end. -/
theorem readMessage_section (h : readMessage limits input = (parts, .done () next))
    (hf : parts.framing = some .chunked) :
    ∃ mid last, (readHead limits input).2 = .done () mid ∧
      Chunked.chunks mid = .done parts.chunks last ∧
      parts.body = ⟨mid.pos, last.pos - mid.pos⟩ ∧ last.pos ≤ next.pos := by
  cases hh : readHead limits input with
  | mk head outcome =>
    cases outcome with
    | more => simp [readMessage_eq, hh] at h
    | fail cause => simp [readMessage_eq, hh] at h
    | done a mid =>
      cases hd : Framing.decide (head.pairs input) with
      | error cause => simp [readMessage_eq, hh, hd] at h
      | ok framing =>
        rw [readMessage_of_head hh hd] at h
        have hframing := readBody_framing framing { head with framing := some framing } mid
        rw [h] at hframing
        obtain rfl := Option.some.inj (hframing.symm.trans hf)
        cases hc : Chunked.chunks mid with
        | more => simp [readBody, hc] at h
        | fail cause => simp [readBody, hc] at h
        | done chunks last =>
          rw [readBody_chunked hc] at h
          obtain ⟨rfl, htrailer⟩ := Prod.mk.inj h
          exact ⟨mid, last, rfl, hc, rfl, (fieldSection_within (Prod.ext rfl htrailer)).1⟩

theorem readMessage_grows (later : Bytes) :
    ((readMessage limits input).1.start = none ∨
      (readMessage limits input).1.start = (readMessage limits (input ++ later)).1.start) ∧
    (readMessage limits input).1.fields <+: (readMessage limits (input ++ later)).1.fields := by
  obtain ⟨-, hs, hf⟩ := readMessage_head limits input
  obtain ⟨-, hs', hf'⟩ := readMessage_head limits (input ++ later)
  rw [hs, hf, hs', hf']
  exact readHead_grows later

/-- Reading is sound at every point of arrival: a refusal is final, a complete message is decided
by its last byte and by nothing behind it, and what was understood before that is kept. -/
theorem readMessage_incremental (limits : Limits) (input later : Bytes) :
    (∀ cause, (readMessage limits input).2 = .fail cause →
      (readMessage limits (input ++ later)).2 = .fail cause) ∧
    (∀ parts next, readMessage limits input = (parts, .done () next) →
      next.pos ≤ input.length ∧
      readMessage limits (input ++ later) = (parts, .done () ⟨next.pos, next.rest ++ later⟩) ∧
      readMessage limits (input.take next.pos) = (parts, .done () ⟨next.pos, []⟩) ∧
      ∀ m < next.pos, (readMessage limits (input.take m)).2 = .more) ∧
    ((readMessage limits input).2 = .more →
      ((readMessage limits input).1.start = none ∨
        (readMessage limits input).1.start = (readMessage limits (input ++ later)).1.start) ∧
      (readMessage limits input).1.fields <+: (readMessage limits (input ++ later)).1.fields) := by
  refine ⟨fun cause h => ?_, fun parts next h => ⟨readMessage_pos_le h, ?_, readMessage_take h,
    fun m hm => readMessage_take_of_lt h hm⟩, fun _ => readMessage_grows later⟩
  · rw [readMessage_append later (by simp [h]), h]
    rfl
  · rw [readMessage_append later (by simp [h]), h]
    rfl

end Message

end OriginServer.Http
