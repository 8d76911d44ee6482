import OriginServer.Http.Chunked
import OriginServer.Http.Framing
import OriginServer.Http.StartLine

namespace OriginServer.Http

open Ascii Scanner

inductive StartLine where
  | request (method target : Span)
  | status (code : Nat) (phrase : Span)
  deriving Repr, DecidableEq

/-- What was understood of a message, as places in its bytes. -/
structure Parts where
  version : Version := ⟨0, 0⟩
  start : Option StartLine := none
  fields : List Field := []
  framing : Option Framing := none
  body : Span := ⟨0, 0⟩
  chunks : List Span := []
  deriving Repr, DecidableEq

/-- Bounds on the start line and the field section. -/
structure Limits where
  fieldCapacity : Nat := 64
  maxMethodLength : Nat := 16
  deriving Repr, DecidableEq

namespace Parts

/-- Name and value of every field. -/
def pairs (p : Parts) (input : Bytes) : List (Bytes × Bytes) :=
  p.fields.map fun f => (f.name.of input, f.value.of input)

/-- The values of the fields with a name, in order of arrival. -/
def values (p : Parts) (input : Bytes) (name : String) : List Bytes :=
  Framing.valuesOf name (p.pairs input)

end Parts

/-- The first line of a message. One that begins like a version belongs to a response. -/
def startLine (limits : Limits) (c : Cursor) : Scan ParseError (Version × StartLine) :=
  let seen := c.rest.take Version.mark.length
  if Bytes.sameLetters seen (Version.mark.take seen.length) then
    if seen.length < Version.mark.length then .more
    else
      match statusLine c with
      | .done l next => .done (l.version, .status l.code l.phrase) next
      | .more => .more
      | .fail cause => .fail cause
  else
    match requestLine Target.isUrl limits.maxMethodLength c with
    | .done l next => .done (l.version, .request l.method l.target) next
    | .more => .more
    | .fail cause => .fail cause

/-- Why one more field is refused, once `count` fields were read. -/
def Limits.full (limits : Limits) (count : Nat) : Option ParseError :=
  if limits.fieldCapacity ≤ count then some (.tooManyFields limits.fieldCapacity) else none

/-- Reads the body that the fields announce. The trailer of a chunked body is checked and left
out. -/
def readBody (framing : Framing) (parts : Parts) (c : Cursor) : Parts × Scan ParseError Unit :=
  match framing with
  | .empty => ({ parts with body := ⟨c.pos, 0⟩ }, .done () c)
  | .length n =>
    if Numeral.wordLimit ≤ c.pos + n then (parts, .fail .invalidContentLength)
    else if c.rest.length < n then (parts, .more)
    else ({ parts with body := ⟨c.pos, n⟩ }, .done () ⟨c.pos + n, c.rest.drop n⟩)
  | .chunked =>
    match Chunked.chunks c with
    | .more => (parts, .more)
    | .fail cause => (parts, .fail cause)
    | .done chunks next =>
      let parts := { parts with body := ⟨c.pos, next.pos - c.pos⟩, chunks }
      (parts, (fieldSection (fun _ => none) 0 next).2)

/-- Reads a message from the start of the input, with what was understood of it. -/
def readMessage (limits : Limits) (input : Bytes) : Parts × Scan ParseError Unit :=
  match startLine limits ⟨0, input⟩ with
  | .more => ({}, .more)
  | .fail cause => ({}, .fail cause)
  | .done (version, start) next =>
    let (fields, outcome) := fieldSection limits.full 0 next
    let parts : Parts := { version, start := some start, fields }
    match outcome with
    | .more => (parts, .more)
    | .fail cause => (parts, .fail cause)
    | .done () next =>
      match Framing.decide (parts.pairs input) with
      | .error cause => (parts, .fail cause)
      | .ok framing => readBody framing { parts with framing := some framing } next

theorem advances_startLine (limits : Limits) : Advances (startLine limits) := by
  intro c a next h
  simp only [startLine] at h
  split at h
  · split at h
    · cases h
    · split at h
      · cases h
        exact advances_statusLine _ _ _ ‹_›
      · cases h
      · cases h
  · split at h
    · cases h
      exact advances_requestLine _ _ _ _ ‹_›
    · cases h
    · cases h

theorem readBody_pos {framing : Framing} {parts parts' : Parts} {c next : Cursor}
    (h : readBody framing parts c = (parts', .done () next)) : c.pos ≤ next.pos := by
  unfold readBody at h
  split at h
  · cases h
    exact Nat.le_refl _
  · split at h
    · cases h
    · split at h <;> cases h
      simp
  · split at h
    · cases h
    · cases h
    · rename_i chunks mid hc
      obtain ⟨_, _, hp⟩ := Chunked.forward_chunks _ _ _ hc
      have hf : (fieldSection (fun _ => none) 0 mid).2 = .done () next := congrArg Prod.snd h
      obtain ⟨_, _, _, hq⟩ := fieldSection_eq_done (Prod.ext rfl hf)
      omega

/-- A message takes at least one byte. -/
theorem readMessage_pos {limits : Limits} {input : Bytes} {parts : Parts} {next : Cursor}
    (h : readMessage limits input = (parts, .done () next)) : 0 < next.pos := by
  simp only [readMessage] at h
  split at h
  · cases h
  · cases h
  · rename_i version start mid hs
    obtain ⟨s, ns, _, ps⟩ := advances_startLine _ _ _ _ hs
    have := List.length_pos_iff.2 ns
    split at h
    · cases h
    · cases h
    · rename_i mid' hf
      obtain ⟨_, _, _, pf⟩ := fieldSection_eq_done (Prod.ext rfl hf)
      split at h
      · cases h
      · have := readBody_pos h
        omega

end OriginServer.Http
