import OriginServer.Bytes
import OriginServer.Http.Token

namespace OriginServer.Http.Chunked

open Ascii Scanner

/-- The size of a chunk. Digits beyond a word are refused even before the line ends. -/
def size : Scanner ParseError Nat := do
  let digits ← fun c =>
    if Numeral.wordLimit ≤ Numeral.ofHex (c.rest.takeWhile isHexDigit) then .fail .invalidChunk
    else run isHexDigit c
  ensure (!digits.isEmpty) .invalidChunk
  return Numeral.ofHex digits

/-- A token that is not empty. -/
def word : Scanner ParseError Unit := do
  let name ← run isTokenByte
  ensure (!name.isEmpty) .invalidChunk

/-- The value of an extension, a token or a quoted string, behind its equals sign. -/
def extensionValue : Scanner ParseError Unit := do
  let _ ← run isBlank
  let b ← peek
  if b = dquote then quotedString .invalidChunk else word

/-- One extension behind its semicolon. -/
def extension : Scanner ParseError Unit := do
  let _ ← run isBlank
  word
  let _ ← run isBlank
  let b ← peek
  if b = equals then
    byte equals .invalidChunk
    extensionValue

theorem forward_word : word.Forward := (forward_run _).bind fun _ => forward_ensure _ _

theorem forward_extension : extension.Forward := by
  refine (forward_run _).bind fun _ => forward_word.bind fun _ => (forward_run _).bind fun _ =>
    forward_peek.bind fun b => ?_
  split
  · refine (advances_byte _ _).forward.bind fun _ => (forward_run _).bind fun _ =>
      forward_peek.bind fun _ => ?_
    split
    · exact (advances_quotedString _).forward
    · exact forward_word
  · exact forward_pure _

/-- White space and the semicolon of one more extension. Nothing is read in front of the line
break, and `false` is the answer there. -/
def separator : Scanner ParseError Bool := do
  let _ ← run isBlank
  let b ← peek
  if b = cr then return false
  else
    byte semicolon .invalidChunk
    return true

/-- One extension with what separates it, or the word that there is none. -/
def extensionStep : Scanner ParseError Bool := do
  let found ← separator
  if found then
    extension
    return true
  else return false

theorem extensionStep_advances {c next : Cursor} (h : extensionStep c = .done true next) :
    next.rest.length < c.rest.length := by
  obtain ⟨found, mid, hs, h⟩ := bind_eq_done h
  have hf : found = true := by
    cases found with
    | true => rfl
    | false => cases h
  subst hf
  have hr : next.rest.length ≤ mid.rest.length :=
    (forward_extension.bind fun _ => forward_pure _).rest_le h
  obtain ⟨_, m₁, h₁, hs⟩ := bind_eq_done hs
  obtain ⟨b, m₂, h₂, hs⟩ := bind_eq_done hs
  have r₁ := (forward_run _).rest_le h₁
  have r₂ := forward_peek.rest_le h₂
  split at hs
  · cases hs
  · have := ((advances_byte semicolon ParseError.invalidChunk).bind fun _ =>
      forward_pure true).rest_lt hs
    omega

/-- All extensions of a chunk line, up to its line break. -/
def extensions (c : Cursor) : Scan ParseError Unit :=
  match _h : extensionStep c with
  | .done true next => extensions next
  | .done false next => .done () next
  | .more => .more
  | .fail cause => .fail cause
  termination_by c.rest.length
  decreasing_by exact extensionStep_advances ‹_›

theorem forward_separator : separator.Forward := by
  refine (forward_run _).bind fun _ => forward_peek.bind fun b => ?_
  split
  · exact forward_pure _
  · exact (advances_byte _ _).forward.bind fun _ => forward_pure _

theorem forward_extensionStep : extensionStep.Forward := by
  refine forward_separator.bind fun found => ?_
  cases found with
  | true => exact forward_extension.bind fun _ => forward_pure _
  | false => exact forward_pure _

theorem forward_extensions : Forward extensions := by
  intro c u next h
  fun_induction extensions c with
  | case1 c mid hm ih =>
    obtain ⟨s, hs, ps⟩ := forward_extensionStep _ _ _ hm
    obtain ⟨t, ht, pt⟩ := ih h
    exact ⟨s ++ t, by simp [hs, ht], by simp [ps, pt]; omega⟩
  | case2 c mid hm =>
    cases h
    exact forward_extensionStep _ _ _ hm
  | case3 => cases h
  | case4 => cases h

/-- A chunk line, up to the data. -/
def line : Scanner ParseError Nat := do
  let size ← size
  extensions
  lineEnd .invalidChunk
  return size

theorem advances_line : line.Advances := by
  refine Forward.bind_advances ?_ fun _ => Forward.bind_advances forward_extensions fun _ =>
    (advances_lineEnd _).bind fun _ => forward_pure _
  refine Forward.bind ?_ fun _ => (forward_ensure _ _).bind fun _ => forward_pure _
  intro c a next h
  simp only at h
  split at h
  · cases h
  · exact forward_run _ _ _ _ h

/-- The data of a chunk with its line break. `base` is where the body begins: the chunk may not
end beyond a word from there. -/
def data (base size : Nat) : Scanner ParseError Span := do
  let span ← fun c =>
    if Numeral.wordLimit ≤ c.pos - base + size then .fail .invalidChunk
    else if c.rest.length < size then .more
    else .done ⟨c.pos, size⟩ ⟨c.pos + size, c.rest.drop size⟩
  lineEnd .invalidChunk
  return span

theorem forward_data (base size : Nat) : (data base size).Forward := by
  refine Forward.bind ?_ fun _ => (advances_lineEnd _).forward.bind fun _ => forward_pure _
  intro c a next h
  simp only at h
  split at h
  · cases h
  · split at h <;> cases h
    exact ⟨c.rest.take size, (List.take_append_drop _ _).symm, by simp; omega⟩

/-- One chunk: its data, or nothing at the end of the body. -/
def chunk (base : Nat) : Scanner ParseError (Option Span) := do
  let size ← line
  if size = 0 then return none
  else
    let span ← data base size
    return some span

theorem advances_chunk (base : Nat) : (chunk base).Advances := by
  refine advances_line.bind fun size => ?_
  split
  · exact forward_pure _
  · exact (forward_data _ _).bind fun _ => forward_pure _

def chunksFrom (base : Nat) (c : Cursor) : Scan ParseError (List Span) :=
  match _h : chunk base c with
  | .done none next => .done [] next
  | .done (some span) next =>
    match chunksFrom base next with
    | .done spans last => .done (span :: spans) last
    | .more => .more
    | .fail cause => .fail cause
  | .more => .more
  | .fail cause => .fail cause
  termination_by c.rest.length
  decreasing_by exact (advances_chunk _).rest_lt ‹_›

/-- A chunked body up to the line of its last chunk: the places of the data, in order. -/
def chunks : Scanner ParseError (List Span) := fun c => chunksFrom c.pos c

theorem forward_chunksFrom (base : Nat) : Forward (chunksFrom base) := by
  intro c a next h
  fun_induction chunksFrom base c generalizing a with
  | case1 c mid hm =>
    cases h
    exact (advances_chunk _).forward _ _ _ hm
  | case2 c span mid hm spans last hr ih =>
    cases h
    obtain ⟨s, hs, ps⟩ := (advances_chunk _).forward _ _ _ hm
    obtain ⟨t, ht, pt⟩ := ih _ hr
    exact ⟨s ++ t, by simp [hs, ht], by simp [ps, pt]; omega⟩
  | case3 => cases h
  | case4 => cases h
  | case5 => cases h
  | case6 => cases h

theorem forward_chunks : Forward chunks := fun c => forward_chunksFrom c.pos c

end OriginServer.Http.Chunked
