import OriginServer.Json.Literal
import OriginServer.Json.Number

namespace OriginServer.Json

inductive Token where
  | openArray
  | closeArray
  | openObject
  | closeObject
  | comma
  | colon
  | null
  | bool (b : Bool)
  | number (n : Number)
  | string (literal : Literal)
  deriving Repr, DecidableEq

/-- White space between tokens. -/
def isSpace (b : UInt8) : Bool := b == 0x20 || b == 0x0a || b == 0x0d || b == 0x09

namespace Token

/-- Tokens that have always the same letters. -/
def fixed : List (Bytes × Token) :=
  [([0x5b], openArray), ([0x5d], closeArray), ([0x7b], openObject), ([0x7d], closeObject),
    ([Ascii.comma], comma), ([Ascii.colon], colon), ([0x6e, 0x75, 0x6c, 0x6c], null),
    ([0x74, 0x72, 0x75, 0x65], bool true), ([0x66, 0x61, 0x6c, 0x73, 0x65], bool false)]

/-- The token that begins with `b`, and what follows it. -/
def scan? (b : UInt8) (rest : Bytes) : Option (Token × Bytes) :=
  if b = Ascii.dquote then
    (Literal.scan? rest).map fun (literal, rest) => (string literal, rest)
  else if b = Number.minus || Ascii.isDigit b then
    (Number.scan? (b :: rest)).map fun (n, rest) => (number n, rest)
  else
    match fixed.find? fun f => f.1.isPrefixOf (b :: rest) with
    | some (letters, token) => some (token, rest.drop (letters.length - 1))
    | none => none

theorem length_scan? {b : UInt8} {s r : Bytes} {t : Token} (h : scan? b s = some (t, r)) :
    r.length ≤ s.length := by
  unfold scan? at h
  split at h
  · obtain ⟨⟨l, r'⟩, hl, e⟩ := Option.map_eq_some_iff.1 h
    cases e
    exact Nat.le_of_lt (Literal.length_scan? hl)
  · split at h
    · obtain ⟨⟨n, r'⟩, hn, e⟩ := Option.map_eq_some_iff.1 h
      cases e
      have := Number.length_scan? hn
      simp only [List.length_cons] at this
      omega
    · split at h <;> cases h
      simp

/-- The tokens of a text. -/
def all? : Bytes → Option (List Token)
  | [] => some []
  | b :: rest =>
    if isSpace b then all? rest
    else
      match _h : scan? b rest with
      | some (t, rest) => (all? rest).map (t :: ·)
      | none => none
  termination_by input => input.length
  decreasing_by
    · simp
    · have := length_scan? _h
      simp only [List.length_cons]
      omega

end Token

end OriginServer.Json
