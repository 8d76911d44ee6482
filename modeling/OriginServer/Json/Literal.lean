import OriginServer.Bytes

namespace OriginServer.Json

/-- What a string literal is made of. -/
inductive Piece where
  | octet (b : UInt8)
  /-- A code unit that was given by its number. -/
  | unit (code : Nat)
  deriving Repr, DecidableEq

abbrev Literal := List Piece

namespace Literal

/-- The escapes of one letter, with the bytes that they stand for. -/
def shortEscapes : List (UInt8 × UInt8) :=
  [(0x22, 0x22), (0x5c, 0x5c), (0x2f, 0x2f), (0x62, 0x08), (0x66, 0x0c), (0x6e, 0x0a),
    (0x72, 0x0d), (0x74, 0x09)]

def shortEscape? (b : UInt8) : Option UInt8 := (shortEscapes.find? (·.1 == b)).map (·.2)

/-- The code unit of four hexadecimal digits. -/
def unit? (a b c d : UInt8) : Option Nat := do
  let a ← Ascii.hexValue? a
  let b ← Ascii.hexValue? b
  let c ← Ascii.hexValue? c
  let d ← Ascii.hexValue? d
  return ((a * 16 + b) * 16 + c) * 16 + d

/-- Puts a piece in front of a literal that was read. -/
def push (p : Piece) (read : Option (Literal × Bytes)) : Option (Literal × Bytes) :=
  read.map fun (literal, rest) => (p :: literal, rest)

/-- The literal up to its closing quote, and what follows it. -/
def scan? : Bytes → Option (Literal × Bytes)
  | [] => none
  | b :: rest =>
    if b = Ascii.dquote then some ([], rest)
    else if b < 0x20 then none
    else if b = Ascii.backslash then
      match rest with
      | [] => none
      | e :: rest =>
        match shortEscape? e with
        | some x => push (.octet x) (scan? rest)
        | none =>
          if e = 0x75 then
            match rest with
            | h1 :: h2 :: h3 :: h4 :: rest =>
              match unit? h1 h2 h3 h4 with
              | some code => push (.unit code) (scan? rest)
              | none => none
            | _ => none
          else none
    else push (.octet b) (scan? rest)

theorem push_eq_some {p : Piece} {read : Option (Literal × Bytes)} {l : Literal} {r : Bytes}
    (h : push p read = some (l, r)) : ∃ l', read = some (l', r) := by
  obtain ⟨⟨l', r'⟩, hx, e⟩ := Option.map_eq_some_iff.1 h
  cases e
  exact ⟨l', hx⟩

theorem length_scan? {s : Bytes} {l : Literal} {r : Bytes} (h : scan? s = some (l, r)) :
    r.length < s.length := by
  fun_induction scan? s generalizing l with
  | case2 => simp_all
  | case5 _ _ _ _ _ _ ih | case6 _ _ _ _ _ _ _ _ _ _ ih | case10 _ _ _ _ _ ih =>
    obtain ⟨l', hl⟩ := push_eq_some h
    have := ih hl
    simp only [List.length_cons]
    omega
  | case1 | case3 | case4 | case7 | case8 | case9 => simp at h

def isHighSurrogate (code : Nat) : Bool := 0xd800 ≤ code && code < 0xdc00

def isLowSurrogate (code : Nat) : Bool := 0xdc00 ≤ code && code < 0xe000

/-- The UTF-8 form of a code point. -/
def utf8 (code : Nat) : Bytes := Bytes.ofText (String.singleton (Char.ofNat code))

/-- The bytes of a literal. -/
def octets? : Literal → Option Bytes
  | [] => some []
  | .octet b :: rest => (octets? rest).map (b :: ·)
  | .unit code :: rest =>
    if isLowSurrogate code then none
    else if isHighSurrogate code then
      match rest with
      | .unit low :: rest =>
        if isLowSurrogate low then
          (octets? rest).map (utf8 (0x10000 + (code - 0xd800) * 1024 + (low - 0xdc00)) ++ ·)
        else none
      | _ => none
    else (octets? rest).map (utf8 code ++ ·)

def text? (literal : Literal) : Option String := (octets? literal).bind Bytes.toText?

/-- The lower-case hexadecimal digit of a number below sixteen. -/
def hexDigit (n : Nat) : UInt8 := UInt8.ofNat (if n < 10 then 0x30 + n else 0x61 + (n - 10))

/-- A byte of a text inside a literal. Only quotes, backslashes and control characters are
escaped. -/
def escape (b : UInt8) : Bytes :=
  if b = Ascii.dquote then [Ascii.backslash, Ascii.dquote]
  else if b = Ascii.backslash then [Ascii.backslash, Ascii.backslash]
  else if b = 0x08 then [Ascii.backslash, 0x62]
  else if b = 0x0c then [Ascii.backslash, 0x66]
  else if b = 0x0a then [Ascii.backslash, 0x6e]
  else if b = 0x0d then [Ascii.backslash, 0x72]
  else if b = 0x09 then [Ascii.backslash, 0x74]
  else if b < 0x20 then
    [Ascii.backslash, 0x75, 0x30, 0x30, hexDigit (b.toNat / 16), hexDigit (b.toNat % 16)]
  else [b]

/-- A text as a literal with its quotes. -/
def write (text : String) : Bytes :=
  Ascii.dquote :: (Bytes.ofText text).flatMap escape ++ [Ascii.dquote]

end Literal

end OriginServer.Json
