namespace OriginServer

-- Powers of natural numbers are the core ones in every module, whatever else the module imports.
attribute [instance (high + 1), default_instance (high + 1)] instPowNat

/-- A run of octets, as read from or written to a socket. -/
abbrev Bytes := List UInt8

namespace Ascii

abbrev htab : UInt8 := 0x09
abbrev lf : UInt8 := 0x0a
abbrev cr : UInt8 := 0x0d
abbrev sp : UInt8 := 0x20
abbrev dquote : UInt8 := 0x22
abbrev percent : UInt8 := 0x25
abbrev asterisk : UInt8 := 0x2a
abbrev comma : UInt8 := 0x2c
abbrev dot : UInt8 := 0x2e
abbrev slash : UInt8 := 0x2f
abbrev colon : UInt8 := 0x3a
abbrev semicolon : UInt8 := 0x3b
abbrev equals : UInt8 := 0x3d
abbrev backslash : UInt8 := 0x5c

def isDigit (b : UInt8) : Bool := 0x30 ≤ b && b ≤ 0x39

def isUpper (b : UInt8) : Bool := 0x41 ≤ b && b ≤ 0x5a

def isLower (b : UInt8) : Bool := 0x61 ≤ b && b ≤ 0x7a

def isAlphanum (b : UInt8) : Bool := isDigit b || isUpper b || isLower b

/-- Control characters: the first 32 codes and DEL. -/
def isControl (b : UInt8) : Bool := b < 0x20 || b == 0x7f

/-- Visible characters: every printing code except the space. -/
def isVisible (b : UInt8) : Bool := 0x21 ≤ b && b ≤ 0x7e

def toLower (b : UInt8) : UInt8 := if isUpper b then b + 0x20 else b

/-- The value of a hexadecimal digit of either case. -/
def hexValue? (b : UInt8) : Option Nat :=
  if isDigit b then some (b - 0x30).toNat
  else if 0x41 ≤ b && b ≤ 0x46 then some ((b - 0x41).toNat + 10)
  else if 0x61 ≤ b && b ≤ 0x66 then some ((b - 0x61).toNat + 10)
  else none

def isHexDigit (b : UInt8) : Bool := (hexValue? b).isSome

end Ascii

namespace Bytes

/-- The UTF-8 form of a text. -/
def ofText (s : String) : Bytes := s.toUTF8.data.toList

/-- The text that the bytes are the UTF-8 form of. -/
def toText? (b : Bytes) : Option String := String.fromUTF8? ⟨b.toArray⟩

/-- The bytes `start`, `start + 1`, … of a string, `len` of them. -/
def slice (b : Bytes) (start len : Nat) : Bytes := (b.drop start).take len

/-- Equality up to the case of ASCII letters. -/
def sameLetters (a b : Bytes) : Bool := a.map Ascii.toLower == b.map Ascii.toLower

/-- Strips bytes of a class from both ends. -/
def trim (p : UInt8 → Bool) (b : Bytes) : Bytes := ((b.dropWhile p).reverse.dropWhile p).reverse

end Bytes

/-- Equality of texts up to the case of ASCII letters. -/
def sameLetters (s t : String) : Bool := s.toList.map Char.toLower == t.toList.map Char.toLower

end OriginServer

namespace OriginServer.Numeral

/-- Sizes and lengths have 64 bits. -/
def wordLimit : Nat := 2 ^ 64

/-- The number that hexadecimal digits stand for. Other bytes count as zero. -/
def ofHex (digits : Bytes) : Nat :=
  digits.foldl (fun n b => n * 16 + (Ascii.hexValue? b).getD 0) 0

def ofDecimal (digits : Bytes) : Nat :=
  digits.foldl (fun n b => n * 10 + (b - 0x30).toNat) 0

/-- The value of a string of decimal digits that fits a word. -/
def decimal? (digits : Bytes) : Option Nat :=
  if digits.isEmpty || !digits.all Ascii.isDigit then none
  else some (ofDecimal digits) |>.filter (· < wordLimit)

/-- The value of a digit in bases up to sixteen. -/
def digit? (base : Nat) (c : Char) : Option Nat :=
  let value :=
    if c.isDigit then c.toNat - '0'.toNat
    else if 'a' ≤ c ∧ c ≤ 'f' then c.toNat - 'a'.toNat + 10
    else if 'A' ≤ c ∧ c ≤ 'F' then c.toNat - 'A'.toNat + 10
    else 16
  if value < base then some value else none

/-- The number that digits of a base stand for. No digits stand for zero. -/
def ofDigits? (base : Nat) (digits : List Char) : Option Nat :=
  digits.foldlM (fun value c => (digit? base c).map (value * base + ·)) 0

end OriginServer.Numeral
