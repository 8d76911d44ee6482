import OriginServer.Bytes

namespace OriginServer.Base64

/-- The letter for a number of six bits. -/
def letter (n : Nat) : UInt8 :=
  if n < 26 then UInt8.ofNat (0x41 + n)
  else if n < 52 then UInt8.ofNat (0x61 + (n - 26))
  else if n < 62 then UInt8.ofNat (0x30 + (n - 52))
  else if n = 62 then 0x2b
  else 0x2f

/-- The number that a letter stands for. -/
def sextet? (b : UInt8) : Option Nat :=
  if Ascii.isUpper b then some (b.toNat - 0x41)
  else if Ascii.isLower b then some (b.toNat - 0x61 + 26)
  else if Ascii.isDigit b then some (b.toNat - 0x30 + 52)
  else if b = 0x2b then some 62
  else if b = 0x2f then some 63
  else none

abbrev pad : UInt8 := Ascii.equals

def encode : Bytes → Bytes
  | [] => []
  | [a] =>
    let n := a.toNat * 2 ^ 16
    [letter (n / 2 ^ 18), letter (n / 2 ^ 12 % 64), pad, pad]
  | [a, b] =>
    let n := a.toNat * 2 ^ 16 + b.toNat * 2 ^ 8
    [letter (n / 2 ^ 18), letter (n / 2 ^ 12 % 64), letter (n / 2 ^ 6 % 64), pad]
  | a :: b :: c :: rest =>
    let n := a.toNat * 2 ^ 16 + b.toNat * 2 ^ 8 + c.toNat
    letter (n / 2 ^ 18) :: letter (n / 2 ^ 12 % 64) :: letter (n / 2 ^ 6 % 64) ::
      letter (n % 64) :: encode rest

/-- The encoded form as a text. -/
def encodeText (bytes : Bytes) : String :=
  String.ofList ((encode bytes).map fun b => Char.ofNat b.toNat)

/-- Decodes the canonical form. Missing or surplus padding is refused, and so are bits that are
set behind the last byte. -/
def decode? : Bytes → Option Bytes
  | [] => some []
  | [w, x, y, z] =>
    match sextet? w, sextet? x, sextet? y, sextet? z with
    | some w, some x, some y, some z =>
      let n := w * 2 ^ 18 + x * 2 ^ 12 + y * 2 ^ 6 + z
      some [UInt8.ofNat (n / 2 ^ 16), UInt8.ofNat (n / 2 ^ 8), UInt8.ofNat n]
    | some w, some x, some y, none =>
      let n := w * 2 ^ 18 + x * 2 ^ 12 + y * 2 ^ 6
      if z = pad ∧ y % 4 = 0 then some [UInt8.ofNat (n / 2 ^ 16), UInt8.ofNat (n / 2 ^ 8)] else none
    | some w, some x, none, none =>
      let n := w * 2 ^ 18 + x * 2 ^ 12
      if y = pad ∧ z = pad ∧ x % 16 = 0 then some [UInt8.ofNat (n / 2 ^ 16)] else none
    | _, _, _, _ => none
  | w :: x :: y :: z :: rest =>
    match sextet? w, sextet? x, sextet? y, sextet? z, decode? rest with
    | some w, some x, some y, some z, some tail =>
      let n := w * 2 ^ 18 + x * 2 ^ 12 + y * 2 ^ 6 + z
      some (UInt8.ofNat (n / 2 ^ 16) :: UInt8.ofNat (n / 2 ^ 8) :: UInt8.ofNat n :: tail)
    | _, _, _, _, _ => none
  | _ => none

/-- White space between the letters of wrapped text. -/
def isSpace (b : UInt8) : Bool := b == 0x20 || (0x09 ≤ b && b ≤ 0x0d)

/-- The first bytes of a group of four letters. -/
def leading? (n : Nat) (w x y z : UInt8) : Option Bytes := do
  let w ← sextet? w
  let x ← sextet? x
  let y ← sextet? y
  let z ← sextet? z
  let bits := w * 2 ^ 18 + x * 2 ^ 12 + y * 2 ^ 6 + z
  return [UInt8.ofNat (bits / 2 ^ 16), UInt8.ofNat (bits / 2 ^ 8), UInt8.ofNat bits].take n

/-- Decodes letters in groups of four. The last group may lack its padding. -/
def decodeGroups? : Bytes → Option Bytes
  | [] => some []
  | [w, x] => leading? 1 w x (letter 0) (letter 0)
  | [w, x, y] => leading? 2 w x y (letter 0)
  | [w, x, y, z] =>
    if y = pad ∧ z = pad then leading? 1 w x (letter 0) (letter 0)
    else if z = pad then leading? 2 w x y (letter 0)
    else leading? 3 w x y z
  | w :: x :: y :: z :: rest => do
    let group ← leading? 3 w x y z
    let tail ← decodeGroups? rest
    return group ++ tail
  | _ => none

/-- Decodes text that may be broken into lines. -/
def decodeWrapped? (text : Bytes) : Option Bytes := decodeGroups? (text.filter fun b => !isSpace b)

end OriginServer.Base64
