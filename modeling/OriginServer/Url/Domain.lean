import OriginServer.Bytes

namespace OriginServer.Percent

open Ascii

/-- The octets that percent-encoded bytes stand for. -/
def decode : Bytes → Bytes
  | [] => []
  | b :: rest =>
    if b = percent then
      match rest with
      | hi :: lo :: rest =>
        match hexValue? hi, hexValue? lo with
        | some h, some l => UInt8.ofNat (h * 16 + l) :: decode rest
        | _, _ => b :: decode (hi :: lo :: rest)
      | rest => b :: decode rest
    else b :: decode rest
  termination_by input => input.length

/-- The text behind percent-encoded text, unless its octets are no UTF-8. -/
def decodeText? (s : String) : Option String := (decode (Bytes.ofText s)).toText?

end OriginServer.Percent

namespace OriginServer.Url.Domain

/-- ASCII characters that no domain name may hold. -/
def isForbidden (c : Char) : Bool := c ≤ ' ' || c == '\x7f' || "%#/:<>?@[\\]^|".contains c

/-- Code points outside ASCII that no label may hold: controls, spaces, joiners, surrogates and
their neighbours in private use, the specials, and non-characters. -/
def isBarred (n : Nat) : Bool :=
  (0x80 ≤ n && n ≤ 0xa0) || (0x2000 ≤ n && n ≤ 0x200a) || (0x200c ≤ n && n ≤ 0x200f) ||
    (0x2028 ≤ n && n ≤ 0x202f) || n == 0x205f || (0x2061 ≤ n && n ≤ 0x206f && n != 0x2064) ||
    n == 0x3000 || (0xd800 ≤ n && n ≤ 0xf8ff) || (0xfff0 ≤ n && n ≤ 0xffff) ||
    (0xfdd0 ≤ n && n ≤ 0xfdef) || n % 0x10000 ≥ 0xfffe || (0xe0000 ≤ n && n ≤ 0xe00ff) ||
    0xe01f0 ≤ n

/-- Code points that a name is read without: soft hyphens, invisible marks of width zero, and
selectors of variants. -/
def isInvisible (n : Nat) : Bool :=
  n == 0xad || n == 0x34f || (0x180b ≤ n && n ≤ 0x180d) || n == 0x180f || n == 0x200b ||
    n == 0x2060 || n == 0x2064 || n == 0xfeff || (0xfe00 ≤ n && n ≤ 0xfe0f) ||
    (0xe0100 ≤ n && n ≤ 0xe01ef)

/-- The common form of a character: letters are lowered, the ideographic full stops are dots, and
forms of full width stand for ASCII characters. Of the other common forms outside ASCII none is
known. -/
def fold (c : Char) : List Char :=
  let n := c.toNat
  if isInvisible n then []
  else if n == 0x3002 || n == 0xff61 then ['.']
  else if 0xff01 ≤ n && n ≤ 0xff5e then [(Char.ofNat (n - 0xfee0)).toLower]
  else [c.toLower]

namespace Punycode

/-- The value of a digit: letters before figures. -/
def digit? (c : Char) : Option Nat :=
  if c.isLower then some (c.toNat - 'a'.toNat)
  else if c.isDigit then some (c.toNat - '0'.toNat + 26)
  else none

/-- How far a digit of a variable-length integer counts before it ends the integer. -/
def threshold (k bias : Nat) : Nat := if k ≤ bias then 1 else if bias + 26 ≤ k then 26 else k - bias

/-- Repeated division of the bias adaptation. -/
def settle (k delta : Nat) : Nat :=
  if 455 < delta then settle (k + 36) (delta / 35) else k + 36 * delta / (delta + 38)
  termination_by delta

def adapt (delta count : Nat) (first : Bool) : Nat :=
  let delta := if first then delta / 700 else delta / 2
  settle 0 (delta + delta / count)

/-- Reads one variable-length integer onto `i`. -/
def integer? (bias : Nat) : (i weight k : Nat) → List Char → Option (Nat × List Char)
  | _, _, _, [] => none
  | i, weight, k, c :: cs => do
    let d ← digit? c
    let i := i + d * weight
    let t := threshold k bias
    if d < t then return (i, cs) else integer? bias i (weight * (36 - t)) (k + 36) cs

theorem integer?_length {bias i weight k n : Nat} {cs rest : List Char}
    (h : integer? bias i weight k cs = some (n, rest)) : rest.length < cs.length := by
  fun_induction integer? bias i weight k cs with
  | case1 => cases h
  | case2 i weight k c cs ih =>
    simp only [Option.bind_eq_bind, Option.bind_eq_some_iff] at h
    obtain ⟨d, _, h⟩ := h
    split at h
    · cases h
      simp
    · exact Nat.lt_succ_of_lt (ih _ h)

/-- Inserts the code points that the integers name into the label. -/
def insert? (n i bias : Nat) (label : List Nat) (cs : List Char) : Option (List Nat) :=
  if cs.isEmpty then some label
  else
    match _h : integer? bias i 1 36 cs with
    | none => none
    | some (total, rest) =>
      let count := label.length + 1
      let point := n + total / count
      let place := total % count
      if 0x10ffff < point then none
      else
        insert? point (place + 1) (adapt (total - i) count (i == 0))
          (label.take place ++ point :: label.drop place) rest
  termination_by cs.length
  decreasing_by exact integer?_length ‹_›

/-- The code points of an encoded label: the ASCII ones stand before its last hyphen. -/
def decode? (cs : List Char) : Option (List Nat) :=
  let tail := cs.reverse.takeWhile (· != '-')
  let basic := cs.take (cs.length - tail.length - 1)
  insert? 128 0 72 (basic.map Char.toNat) tail.reverse

end Punycode

/-- A label outside ASCII is valid when it has its common form and none of its code points is
barred. -/
def isInternational (label : List Nat) : Bool :=
  label.any (0x7f < ·) && label.all fun n => !isBarred n && fold (Char.ofNat n) == [Char.ofNat n]

/-- An ASCII label is valid unless it claims to encode a label outside ASCII and does not. -/
def isLabel (label : List Char) : Bool :=
  match label with
  | 'x' :: 'n' :: '-' :: '-' :: code =>
    match Punycode.decode? code with
    | some points => isInternational points
    | none => false
  | _ => true

/-- The name that a host stands for, in its common form. -/
def ofHost? (host : List Char) : Option (List Char) := do
  let text ← Percent.decodeText? (String.ofList host)
  let name := text.toList.flatMap fold
  if name.any isForbidden || !(name.splitOn '.').all isLabel then none
  else if name.any fun c => 0x7f < c.toNat && isBarred c.toNat then none
  else if name.isEmpty then none
  else return name

end OriginServer.Url.Domain
