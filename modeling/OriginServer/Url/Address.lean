import OriginServer.Bytes

namespace OriginServer.Url

namespace Ipv4

/-- One part of an address: hexadecimal behind `0x`, octal behind a further `0`, else decimal. -/
def part? : List Char → Option Nat
  | [] => none
  | '0' :: 'x' :: digits => Numeral.ofDigits? 16 digits
  | '0' :: 'X' :: digits => Numeral.ofDigits? 16 digits
  | '0' :: c :: digits => Numeral.ofDigits? 8 (c :: digits)
  | digits => Numeral.ofDigits? 10 digits

/-- The parts of a dotted host, without the empty one behind a final dot. -/
def parts (host : List Char) : List (List Char) :=
  let all := host.splitOn '.'
  if all.getLast? = some [] then all.dropLast else all

/-- A host whose last part is a number stands for an address. -/
def endsInNumber (host : List Char) : Bool :=
  match (parts host).getLast? with
  | none => false
  | some last => (!last.isEmpty && last.all Char.isDigit) || (part? last).isSome

/-- The address with these parts: each but the last is a byte, and the last fills what is left. -/
def ofParts? (values : List Nat) : Option Nat :=
  match values.getLast? with
  | none => none
  | some last =>
    let high := values.dropLast
    if 3 < high.length ∨ high.any (255 < ·) ∨ 256 ^ (4 - high.length) ≤ last then none
    else some (high.foldl (fun n b => n * 256 + b) 0 * 256 ^ (4 - high.length) + last)

def ofText? (host : List Char) : Option Nat := ((parts host).mapM part?).bind ofParts?

end Ipv4

namespace Ipv6

/-- A group of one to four hexadecimal digits. -/
def group? (digits : List Char) : Option Nat :=
  if digits.isEmpty ∨ 4 < digits.length then none else Numeral.ofDigits? 16 digits

/-- A decimal byte without leading zeros. -/
def byte? (digits : List Char) : Option Nat :=
  match digits with
  | [] => none
  | '0' :: _ :: _ => none
  | _ => (Numeral.ofDigits? 10 digits).filter (· ≤ 255)

/-- The two groups that a dotted IPv4 address stands for. -/
def dotted? (digits : List Char) : Option (List Nat) :=
  match (digits.splitOn '.').mapM byte? with
  | some [a, b, c, d] => some [a * 256 + b, c * 256 + d]
  | _ => none

/-- Groups between colons. The last of them may be a dotted IPv4 address. -/
def groups? : List (List Char) → Option (List Nat)
  | [] => some []
  | [last] => ((group? last).map ([·])) <|> dotted? last
  | piece :: pieces => do return (← group? piece) :: (← groups? pieces)

/-- The two sides of the first double colon. -/
def atGap : List Char → List Char × Option (List Char)
  | ':' :: ':' :: cs => ([], some cs)
  | c :: cs => let (left, right) := atGap cs; (c :: left, right)
  | [] => ([], none)

/-- The colon separated groups of one side of a gap, which may be empty. -/
def side? (text : List Char) : Option (List Nat) :=
  if text.isEmpty then some [] else groups? (text.splitOn ':')

/-- The eight groups of an address. A double colon stands for at least one group of zero. -/
def ofText? (text : List Char) : Option (List Nat) :=
  match atGap text with
  | (whole, none) => (side? whole).filter (·.length = 8)
  | (left, some right) => do
    let left ← (side? left).filter fun _ => !left.contains '.'
    let right ← side? right
    if left.length + right.length < 8 then
      return left ++ List.replicate (8 - left.length - right.length) 0 ++ right
    else none

end Ipv6

end OriginServer.Url
