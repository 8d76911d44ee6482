import OriginServer.Bytes

namespace OriginServer

/-- The positive decimal `digits · 10 ^ exponent`. -/
structure Decimal where
  digits : Nat
  exponent : Int
  deriving Repr, DecidableEq

namespace Decimal

/-- Moves trailing zeros into the exponent, at most `fuel` of them. -/
def strip : Nat → Decimal → Decimal
  | 0, d => d
  | fuel + 1, d =>
    if d.digits % 10 = 0 then strip fuel ⟨d.digits / 10, d.exponent + 1⟩ else d

/-- The numbers that round to one floating point number, in units of `1 / den`. -/
structure Interval where
  low : Nat
  mid : Nat
  high : Nat
  den : Nat
  /-- Whether the ends round to the number too. -/
  closed : Bool

namespace Interval

/-- The interval around `m · 2 ^ q`. Below a power of two the next number is half as far. -/
def around (m : Nat) (q : Int) (isPower : Bool) : Interval :=
  let scale := 2 ^ (q - 2).toNat
  { low := (4 * m - if isPower then 1 else 2) * scale
    mid := 4 * m * scale
    high := (4 * m + 2) * scale
    den := 2 ^ (2 - q).toNat
    closed := m % 2 == 0 }

/-- The exponent of the first digit of `mid / den`. -/
def leading (i : Interval) : Int :=
  if i.den ≤ i.mid then (Nat.toDigits 10 (i.mid / i.den)).length - 1
  else
    let n := (Nat.toDigits 10 (i.den / i.mid)).length
    if i.den ≤ i.mid * 10 ^ (n - 1) then -(n - 1 : Int) else -n

/-- Whether `d · 10 ^ e` lies in the interval, and twice its distance from the middle, both in
units of one common denominator. -/
def distance? (i : Interval) (d : Nat) (e : Int) : Option Nat :=
  let up := 10 ^ e.toNat * i.den
  let down := 10 ^ (-e).toNat
  let x := d * up
  let inside :=
    if i.closed then i.low * down ≤ x ∧ x ≤ i.high * down
    else i.low * down < x ∧ x < i.high * down
  if inside then some ((x - i.mid * down) + (i.mid * down - x)) else none

/-- The nearer one of the two multiples of `10 ^ e` beside the middle, if it lies in the interval.
Of two that are equally near the even one counts. -/
def nearest? (i : Interval) (e : Int) : Option Decimal :=
  let d := i.mid * 10 ^ (-e).toNat / (i.den * 10 ^ e.toNat)
  match i.distance? d e, i.distance? (d + 1) e with
  | some below, some above =>
    if below < above ∨ (below = above ∧ d % 2 = 0) then some ⟨d, e⟩ else some ⟨d + 1, e⟩
  | some _, none => some ⟨d, e⟩
  | none, some _ => some ⟨d + 1, e⟩
  | none, none => none

/-- The first hit among the grids of 1, 2, … 17 digits. -/
def shortest (i : Interval) : Decimal :=
  let found := (List.range 17).findSome? fun (n : Nat) => i.nearest? (i.leading - n)
  strip 17 (found.getD ⟨0, 0⟩)

end Interval

/-- The shortest decimal of the magnitude of a double with these bits, unless it is zero. -/
def ofBits? (bits : UInt64) : Option Decimal :=
  let fraction := bits.toNat % 2 ^ 52
  let exponent : Nat := bits.toNat / 2 ^ 52 % 2 ^ 11
  if exponent = 0 then
    if fraction = 0 then none else some (Interval.around fraction (-1074) false).shortest
  else
    some (Interval.around (2 ^ 52 + fraction) ((exponent : Int) - 1075)
      (fraction = 0 && 1 < exponent)).shortest

end Decimal

end OriginServer
