import OriginServer.Bytes
import OriginServer.Text.Shortest

namespace OriginServer.Json

/-- A number as it is written. -/
structure Number where
  negative : Bool
  whole : Bytes
  fraction : Bytes
  /-- The exponent, as its sign and its digits. -/
  exponent : Option (Bool × Bytes)
  deriving Repr, DecidableEq

namespace Number

abbrev minus : UInt8 := 0x2d

def digits (input : Bytes) : Bytes × Bytes :=
  (input.takeWhile Ascii.isDigit, input.dropWhile Ascii.isDigit)

/-- A sign in front of the digits, and what follows it. -/
def sign (mark : UInt8) : Bytes → Bool × Bytes
  | [] => (false, [])
  | b :: rest => if b = mark then (true, rest) else (false, b :: rest)

/-- The digits before the point. A zero stands alone. -/
def whole? : Bytes → Option (Bytes × Bytes)
  | [] => none
  | b :: rest =>
    if b = 0x30 then some ([b], rest)
    else if Ascii.isDigit b then some (digits (b :: rest))
    else none

def fraction? (input : Bytes) : Option (Bytes × Bytes) :=
  match sign Ascii.dot input with
  | (false, _) => some ([], input)
  | (true, rest) => if (digits rest).1.isEmpty then none else some (digits rest)

/-- The sign of an exponent, and what follows it. -/
def exponentSign (input : Bytes) : Bool × Bytes :=
  if (sign minus input).1 then sign minus input else (false, (sign 0x2b input).2)

def exponent? (input : Bytes) : Option (Option (Bool × Bytes) × Bytes) :=
  match input with
  | [] => some (none, [])
  | b :: rest =>
    if b = 0x65 || b = 0x45 then
      let (negative, rest) := exponentSign rest
      if (digits rest).1.isEmpty then none
      else some (some (negative, (digits rest).1), (digits rest).2)
    else some (none, b :: rest)

/-- The number at the start of the input, and what follows it. -/
def scan? (input : Bytes) : Option (Number × Bytes) := do
  let (negative, rest) := sign minus input
  let (whole, rest) ← whole? rest
  let (fraction, rest) ← fraction? rest
  let (exponent, rest) ← exponent? rest
  return (⟨negative, whole, fraction, exponent⟩, rest)

theorem length_digits (s : Bytes) : (digits s).2.length ≤ s.length :=
  (List.dropWhile_sublist _).length_le

theorem length_sign (mark : UInt8) (s : Bytes) : (sign mark s).2.length ≤ s.length := by
  cases s with
  | nil => simp [sign]
  | cons b rest => simp only [sign]; split <;> simp

theorem length_exponentSign (s : Bytes) : (exponentSign s).2.length ≤ s.length := by
  unfold exponentSign
  split
  · exact length_sign _ _
  · exact length_sign _ _

theorem length_whole? {s d r : Bytes} (h : whole? s = some (d, r)) : r.length < s.length := by
  cases s with
  | nil => simp [whole?] at h
  | cons b rest =>
    simp only [whole?] at h
    split at h
    · simp_all
    · split at h
      · rename_i hd
        simp only [digits, List.dropWhile_cons, hd, Option.some.injEq, Prod.mk.injEq] at h
        have := length_digits rest
        simp only [digits] at this
        simp only [← h.2, List.length_cons, if_true]
        omega
      · simp at h

theorem length_fraction? {s d r : Bytes} (h : fraction? s = some (d, r)) :
    r.length ≤ s.length := by
  unfold fraction? at h
  split at h
  · simp_all
  · rename_i rest hs
    have hl := length_sign Ascii.dot s
    have := length_digits rest
    simp only [hs] at hl
    split at h <;> simp_all
    omega

theorem length_exponent? {s r : Bytes} {e : Option (Bool × Bytes)}
    (h : exponent? s = some (e, r)) : r.length ≤ s.length := by
  unfold exponent? at h
  split at h
  · simp_all
  · rename_i b rest
    have h1 := length_exponentSign rest
    have h2 := length_digits (exponentSign rest).2
    split at h
    · split at h
      simp_all
      omega
    · simp_all

theorem length_scan? {s r : Bytes} {n : Number} (h : scan? s = some (n, r)) :
    r.length < s.length := by
  simp only [scan?, bind, Option.bind_eq_some_iff] at h
  obtain ⟨⟨w, r1⟩, h1, ⟨f, r2⟩, h2, ⟨e, r3⟩, h3, h4⟩ := h
  have l0 := length_sign minus s
  have l1 := length_whole? h1
  have l2 := length_fraction? h2
  have l3 := length_exponent? h3
  simp only [pure, Option.some.injEq, Prod.mk.injEq] at h4
  obtain ⟨-, rfl⟩ := h4
  simp only at l2 l3
  omega

/-- Appends digits to a number while it fits a word. The digits left out are counted. -/
def appendDigits (n : Nat) : Bytes → Nat × Nat
  | [] => (n, 0)
  | d :: rest =>
    let n' := n * 10 + (d - 0x30).toNat
    if n' < Numeral.wordLimit then appendDigits n' rest else (n, rest.length + 1)

/-- The largest exponent of a power of ten that is a double. -/
def maxPower : Nat := 308

def powerOfTen (e : Nat) : Float := Float.ofScientific 1 false e

/-- Multiplies by a power of ten. There is no infinity. -/
def scaleUp? (f : Float) (e : Nat) : Option Float :=
  if e ≤ maxPower then
    let g := f * powerOfTen e
    if g.isInf then none else some g
  else if f == 0 then some f
  else none

/-- Divides by a power of ten, in several steps if it is no double. -/
def scaleDown (f : Float) (e : Nat) : Float :=
  if _h : e ≤ maxPower then f / powerOfTen e
  else if f == 0 then f
  else scaleDown (f / powerOfTen maxPower) (e - maxPower)
  termination_by e
  decreasing_by simp only [maxPower] at *; omega

/-- The double for a number, by its bits. A number that is too large has none. -/
def double? (n : Number) : Option UInt64 := do
  let (significand, surplus) := appendDigits 0 n.whole
  let (significand, ignored) := appendDigits significand n.fraction
  let shift : Int := match n.exponent with
    | none => 0
    | some (negative, e) =>
      if negative then -(Numeral.ofDecimal e : Int) else Numeral.ofDecimal e
  let e := shift + surplus - (n.fraction.length - ignored : Nat)
  let f := (UInt64.ofNat significand).toFloat
  let f ← if 0 ≤ e then scaleUp? f e.toNat else some (scaleDown f (-e).toNat)
  return (if n.negative then -f else f).toBits

/-- The integer that a number is, if it is written as one and has a 64-bit form. Minus zero is no
integer. -/
def integer? (n : Number) : Option Int :=
  if n.fraction.isEmpty && n.exponent.isNone then
    let k := Numeral.ofDecimal n.whole
    if n.negative then if 0 < k ∧ k ≤ 2 ^ 63 then some (-k) else none
    else if k < 2 ^ 64 then some k else none
  else none

end Number

/-- A double in a JSON text. Numbers from 0.00001 to below 10 ^ 16 are written without an exponent,
and every number has a point or an exponent. -/
def doubleText (bits : UInt64) : String :=
  let sign := if 2 ^ 63 ≤ bits.toNat then "-" else ""
  match Decimal.ofBits? bits with
  | none => sign ++ "0.0"
  | some d =>
    let digits := Nat.toDigits 10 d.digits
    let e : Int := d.exponent + digits.length - 1
    let zeros (n : Nat) : List Char := List.replicate n '0'
    let text : List Char :=
      if 0 ≤ e ∧ e ≤ 15 then
        let places := e.toNat + 1
        if digits.length ≤ places then digits ++ zeros (places - digits.length) ++ ['.', '0']
        else digits.take places ++ '.' :: digits.drop places
      else if -5 ≤ e ∧ e < 0 then '0' :: '.' :: zeros ((-e).toNat - 1) ++ digits
      else
        digits.take 1 ++ (if digits.length = 1 then [] else '.' :: digits.drop 1) ++
          'e' :: (if e < 0 then '-' else '+') :: Nat.toDigits 10 e.natAbs
    sign ++ String.ofList text

end OriginServer.Json
