import Mathlib.Data.Nat.Digits.Lemmas
import OriginServer.Bytes

namespace OriginServer.Numeral

section Checks

variable {base n : Nat} {values : List Nat}

/-- A number, where it fits a word. -/
def word? (n : Nat) : Option Nat := if n < wordLimit then some n else none

/-- One more digit behind a number, where neither the product nor the sum leaves a word. -/
def push? (base n digit : Nat) : Option Nat :=
  (word? (n * base)).bind fun product => word? (product + digit)

/-- The number that digits stand for, as it grows digit by digit under the checks. -/
def stepwise? (base : Nat) (values : List Nat) : Option Nat := values.foldlM (push? base) 0

theorem word?_eq_none (h : wordLimit ≤ n) : word? n = none := if_neg (Nat.not_lt.2 h)

/-- A product that leaves the word leaves it with any digit added, too. -/
theorem push?_eq (base n digit : Nat) : push? base n digit = word? (n * base + digit) := by
  unfold push?
  by_cases h : n * base < wordLimit
  · rw [word?, if_pos h, Option.bind_some]
  · have hle : wordLimit ≤ n * base := Nat.not_lt.1 h
    rw [word?_eq_none hle, Option.bind_none, word?_eq_none (Nat.le_add_right_of_le hle)]

/-- More digits make a number no smaller. -/
theorem le_foldl (hb : 0 < base) (n : Nat) (values : List Nat) :
    n ≤ values.foldl (fun n d => n * base + d) n := by
  induction values generalizing n with
  | nil => exact Nat.le_refl n
  | cons d values ih =>
    have hstep : n ≤ n * base + d := Nat.le_add_right_of_le (Nat.le_mul_of_pos_right n hb)
    rw [List.foldl_cons]
    exact Nat.le_trans hstep (ih _)

theorem foldlM_push? (hb : 0 < base) (h : n < wordLimit) :
    values.foldlM (push? base) n = word? (values.foldl (fun n d => n * base + d) n) := by
  induction values generalizing n with
  | nil => exact (if_pos h).symm
  | cons d values ih =>
    rw [List.foldlM_cons, List.foldl_cons, push?_eq]
    by_cases hd : n * base + d < wordLimit
    · rw [word?, if_pos hd]
      exact ih hd
    · -- What has left the word does not come back to it.
      have hlast := Nat.le_trans (Nat.not_lt.1 hd) (le_foldl hb (n * base + d) values)
      rw [word?_eq_none (Nat.not_lt.1 hd), word?_eq_none hlast]
      rfl

theorem ofDigits_reverse (base : Nat) (values : List Nat) :
    Nat.ofDigits base values.reverse = values.foldl (fun n d => n * base + d) 0 := by
  rw [Nat.ofDigits_eq_foldr, List.foldr_reverse]
  refine List.foldl_ext _ _ _ fun n d _ => ?_
  rw [Nat.add_comm, Nat.mul_comm, Nat.cast_id]

/-- The checks along the way come to one check of the whole number. -/
theorem stepwise?_eq (hb : 0 < base) (values : List Nat) :
    stepwise? base values = word? (Nat.ofDigits base values.reverse) := by
  rw [ofDigits_reverse]
  exact foldlM_push? hb (by decide)

end Checks

section Digits

/-- The values of decimal digits. -/
def decimalValues (digits : Bytes) : List Nat := digits.map fun b => (b - 0x30).toNat

/-- The values of hexadecimal digits of either case. -/
def hexValues (digits : Bytes) : List Nat := digits.map fun b => (Ascii.hexValue? b).getD 0

theorem ofDecimal_eq (digits : Bytes) :
    ofDecimal digits = Nat.ofDigits 10 (decimalValues digits).reverse := by
  rw [ofDigits_reverse, decimalValues, List.foldl_map]
  rfl

theorem ofHex_eq (digits : Bytes) :
    ofHex digits = Nat.ofDigits 16 (hexValues digits).reverse := by
  rw [ofDigits_reverse, hexValues, List.foldl_map]
  rfl

/-- Zeros in front do not count. -/
theorem ofDecimal_zeros (k : Nat) (digits : Bytes) :
    ofDecimal (List.replicate k 0x30 ++ digits) = ofDecimal digits := by
  simp only [ofDecimal_eq, decimalValues, List.map_append, List.map_replicate, List.reverse_append,
    List.reverse_replicate]
  exact Nat.ofDigits_append_replicate_zero _

end Digits

end OriginServer.Numeral
