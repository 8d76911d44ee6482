import OriginServer.Json.Number
import OriginServer.Proofs.Text.Numeral

namespace OriginServer

/-- Only zero is written with a zero in front. -/
theorem Numeral.digits_head {n : Nat} (h : 0 < n) :
    ∃ b t, digits n = b :: t ∧ b ≠ 0x30 := by
  induction n using Nat.strongRecOn with
  | ind n ih =>
    rw [digits_eq]
    rcases Nat.lt_or_ge n 10 with hn | hn
    · have hone : ∀ n < 10, 0 < n → UInt8.ofNat n.digitChar.toNat ≠ 0x30 := by decide
      exact ⟨_, [], by rw [Nat.toDigits_of_lt_base hn]; rfl, hone n hn h⟩
    · obtain ⟨b, t, ht, hb⟩ := ih (n / 10) (by omega) (by omega)
      rw [digits_eq] at ht
      exact ⟨b, _, by rw [Nat.toDigits_of_base_le (by decide) hn, List.map_append, ht]; rfl, hb⟩

namespace Json.Number

/-- An integer as it is written. -/
def ofInt (n : Int) : Number := ⟨n < 0, Numeral.digits n.natAbs, [], none⟩

/-- The bytes that continue an integer, or make another number of it. -/
def goesOn (b : UInt8) : Bool := Ascii.isDigit b || b == Ascii.dot || b == 0x65 || b == 0x45

theorem goesOn_eq_false {b : UInt8} :
    goesOn b = false ↔ Ascii.isDigit b = false ∧ b ≠ Ascii.dot ∧ b ≠ 0x65 ∧ b ≠ 0x45 := by
  simp [goesOn, and_assoc]

/-- An integer ends in front of these bytes. -/
def Ends (rest : Bytes) : Prop := ∀ b ∈ rest.head?, goesOn b = false

theorem ofText_toString (n : Int) :
    Bytes.ofText (toString n) =
      if n < 0 then minus :: Numeral.digits n.natAbs else Numeral.digits n.natAbs := by
  cases n with
  | ofNat m =>
    have hn : ¬ Int.ofNat m < 0 := Int.not_lt.2 (Int.natCast_nonneg m)
    rw [if_neg hn]
    rfl
  | negSucc m =>
    have hs : toString (Int.negSucc m) = "-" ++ toString (m + 1) := rfl
    rw [if_pos (by omega), hs, Bytes.ofText_append]
    rfl

/-- The text of an integer begins with its sign or with a digit. -/
theorem head_toString (n : Int) :
    ∃ b s, Bytes.ofText (toString n) = b :: s ∧ (b = minus ∨ Ascii.isDigit b = true) := by
  rw [ofText_toString]
  split
  · exact ⟨minus, _, rfl, .inl rfl⟩
  · obtain ⟨b, s, hs⟩ := List.exists_cons_of_ne_nil (Numeral.digits_ne_nil n.natAbs)
    exact ⟨b, s, hs, .inr (Numeral.isDigit_digits (hs ▸ List.mem_cons_self ..))⟩

theorem digits_append {ds rest : Bytes} (hd : ∀ b ∈ ds, Ascii.isDigit b = true)
    (hr : Ends rest) : digits (ds ++ rest) = (ds, rest) := by
  rw [digits, List.takeWhile_append_of_pos hd, List.dropWhile_append_of_pos hd]
  cases rest with
  | nil => simp
  | cons b rest =>
    have hb : Ascii.isDigit b = false := (goesOn_eq_false.1 (hr b rfl)).1
    rw [List.takeWhile_cons_of_neg (by simp [hb]), List.dropWhile_cons_of_neg (by simp [hb]),
      List.append_nil]

theorem whole?_digits (n : Nat) {rest : Bytes} (hr : Ends rest) :
    whole? (Numeral.digits n ++ rest) = some (Numeral.digits n, rest) := by
  rcases Nat.eq_zero_or_pos n with rfl | hn
  · rfl
  · obtain ⟨b, t, ht, hb⟩ := Numeral.digits_head hn
    have hd : ∀ x ∈ b :: t, Ascii.isDigit x = true := ht ▸ fun x => Numeral.isDigit_digits
    rw [ht, List.cons_append, whole?, if_neg hb, if_pos (hd b (List.mem_cons_self ..)),
      ← List.cons_append, digits_append hd hr]

theorem sign_of_head {mark : UInt8} {rest : Bytes} (h : ∀ b ∈ rest.head?, b ≠ mark) :
    sign mark rest = (false, rest) := by
  cases rest with
  | nil => rfl
  | cons b rest => rw [sign, if_neg (h b rfl)]

theorem fraction?_ends {rest : Bytes} (hr : Ends rest) : fraction? rest = some ([], rest) := by
  rw [fraction?, sign_of_head fun b hb => (goesOn_eq_false.1 (hr b hb)).2.1]

theorem exponent?_ends {rest : Bytes} (hr : Ends rest) : exponent? rest = some (none, rest) := by
  cases rest with
  | nil => rfl
  | cons b rest =>
    obtain ⟨-, -, he, hE⟩ := goesOn_eq_false.1 (hr b rfl)
    simp [exponent?, he, hE]

/-- An integer is scanned whole. -/
theorem scan?_ofInt (n : Int) {rest : Bytes} (hr : Ends rest) :
    scan? (Bytes.ofText (toString n) ++ rest) = some (ofInt n, rest) := by
  have hsign : sign minus (Bytes.ofText (toString n) ++ rest) =
      (decide (n < 0), Numeral.digits n.natAbs ++ rest) := by
    rw [ofText_toString]
    by_cases hn : n < 0
    · rw [if_pos hn, decide_eq_true hn]
      rfl
    · rw [if_neg hn, decide_eq_false hn]
      refine sign_of_head fun b hb => ?_
      obtain ⟨x, t, ht⟩ := List.exists_cons_of_ne_nil (Numeral.digits_ne_nil n.natAbs)
      rw [ht] at hb
      cases hb
      rintro rfl
      exact absurd (Numeral.isDigit_digits (ht ▸ List.mem_cons_self ..)) (by decide)
  rw [scan?, hsign]
  simp [whole?_digits _ hr, fraction?_ends hr, exponent?_ends hr, ofInt]

theorem integer?_ofInt {n : Int} (hl : -2 ^ 63 ≤ n) (hu : n < 2 ^ 64) :
    (ofInt n).integer? = some n := by
  simp only [integer?, ofInt, Numeral.ofDecimal_digits, List.isEmpty_nil, Option.isNone_none,
    Bool.and_self, if_true]
  split
  · rename_i hn
    have hn : n < 0 := of_decide_eq_true hn
    rw [if_pos (by omega)]
    exact congrArg some (by omega)
  · rename_i hn
    have hn : ¬ n < 0 := fun h => hn (decide_eq_true h)
    rw [if_pos (by omega)]
    exact congrArg some (by omega)

end Json.Number

end OriginServer
