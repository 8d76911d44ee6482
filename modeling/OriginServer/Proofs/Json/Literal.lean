import OriginServer.Json.Literal
import OriginServer.Proofs.Text.Numeral

namespace OriginServer.Json.Literal

/-- The bytes that are escaped by one letter or mark. -/
def lettered : Bytes := [Ascii.dquote, Ascii.backslash, 0x08, 0x0c, 0x0a, 0x0d, 0x09]

/-- The control characters that are escaped by their numbers. -/
def isCoded (b : UInt8) : Bool := b < 0x20 && !lettered.contains b

/-- What a byte of a text becomes in its literal. -/
def piece (b : UInt8) : Piece := if isCoded b then .unit b.toNat else .octet b

/-- The literal of a text. -/
def ofText (s : String) : Literal := (Bytes.ofText s).map piece

section Scan

theorem scan?_escaped {e x : UInt8} (h : shortEscape? e = some x) (rest : Bytes) :
    scan? (Ascii.backslash :: e :: rest) = push (.octet x) (scan? rest) := by
  rw [scan?.eq_def]
  simp [h, show Ascii.backslash ≠ Ascii.dquote by decide,
    show ¬ Ascii.backslash < 0x20 by decide]

theorem scan?_plain {b : UInt8} (hq : b ≠ Ascii.dquote) (hs : b ≠ Ascii.backslash)
    (hc : ¬ b < 0x20) (rest : Bytes) : scan? (b :: rest) = push (.octet b) (scan? rest) := by
  rw [scan?.eq_def]
  simp only [if_neg hq, if_neg hs, if_neg hc]

theorem scan?_coded {a b c d : UInt8} {code : Nat} (h : unit? a b c d = some code)
    (rest : Bytes) :
    scan? (Ascii.backslash :: 0x75 :: a :: b :: c :: d :: rest) =
      push (.unit code) (scan? rest) := by
  rw [scan?.eq_def]
  simp [h, show Ascii.backslash ≠ Ascii.dquote by decide,
    show ¬ Ascii.backslash < 0x20 by decide, show shortEscape? 0x75 = none by decide]

theorem scan?_quote (rest : Bytes) : scan? (Ascii.dquote :: rest) = some ([], rest) := by
  rw [scan?.eq_def]
  simp

/-- Two digits are enough for a control character. -/
theorem unit?_hexDigit {n : Nat} (h : n < 0x20) :
    unit? 0x30 0x30 (hexDigit (n / 16)) (hexDigit (n % 16)) = some n := by
  have hall : ∀ n < 0x20, unit? 0x30 0x30 (hexDigit (n / 16)) (hexDigit (n % 16)) = some n := by
    decide
  exact hall n h

/-- A byte is escaped by a letter or by its number, or it stands for itself. -/
theorem escape_cases (b : UInt8) :
    (isCoded b = false ∧ ∃ e, escape b = [Ascii.backslash, e] ∧ shortEscape? e = some b) ∨
    (isCoded b = true ∧ b.toNat < 0x20 ∧ escape b =
      [Ascii.backslash, 0x75, 0x30, 0x30, hexDigit (b.toNat / 16), hexDigit (b.toNat % 16)]) ∨
    (isCoded b = false ∧ b ≠ Ascii.dquote ∧ b ≠ Ascii.backslash ∧ ¬ b < 0x20 ∧
      escape b = [b]) := by
  have hshort : ∀ x ∈ lettered, isCoded x = false ∧ ∃ e ∈ shortEscapes.map (·.1),
      escape x = [Ascii.backslash, e] ∧ shortEscape? e = some x := by decide +kernel
  by_cases hm : b ∈ lettered
  · obtain ⟨hc, e, -, he⟩ := hshort b hm
    exact .inl ⟨hc, e, he⟩
  · simp only [lettered, List.mem_cons, List.not_mem_nil, or_false, not_or] at hm
    obtain ⟨hq, hs, h8, hc, ha, hd, h9⟩ := hm
    by_cases hlt : b < 0x20
    · refine .inr (.inl ⟨?_, UInt8.lt_iff_toNat_lt.1 hlt, ?_⟩)
      · simp [isCoded, lettered, hlt, hq, hs, h8, hc, ha, hd, h9]
      · simp only [escape, if_neg hq, if_neg hs, if_neg h8, if_neg hc, if_neg ha, if_neg hd,
          if_neg h9, if_pos hlt]
    · refine .inr (.inr ⟨by simp [isCoded, hlt], hq, hs, hlt, ?_⟩)
      simp only [escape, if_neg hq, if_neg hs, if_neg h8, if_neg hc, if_neg ha, if_neg hd,
        if_neg h9, if_neg hlt]

theorem scan?_escape (b : UInt8) (rest : Bytes) :
    scan? (escape b ++ rest) = push (piece b) (scan? rest) := by
  obtain ⟨hc, e, he, hs⟩ | ⟨hc, hn, he⟩ | ⟨hc, hq, hs, hn, he⟩ := escape_cases b
  · rw [he, piece, if_neg (by simp [hc])]
    exact scan?_escaped hs rest
  · rw [he, piece, if_pos hc]
    exact scan?_coded (unit?_hexDigit hn) rest
  · rw [he, piece, if_neg (by simp [hc])]
    exact scan?_plain hq hs hn rest

theorem scan?_write (s : String) (rest : Bytes) :
    scan? ((Bytes.ofText s).flatMap escape ++ Ascii.dquote :: rest) = some (ofText s, rest) := by
  rw [ofText]
  induction Bytes.ofText s with
  | nil => exact scan?_quote rest
  | cons b bs ih =>
    rw [List.flatMap_cons, List.append_assoc, scan?_escape, ih]
    rfl

end Scan

section Text

theorem utf8_control {n : Nat} (h : n < 0x20) : utf8 n = [UInt8.ofNat n] := by
  have hall : ∀ n < 0x20, utf8 n = [UInt8.ofNat n] := by decide
  exact hall n h

theorem octets?_piece (b : UInt8) (l : Literal) :
    octets? (piece b :: l) = (octets? l).map (b :: ·) := by
  rw [piece]
  split
  · rename_i hc
    have hn : b.toNat < 0x20 := by
      simp only [isCoded, Bool.and_eq_true, decide_eq_true_eq, UInt8.lt_iff_toNat_lt] at hc
      exact hc.1
    have hl : isLowSurrogate b.toNat = false := by
      simp only [isLowSurrogate, Bool.and_eq_false_iff, decide_eq_false_iff_not]
      omega
    have hh : isHighSurrogate b.toNat = false := by
      simp only [isHighSurrogate, Bool.and_eq_false_iff, decide_eq_false_iff_not]
      omega
    rw [octets?.eq_def]
    simp [hl, hh, utf8_control hn]
  · rw [octets?]

/-- The text is read from its literal. -/
theorem text?_ofText (s : String) : (ofText s).text? = some s := by
  have hall (bs : Bytes) : octets? (bs.map piece) = some bs := by
    induction bs with
    | nil => rfl
    | cons b bs ih =>
      rw [List.map_cons, octets?_piece, ih]
      rfl
  rw [text?, ofText, hall, Option.bind_some, Bytes.toText?_ofText]

end Text

end OriginServer.Json.Literal
