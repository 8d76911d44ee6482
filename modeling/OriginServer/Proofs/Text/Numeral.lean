import OriginServer.Bytes

namespace OriginServer

open Ascii

section Texts

theorem Bytes.ofText_append (s t : String) : ofText (s ++ t) = ofText s ++ ofText t := by
  have h : (s ++ t).toUTF8 = s.toUTF8 ++ t.toUTF8 := String.toByteArray_append
  rw [ofText, h, ByteArray.toList_data_append]
  rfl

theorem Bytes.ofText_ofList (cs : List Char) :
    ofText (String.ofList cs) = cs.flatMap String.utf8EncodeChar := by
  have h : (String.ofList cs).toUTF8 = cs.utf8Encode := String.toByteArray_ofList
  rw [ofText, h]
  simp [List.utf8Encode]

/-- ASCII text has one byte for each character. -/
theorem Bytes.ofText_ascii {cs : List Char} (h : ∀ c ∈ cs, c.toNat < 128) :
    ofText (String.ofList cs) = cs.map fun c => UInt8.ofNat c.toNat := by
  rw [ofText_ofList]
  induction cs with
  | nil => rfl
  | cons c cs ih =>
    obtain ⟨hc, hcs⟩ := List.forall_mem_cons.1 h
    have he : String.utf8EncodeChar c = [UInt8.ofNat c.toNat] := if_pos (Nat.le_of_lt_succ hc)
    rw [List.flatMap_cons, ih hcs, he]
    rfl

/-- A text is read from its UTF-8 form. -/
theorem Bytes.toText?_ofText (s : String) : (ofText s).toText? = some s := by
  have hb : (⟨(ofText s).toArray⟩ : ByteArray) = s.toByteArray := by
    rw [ofText]
    rfl
  rw [toText?, hb, String.fromUTF8?, dif_pos s.isValidUTF8]
  rfl

end Texts

namespace Numeral

/-- The decimal digits of a number. -/
def digits (n : Nat) : Bytes := Bytes.ofText (toString n)

theorem toNat_of_isDigit {c : Char} (h : c.isDigit = true) : 48 ≤ c.toNat ∧ c.toNat ≤ 57 := by
  simp only [Char.isDigit, Bool.and_eq_true, decide_eq_true_eq] at h
  exact ⟨UInt32.le_iff_toNat_le.1 h.1, UInt32.le_iff_toNat_le.1 h.2⟩

theorem isDigit_of_mem_toDigits {n : Nat} {c : Char} (h : c ∈ Nat.toDigits 10 n) :
    c.isDigit = true :=
  Nat.isDigit_of_mem_toDigits (by decide) (by decide) h

theorem digits_eq (n : Nat) :
    digits n = (Nat.toDigits 10 n).map fun c => UInt8.ofNat c.toNat := by
  rw [digits, Nat.toString_eq_ofList_toDigits]
  refine Bytes.ofText_ascii fun c hc => ?_
  have := toNat_of_isDigit (isDigit_of_mem_toDigits hc)
  omega

theorem digits_ne_nil (n : Nat) : digits n ≠ [] := by
  rw [digits_eq]
  exact fun h => Nat.toDigits_ne_nil (List.map_eq_nil_iff.1 h)

/-- The byte of a digit, and its value. -/
theorem digit_byte {c : Char} (h : c.isDigit = true) :
    isDigit (UInt8.ofNat c.toNat) = true ∧
      (UInt8.ofNat c.toNat - 0x30).toNat = c.toNat - '0'.toNat := by
  obtain ⟨hl, hu⟩ := toNat_of_isDigit h
  have hb : (UInt8.ofNat c.toNat).toNat = c.toNat := by
    rw [UInt8.toNat_ofNat']
    omega
  have hle : (0x30 : UInt8) ≤ UInt8.ofNat c.toNat := by
    rw [UInt8.le_iff_toNat_le, hb]
    exact hl
  have hle' : UInt8.ofNat c.toNat ≤ (0x39 : UInt8) := by
    rw [UInt8.le_iff_toNat_le, hb]
    exact hu
  refine ⟨by simp only [isDigit, hle, hle', decide_true, Bool.and_self], ?_⟩
  rw [UInt8.toNat_sub_of_le _ _ hle, hb]
  rfl

theorem isDigit_digits {n : Nat} {b : UInt8} (h : b ∈ digits n) : isDigit b = true := by
  rw [digits_eq] at h
  obtain ⟨c, hc, rfl⟩ := List.mem_map.1 h
  exact (digit_byte (isDigit_of_mem_toDigits hc)).1

theorem ofDecimal_digits (n : Nat) : ofDecimal (digits n) = n := by
  have fold {cs : List Char} (h : ∀ c ∈ cs, c.isDigit = true) (m : Nat) :
      (cs.map fun c => UInt8.ofNat c.toNat).foldl (fun n b => n * 10 + (b - 0x30).toNat) m =
        Nat.ofDigitChars 10 cs m := by
    induction cs generalizing m with
    | nil => rfl
    | cons c cs ih =>
      obtain ⟨hc, hcs⟩ := List.forall_mem_cons.1 h
      rw [List.map_cons, List.foldl_cons, ih hcs, (digit_byte hc).2, Nat.ofDigitChars_cons,
        Nat.mul_comm]
  rw [digits_eq, ofDecimal, fold fun c => isDigit_of_mem_toDigits]
  exact Nat.ofDigitChars_toDigits (by decide) (by decide)

theorem length_digits_le {n k : Nat} (hk : 0 < k) (hn : n < 10 ^ k) : (digits n).length ≤ k := by
  rw [digits_eq, List.length_map]
  exact (Nat.length_toDigits_le_iff (by decide) hk).2 hn

end Numeral

end OriginServer
