import Mathlib.Data.List.Basic
import OriginServer.Proofs.Text.Numeral

namespace OriginServer

theorem sameLetters_iff {s t : String} :
    sameLetters s t = true ↔ s.toList.map Char.toLower = t.toList.map Char.toLower := by
  rw [sameLetters, beq_iff_eq]

@[simp] theorem sameLetters_refl (s : String) : sameLetters s s = true := sameLetters_iff.2 rfl

theorem sameLetters_comm (s t : String) : sameLetters s t = sameLetters t s := by
  rw [sameLetters, sameLetters, Bool.beq_comm]

/-- Texts that are alike are alike to the same texts. -/
theorem sameLetters_congr {s t : String} (h : sameLetters s t = true) (u : String) :
    sameLetters s u = sameLetters t u := by
  rw [sameLetters, sameLetters, sameLetters_iff.1 h]

namespace Bytes

theorem ofText_eq (s : String) : ofText s = s.toList.flatMap String.utf8EncodeChar := by
  rw [← ofText_ofList, String.ofList_toList]

theorem ofText_inj {s t : String} : ofText s = ofText t ↔ s = t := by
  refine ⟨fun h => ?_, congrArg ofText⟩
  have hdata : s.toUTF8.data = t.toUTF8.data := Array.toList_inj.1 h
  exact String.toByteArray_inj.1 (ByteArray.ext hdata)

/-- Bytes of other characters than ASCII are no letters. -/
theorem toLower_ofNat {n : Nat} (h : 128 ≤ n) (hn : n < 256) :
    Ascii.toLower (UInt8.ofNat n) = UInt8.ofNat n := by
  have hu : Ascii.isUpper (UInt8.ofNat n) = false := by
    have hb : (UInt8.ofNat n).toNat = n := by rw [UInt8.toNat_ofNat', Nat.mod_eq_of_lt hn]
    simp only [Ascii.isUpper, Bool.and_eq_false_iff, decide_eq_false_iff_not,
      UInt8.le_iff_toNat_le, hb, UInt8.reduceToNat]
    omega
  rw [Ascii.toLower, hu]
  rfl

theorem map_toLower_encode (c : Char) :
    (String.utf8EncodeChar c).map Ascii.toLower = String.utf8EncodeChar c.toLower := by
  by_cases hc : c.toNat < 128
  · have ascii : ∀ n : Fin 128, (String.utf8EncodeChar (Char.ofNat n)).map Ascii.toLower =
        String.utf8EncodeChar (Char.ofNat n).toLower := by decide +kernel
    simpa using ascii ⟨c.toNat, hc⟩
  · have hlower : c.toLower = c := by
      have hz : ¬ c.val ≤ 'Z'.val := by
        intro hle
        exact hc (Nat.lt_of_le_of_lt (UInt32.le_iff_toNat_le.1 hle) (by decide))
      exact dif_neg fun h => hz h.2
    have hval : ¬ c.val.toNat ≤ 127 := fun h => hc (Nat.lt_succ_of_le h)
    rw [hlower]
    unfold String.utf8EncodeChar
    simp only [if_neg hval]
    split
    · simp (disch := omega) only [List.map_cons, List.map_nil, toLower_ofNat]
    · split
      all_goals simp (disch := omega) only [List.map_cons, List.map_nil, toLower_ofNat]

theorem map_toLower_ofText (s : String) :
    (ofText s).map Ascii.toLower = ofText (String.ofList (s.toList.map Char.toLower)) := by
  rw [ofText_ofList, ofText_eq, List.map_flatMap, List.flatMap_map]
  exact List.flatMap_congr fun c _ => map_toLower_encode c

/-- The case of letters is the same for a text and for its bytes. -/
theorem sameLetters_ofText (s t : String) :
    (ofText s).sameLetters (ofText t) = OriginServer.sameLetters s t := by
  rw [Bool.eq_iff_iff, Bytes.sameLetters, beq_iff_eq, map_toLower_ofText, map_toLower_ofText,
    ofText_inj, String.ofList_inj, sameLetters_iff]

end Bytes

end OriginServer
