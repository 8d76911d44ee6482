import OriginServer.Proofs.Text.Numeral
import OriginServer.Text.Base64

namespace OriginServer.Base64

section Letters

theorem sextet?_letter {n : Nat} (h : n < 64) : sextet? (letter n) = some n := by
  have htable : ∀ n < 64, sextet? (letter n) = some n := by decide
  exact htable n h

theorem sextet?_eq_some {b : UInt8} {n : Nat} (h : sextet? b = some n) :
    n < 64 ∧ letter n = b := by
  have htable : ∀ i < 256, ∀ n ∈ sextet? (UInt8.ofNat i), n < 64 ∧ letter n = UInt8.ofNat i := by
    decide +kernel
  have hb := htable b.toNat b.toNat_lt n
  rw [UInt8.ofNat_toNat] at hb
  exact hb h

theorem sextet?_pad : sextet? pad = none := by decide

example : (List.range 64).map letter =
    Bytes.ofText "ABCDEFGHIJKLMNOPQRSTUVWXYZabcdefghijklmnopqrstuvwxyz0123456789+/" := by decide

end Letters

section Groups

variable {w x y z : Nat}

theorem ofNat_eq {n : Nat} {b : UInt8} (h : n % 256 = b.toNat) : UInt8.ofNat n = b :=
  UInt8.toNat_inj.1 (UInt8.toNat_ofNat'.trans h)

/-- Four letters are those of the three bytes with the same bits. -/
theorem encode_group (hw : w < 64) (hx : x < 64) (hy : y < 64) (hz : z < 64) (rest : Bytes) :
    let n := w * 2 ^ 18 + x * 2 ^ 12 + y * 2 ^ 6 + z
    encode (UInt8.ofNat (n / 2 ^ 16) :: UInt8.ofNat (n / 2 ^ 8) :: UInt8.ofNat n :: rest) =
      letter w :: letter x :: letter y :: letter z :: encode rest := by
  intro n
  have hn : n / 2 ^ 16 % 256 * 2 ^ 16 + n / 2 ^ 8 % 256 * 2 ^ 8 + n % 256 = n := by omega
  have hparts : n / 2 ^ 18 = w ∧ n / 2 ^ 12 % 64 = x ∧ n / 2 ^ 6 % 64 = y ∧ n % 64 = z := by omega
  obtain ⟨h₁, h₂, h₃, h₄⟩ := hparts
  simp only [encode, UInt8.toNat_ofNat', Nat.reducePow] at hn h₁ h₂ h₃ h₄ ⊢
  rw [hn, h₁, h₂, h₃, h₄]

/-- Three letters are those of two bytes if no bit is left over. -/
theorem encode_pair (hw : w < 64) (hx : x < 64) (hy : y < 64) (hz : y % 4 = 0) :
    let n := w * 2 ^ 18 + x * 2 ^ 12 + y * 2 ^ 6
    encode [UInt8.ofNat (n / 2 ^ 16), UInt8.ofNat (n / 2 ^ 8)] =
      [letter w, letter x, letter y, pad] := by
  intro n
  have hn : n / 2 ^ 16 % 256 * 2 ^ 16 + n / 2 ^ 8 % 256 * 2 ^ 8 = n := by omega
  have hparts : n / 2 ^ 18 = w ∧ n / 2 ^ 12 % 64 = x ∧ n / 2 ^ 6 % 64 = y := by omega
  obtain ⟨h₁, h₂, h₃⟩ := hparts
  simp only [encode, UInt8.toNat_ofNat', Nat.reducePow] at hn h₁ h₂ h₃ ⊢
  rw [hn, h₁, h₂, h₃]

/-- Two letters are those of one byte if no bit is left over. -/
theorem encode_single (hw : w < 64) (hx : x < 64) (hz : x % 16 = 0) :
    let n := w * 2 ^ 18 + x * 2 ^ 12
    encode [UInt8.ofNat (n / 2 ^ 16)] = [letter w, letter x, pad, pad] := by
  intro n
  have hn : n / 2 ^ 16 % 256 * 2 ^ 16 = n := by omega
  have hparts : n / 2 ^ 18 = w ∧ n / 2 ^ 12 % 64 = x := by omega
  obtain ⟨h₁, h₂⟩ := hparts
  simp only [encode, UInt8.toNat_ofNat', Nat.reducePow] at hn h₁ h₂ ⊢
  rw [hn, h₁, h₂]

/-- Four letters in front of others are decoded to three bytes. -/
theorem decode?_group (hw : w < 64) (hx : x < 64) (hy : y < 64) (hz : z < 64) (rest : Bytes) :
    decode? (letter w :: letter x :: letter y :: letter z :: rest) =
      (decode? rest).map fun tail =>
        UInt8.ofNat ((w * 2 ^ 18 + x * 2 ^ 12 + y * 2 ^ 6 + z) / 2 ^ 16) ::
          UInt8.ofNat ((w * 2 ^ 18 + x * 2 ^ 12 + y * 2 ^ 6 + z) / 2 ^ 8) ::
            UInt8.ofNat (w * 2 ^ 18 + x * 2 ^ 12 + y * 2 ^ 6 + z) :: tail := by
  cases rest with
  | nil =>
    simp only [decode?, sextet?_letter hw, sextet?_letter hx, sextet?_letter hy,
      sextet?_letter hz, Option.map_some]
  | cons b rest =>
    simp only [decode?, sextet?_letter hw, sextet?_letter hx, sextet?_letter hy, sextet?_letter hz]
    cases decode? (b :: rest) <;> rfl

theorem decode?_pair (hw : w < 64) (hx : x < 64) (hy : y < 64) (hzero : y % 4 = 0) :
    decode? [letter w, letter x, letter y, pad] =
      some [UInt8.ofNat ((w * 2 ^ 18 + x * 2 ^ 12 + y * 2 ^ 6) / 2 ^ 16),
        UInt8.ofNat ((w * 2 ^ 18 + x * 2 ^ 12 + y * 2 ^ 6) / 2 ^ 8)] := by
  simp only [decode?, sextet?_letter hw, sextet?_letter hx, sextet?_letter hy, sextet?_pad, hzero,
    and_self, if_true]

theorem decode?_single (hw : w < 64) (hx : x < 64) (hzero : x % 16 = 0) :
    decode? [letter w, letter x, pad, pad] =
      some [UInt8.ofNat ((w * 2 ^ 18 + x * 2 ^ 12) / 2 ^ 16)] := by
  simp only [decode?, sextet?_letter hw, sextet?_letter hx, sextet?_pad, hzero, and_self, if_true]

/-- What is written is decoded again. -/
theorem decode?_encode (bytes : Bytes) : decode? (encode bytes) = some bytes := by
  fun_induction encode bytes with
  | case1 => rfl
  | case2 a n =>
    have ha := a.toNat_lt
    rw [decode?_single (by omega) (by omega) (by omega), ofNat_eq (b := a) (by omega)]
  | case3 a b n =>
    have ha := a.toNat_lt
    have hb := b.toNat_lt
    rw [decode?_pair (by omega) (by omega) (by omega) (by omega),
      ofNat_eq (b := a) (by omega), ofNat_eq (b := b) (by omega)]
  | case4 a b c rest n ih =>
    have ha := a.toNat_lt
    have hb := b.toNat_lt
    have hc := c.toNat_lt
    rw [decode?_group (by omega) (by omega) (by omega) (by omega), ih, Option.map_some,
      ofNat_eq (b := a) (by omega), ofNat_eq (b := b) (by omega), ofNat_eq (b := c) (by omega)]

/-- What is decoded was written for that. -/
theorem encode_of_decode? {text bytes : Bytes} (h : decode? text = some bytes) :
    encode bytes = text := by
  fun_induction decode? text generalizing bytes with
  | case1 =>
    cases h
    rfl
  | case2 w x y z i j k l hz hy hx hw =>
    obtain ⟨hi, rfl⟩ := sextet?_eq_some hw
    obtain ⟨hj, rfl⟩ := sextet?_eq_some hx
    obtain ⟨hk, rfl⟩ := sextet?_eq_some hy
    obtain ⟨hl, rfl⟩ := sextet?_eq_some hz
    rw [← Option.some.inj h]
    exact encode_group hi hj hk hl []
  | case3 w x y z i j k hz hy hx hw =>
    rename_i hend
    obtain ⟨hi, rfl⟩ := sextet?_eq_some hw
    obtain ⟨hj, rfl⟩ := sextet?_eq_some hx
    obtain ⟨hk, rfl⟩ := sextet?_eq_some hy
    rw [← Option.some.inj h, hend.1]
    exact encode_pair hi hj hk hend.2
  | case5 w x y z i j hz hy hx hw =>
    rename_i hend
    obtain ⟨hi, rfl⟩ := sextet?_eq_some hw
    obtain ⟨hj, rfl⟩ := sextet?_eq_some hx
    rw [← Option.some.inj h, hend.1, hend.2.1]
    exact encode_single hi hj hend.2.2
  | case8 w x y z rest hne i j k l tail ht hz hy hx hw =>
    rename_i ih
    obtain ⟨hi, rfl⟩ := sextet?_eq_some hw
    obtain ⟨hj, rfl⟩ := sextet?_eq_some hx
    obtain ⟨hk, rfl⟩ := sextet?_eq_some hy
    obtain ⟨hl, rfl⟩ := sextet?_eq_some hz
    rw [← Option.some.inj h, ← ih ht]
    exact encode_group hi hj hk hl tail
  | case4 | case6 | case7 | case9 | case10 => cases h

end Groups

section Forms

variable {text bytes front : Bytes}

/-- A text is decoded if and only if it is an encoded form, and then to what it is the form of. -/
theorem decode?_eq_some_iff : decode? text = some bytes ↔ text = encode bytes :=
  ⟨fun h => (encode_of_decode? h).symm, fun h => h ▸ decode?_encode bytes⟩

theorem length_encode (bytes : Bytes) : (encode bytes).length = 4 * ((bytes.length + 2) / 3) := by
  fun_induction encode bytes with
  | case1 => rfl
  | case2 | case3 => simp only [List.length_cons, List.length_nil, Nat.reduceAdd, Nat.reduceDiv]
  | case4 a b c rest n ih =>
    simp only [List.length_cons, ih]
    omega

/-- Bytes in whole groups are written apart from those behind them. -/
theorem encode_append (h : front.length % 3 = 0) (rest : Bytes) :
    encode (front ++ rest) = encode front ++ encode rest := by
  fun_induction encode front with
  | case1 => rfl
  | case2 | case3 => simp at h
  | case4 a b c front n ih =>
    have hf : front.length % 3 = 0 := by
      simp only [List.length_cons] at h
      omega
    simp only [List.cons_append, encode, ih hf]
    rfl

/-- Letters of the alphabet only, without padding. -/
def Letters (text : Bytes) : Prop := ∀ b ∈ text, ∃ n < 64, letter n = b

theorem letters_encode (h : bytes.length % 3 = 0) : Letters (encode bytes) := by
  fun_induction encode bytes with
  | case1 => exact List.forall_mem_nil _
  | case2 | case3 => simp at h
  | case4 a b c rest n ih =>
    have ha := a.toNat_lt
    have hb := b.toNat_lt
    have hc := c.toNat_lt
    have hr : rest.length % 3 = 0 := by
      simp only [List.length_cons] at h
      omega
    refine List.forall_mem_cons.2 ⟨⟨_, by omega, rfl⟩, ?_⟩
    refine List.forall_mem_cons.2 ⟨⟨_, by omega, rfl⟩, ?_⟩
    refine List.forall_mem_cons.2 ⟨⟨_, by omega, rfl⟩, ?_⟩
    exact List.forall_mem_cons.2 ⟨⟨_, by omega, rfl⟩, ih hr⟩

/-- Letters in groups of four are written for some bytes. -/
theorem exists_encode (groups : Nat) (hl : text.length = 4 * groups) (h : Letters text) :
    ∃ bytes : Bytes, bytes.length = 3 * groups ∧ encode bytes = text := by
  induction groups generalizing text with
  | zero =>
    obtain rfl := List.length_eq_zero_iff.1 hl
    exact ⟨[], rfl, rfl⟩
  | succ groups ih =>
    match text, hl with
    | w :: x :: y :: z :: rest, hl =>
      obtain ⟨⟨i, hi, rfl⟩, h₁⟩ := List.forall_mem_cons.1 h
      obtain ⟨⟨j, hj, rfl⟩, h₂⟩ := List.forall_mem_cons.1 h₁
      obtain ⟨⟨k, hk, rfl⟩, h₃⟩ := List.forall_mem_cons.1 h₂
      obtain ⟨⟨l, hz, rfl⟩, h₄⟩ := List.forall_mem_cons.1 h₃
      have hrest : rest.length = 4 * groups := by
        simp only [List.length_cons] at hl
        omega
      obtain ⟨tail, ht, rfl⟩ := ih hrest h₄
      refine ⟨_, ?_, encode_group hi hj hk hz tail⟩
      simp only [List.length_cons, ht]
      omega

theorem exists_concat {n : Nat} (h : text.length = n + 1) :
    ∃ front b, text = front ++ [b] ∧ front.length = n := by
  refine ⟨text.dropLast, text.getLast (List.ne_nil_of_length_eq_add_one h), ?_, ?_⟩
  · exact (List.dropLast_concat_getLast _).symm
  · rw [List.length_dropLast, h, Nat.add_sub_cancel]

/-- Whole groups and one byte more are written with two signs of padding, and the letter in front of
these has four bits that stand for nothing and are zero. -/
theorem encode_padded_iff (groups : Nat) :
    (∃ bytes : Bytes, bytes.length = 3 * groups + 1 ∧ text = encode bytes) ↔
      ∃ front v, text = front ++ [letter v, pad, pad] ∧ front.length = 4 * groups + 1 ∧
        Letters front ∧ v < 64 ∧ v % 16 = 0 := by
  constructor
  · rintro ⟨bytes, hl, rfl⟩
    obtain ⟨whole, a, rfl, hlength⟩ := exists_concat hl
    have ha := a.toNat_lt
    have hw : whole.length % 3 = 0 := by omega
    refine ⟨encode whole ++ [letter (a.toNat * 2 ^ 16 / 2 ^ 18)], a.toNat * 2 ^ 16 / 2 ^ 12 % 64,
      ?_, ?_, ?_, by omega, by omega⟩
    · rw [encode_append hw, List.append_assoc]
      rfl
    · rw [List.length_append, length_encode, List.length_singleton]
      omega
    · refine List.forall_mem_append.2 ⟨letters_encode hw, ?_⟩
      exact List.forall_mem_singleton.2 ⟨_, by omega, rfl⟩
  · rintro ⟨front, v, rfl, hl, hfront, hv, hzero⟩
    obtain ⟨whole, b, rfl, hw⟩ := exists_concat hl
    obtain ⟨hwhole, hb⟩ := List.forall_mem_append.1 hfront
    obtain ⟨i, hi, rfl⟩ := hb b (List.mem_singleton_self b)
    obtain ⟨bytes, hbytes, rfl⟩ := exists_encode groups hw hwhole
    refine ⟨bytes ++ [UInt8.ofNat ((i * 2 ^ 18 + v * 2 ^ 12) / 2 ^ 16)], ?_, ?_⟩
    · rw [List.length_append, hbytes, List.length_singleton]
    · rw [encode_append (by omega), encode_single hi hv hzero, List.append_assoc]
      rfl

end Forms

section Texts

theorem letter_ascii (n : Nat) : (letter n).toNat < 128 := by
  unfold letter
  split
  · rw [UInt8.toNat_ofNat']
    omega
  · split
    · rw [UInt8.toNat_ofNat']
      omega
    · split
      · rw [UInt8.toNat_ofNat']
        omega
      · split <;> decide

theorem encode_ascii (bytes : Bytes) : ∀ b ∈ encode bytes, b.toNat < 128 := by
  have hpad : pad.toNat < 128 := by decide
  fun_induction encode bytes with
  | case1 => exact List.forall_mem_nil _
  | case2 a n => simp [letter_ascii, hpad]
  | case3 a b n => simp [letter_ascii, hpad]
  | case4 a b c rest n ih => simpa [letter_ascii] using ih

/-- The text has the encoded bytes for its characters. -/
theorem ofText_encodeText (bytes : Bytes) : Bytes.ofText (encodeText bytes) = encode bytes := by
  have htable : ∀ n < 128, (Char.ofNat n).toNat = n := by decide
  have hchar : ∀ b ∈ encode bytes, (Char.ofNat b.toNat).toNat = b.toNat := fun b hb =>
    htable b.toNat (encode_ascii bytes b hb)
  rw [encodeText, Bytes.ofText_ascii, List.map_map]
  · refine (List.map_congr_left fun b hb => ?_).trans (List.map_id _)
    exact (congrArg UInt8.ofNat (hchar b hb)).trans UInt8.ofNat_toNat
  · intro c hc
    obtain ⟨b, hb, rfl⟩ := List.mem_map.1 hc
    rw [hchar b hb]
    exact encode_ascii bytes b hb

end Texts

end OriginServer.Base64
