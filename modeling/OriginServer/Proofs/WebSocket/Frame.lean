import Mathlib.Data.List.Induction
import OriginServer.Proofs.Scan
import OriginServer.Proofs.Span
import OriginServer.WebSocket.Frame

namespace OriginServer.WebSocket

open Scanner

section BigEndian

theorem length_toBigEndian (width n : Nat) : (toBigEndian width n).length = width := by
  simp [toBigEndian]

theorem toBigEndian_succ (width n : Nat) :
    toBigEndian (width + 1) n = toBigEndian width (n / 256) ++ [UInt8.ofNat n] := by
  rw [toBigEndian, List.range_succ, List.map_append, List.map_singleton, toBigEndian]
  congr 1
  · apply List.map_congr_left
    intro i hi
    have hlt := List.mem_range.1 hi
    have he : width + 1 - 1 - i = (width - 1 - i) + 1 := by omega
    rw [he, Nat.pow_succ, Nat.mul_comm, Nat.div_div_eq_div_mul]
  · simp

theorem ofBigEndian_concat (b : Bytes) (x : UInt8) :
    ofBigEndian (b ++ [x]) = ofBigEndian b * 256 + x.toNat := by
  simp [ofBigEndian, List.foldl_append]

theorem ofBigEndian_toBigEndian {width n : Nat} (h : n < 256 ^ width) :
    ofBigEndian (toBigEndian width n) = n := by
  induction width generalizing n with
  | zero =>
    rw [Nat.pow_zero] at h
    rw [Nat.lt_one_iff.1 h]
    rfl
  | succ width ih =>
    rw [Nat.pow_succ] at h
    rw [toBigEndian_succ, ofBigEndian_concat, ih (by omega), UInt8.toNat_ofNat']
    omega

theorem toBigEndian_ofBigEndian (b : Bytes) : toBigEndian b.length (ofBigEndian b) = b := by
  induction b using List.reverseRecOn with
  | nil => rfl
  | append_singleton b x ih =>
    have hx := x.toNat_lt
    have hd : (ofBigEndian b * 256 + x.toNat) / 256 = ofBigEndian b := by omega
    have ho : UInt8.ofNat (ofBigEndian b * 256 + x.toNat) = x := by
      apply UInt8.toNat_inj.1
      rw [UInt8.toNat_ofNat']
      omega
    rw [List.length_append, List.length_singleton, toBigEndian_succ, ofBigEndian_concat, hd, ho, ih]

theorem ofBigEndian_lt (b : Bytes) : ofBigEndian b < 256 ^ b.length := by
  induction b using List.reverseRecOn with
  | nil => decide
  | append_singleton b x ih =>
    have hx := x.toNat_lt
    rw [List.length_append, List.length_singleton, ofBigEndian_concat, Nat.pow_succ]
    omega

theorem reads_bigEndian {width n : Nat} (h : n < 256 ^ width) :
    Reads (ofBigEndian <$> take width : Scanner FrameError Nat) (toBigEndian width n) n := by
  have ht : Reads (ofBigEndian <$> take width : Scanner FrameError Nat) (toBigEndian width n) _ :=
    (reads_take (length_toBigEndian width n)).map ofBigEndian
  rwa [ofBigEndian_toBigEndian h] at ht

theorem bigEndian_sound {width n : Nat} {c next : Cursor}
    (h : (ofBigEndian <$> take width : Scanner FrameError Nat) c = .done n next) :
    c.rest = toBigEndian width n ++ next.rest ∧ next.pos = c.pos + width ∧ n < 256 ^ width := by
  obtain ⟨b, hb, rfl⟩ := map_eq_done h
  obtain ⟨rfl, hr, hp⟩ := take_eq_done hb
  exact ⟨by rw [toBigEndian_ofBigEndian, hr], hp, ofBigEndian_lt b⟩

end BigEndian

section Mask

@[simp] theorem MaskKey.apply_apply (k : MaskKey) (payload : Bytes) :
    k.apply (k.apply payload) = payload := by
  apply List.ext_getElem
  · simp [MaskKey.apply]
  · intro i _ _
    simp only [MaskKey.apply, List.getElem_mapIdx, UInt8.xor_assoc, UInt8.xor_self,
      UInt8.xor_zero]

@[simp] theorem masked_masked (key : Option MaskKey) (payload : Bytes) :
    masked key (masked key payload) = payload := by
  cases key with
  | none => rfl
  | some k => exact k.apply_apply payload

@[simp] theorem length_masked (key : Option MaskKey) (payload : Bytes) :
    (masked key payload).length = payload.length := by
  cases key with
  | none => rfl
  | some k => exact List.length_mapIdx

/-- The bytes of a key, if there is one. -/
def keyBytes : Option MaskKey → Bytes
  | some key => key.bytes
  | none => []

theorem MaskKey.ofBytes?_eq_some {b : Bytes} (h : b.length = 4) :
    ∃ k : MaskKey, MaskKey.ofBytes? b = some k ∧ b = k.bytes := by
  match b, h with
  | [a, b, c, d], _ => exact ⟨⟨a, b, c, d⟩, rfl, rfl⟩

end Mask

section Opcode

theorem Opcode.code_lt (o : Opcode) : o.code < 16 := by
  cases o <;> decide

theorem Opcode.ofCode?_code (o : Opcode) : Opcode.ofCode? o.code = some o := by
  cases o <;> rfl

theorem Opcode.code_of_ofCode? {n : Nat} {o : Opcode} (h : Opcode.ofCode? n = some o) :
    o.code = n := by
  have hf := List.find?_some h
  exact eq_of_beq hf

end Opcode

section Length

/-- A length as the second byte of a frame gives it. -/
def shortLength (n : Nat) : Nat := if n ≤ 125 then n else if n ≤ 0xffff then 126 else 127

/-- The bytes behind the second one that a length takes. -/
def extendedLength (n : Nat) : Bytes :=
  if n ≤ 125 then [] else if n ≤ 0xffff then toBigEndian 2 n else toBigEndian 8 n

theorem lengthBytes_eq (maskBit n : Nat) :
    lengthBytes maskBit n = UInt8.ofNat (maskBit + shortLength n) :: extendedLength n := by
  simp only [lengthBytes, shortLength, extendedLength]
  split
  · rfl
  · split <;> rfl

theorem shortLength_lt (n : Nat) : shortLength n < 128 := by
  unfold shortLength
  split
  · omega
  · split <;> omega

theorem lengths_short {n : Nat} (h : n ≤ 125) : shortLength n = n ∧ extendedLength n = [] :=
  ⟨if_pos h, if_pos h⟩

theorem lengths_medium {n : Nat} (h : 125 < n) (h' : n ≤ 0xffff) :
    shortLength n = 126 ∧ extendedLength n = toBigEndian 2 n := by
  simp only [shortLength, extendedLength, if_neg (Nat.not_le.2 h), if_pos h', and_self]

theorem lengths_long {n : Nat} (h : 0xffff < n) :
    shortLength n = 127 ∧ extendedLength n = toBigEndian 8 n := by
  have h' : ¬ n ≤ 125 := by omega
  simp only [shortLength, extendedLength, if_neg h', if_neg (Nat.not_le.2 h), and_self]

theorem reads_payloadLength {n : Nat} (hn : n < 2 ^ 63) :
    Reads (payloadLength (shortLength n)) (extendedLength n) n := by
  by_cases h₁ : n ≤ 125
  · obtain ⟨hs, he⟩ := lengths_short h₁
    rw [hs, he, payloadLength, if_neg (by omega), if_neg (by omega)]
    exact reads_pure n
  · by_cases h₂ : n ≤ 0xffff
    · obtain ⟨hs, he⟩ := lengths_medium (Nat.not_le.1 h₁) h₂
      have ht := reads_bigEndian (show n < 256 ^ 2 by omega)
      rw [hs, he, payloadLength, if_pos rfl, ← List.append_nil (toBigEndian 2 n)]
      exact ht.bind ((reads_ensure (by simp; omega) _).bind (reads_pure n))
    · obtain ⟨hs, he⟩ := lengths_long (Nat.not_le.1 h₂)
      have ht := reads_bigEndian (show n < 256 ^ 8 by omega)
      rw [hs, he, payloadLength, if_neg (by decide), if_pos rfl,
        ← List.append_nil (toBigEndian 8 n)]
      exact ht.bind ((reads_ensure (by simp; omega) _).bind
        ((reads_ensure (by simp; omega) _).bind (reads_pure n)))

theorem payloadLength_sound {short n : Nat} {c next : Cursor} (hs : short < 128)
    (h : payloadLength short c = .done n next) :
    short = shortLength n ∧ c.rest = extendedLength n ++ next.rest ∧
      next.pos = c.pos + (extendedLength n).length := by
  unfold payloadLength at h
  split at h
  · rename_i h₁
    obtain ⟨m, mid, hm, h⟩ := bind_eq_done h
    obtain ⟨_, _, he, h⟩ := bind_eq_done h
    obtain ⟨rfl, rfl⟩ := pure_eq_done h
    obtain ⟨hc, rfl⟩ := ensure_eq_done he
    obtain ⟨hr, hp, hn⟩ := bigEndian_sound hm
    have hc := of_decide_eq_true hc
    obtain ⟨hs', he'⟩ := lengths_medium (n := n) (by omega) (by omega)
    rw [hs', he', length_toBigEndian]
    exact ⟨h₁, hr, hp⟩
  · split at h
    · rename_i h₂
      obtain ⟨m, mid, hm, h⟩ := bind_eq_done h
      obtain ⟨_, _, ho, h⟩ := bind_eq_done h
      obtain ⟨_, _, he, h⟩ := bind_eq_done h
      obtain ⟨rfl, rfl⟩ := pure_eq_done h
      obtain ⟨hc, rfl⟩ := ensure_eq_done he
      obtain ⟨-, rfl⟩ := ensure_eq_done ho
      obtain ⟨hr, hp, -⟩ := bigEndian_sound hm
      have hc := of_decide_eq_true hc
      obtain ⟨hs', he'⟩ := lengths_long (n := n) (by omega)
      rw [hs', he', length_toBigEndian]
      exact ⟨h₂, hr, hp⟩
    · obtain ⟨rfl, rfl⟩ := pure_eq_done h
      obtain ⟨hs', he'⟩ := lengths_short (n := n) (by omega)
      rw [hs', he']
      exact ⟨rfl, rfl, rfl⟩

end Length

section Key

theorem reads_maskKey (mask : Option MaskKey) :
    Reads (maskKey mask.isSome) (keyBytes mask) mask := by
  cases mask with
  | none => exact reads_pure none
  | some key =>
    have hl : key.bytes.length = 4 := rfl
    exact (reads_take hl).map MaskKey.ofBytes?

theorem maskKey_sound {announced : Bool} {mask : Option MaskKey} {c next : Cursor}
    (h : maskKey announced c = .done mask next) :
    announced = mask.isSome ∧ c.rest = keyBytes mask ++ next.rest ∧
      next.pos = c.pos + (keyBytes mask).length := by
  unfold maskKey at h
  split at h
  · rename_i ha
    obtain ⟨b, hb, rfl⟩ := map_eq_done h
    obtain ⟨hl, hr, hp⟩ := take_eq_done hb
    obtain ⟨key, hk, rfl⟩ := MaskKey.ofBytes?_eq_some hl
    rw [hk]
    exact ⟨ha, hr, hp⟩
  · rename_i ha
    obtain ⟨rfl, rfl⟩ := pure_eq_done h
    exact ⟨by simpa using ha, rfl, rfl⟩

end Key

section Header

/-- A bit in front of a number. -/
def flag (set : Bool) : Nat := if set then 128 else 0

theorem flag_add (set : Bool) {n : Nat} (h : n < 128) :
    (flag set + n) % 128 = n ∧ decide (128 ≤ flag set + n) = set ∧ flag set + n < 256 := by
  cases set <;> simp [flag] <;> omega

theorem toNat_ofNat_of_lt {n : Nat} (h : n < 256) : (UInt8.ofNat n).toNat = n := by
  rw [UInt8.toNat_ofNat']
  omega

/-- A byte is its highest bit in front of the others. -/
theorem ofNat_flag (b : UInt8) : UInt8.ofNat (flag (128 ≤ b.toNat) + b.toNat % 128) = b := by
  apply UInt8.toNat_inj.1
  have hb := b.toNat_lt
  rw [UInt8.toNat_ofNat']
  by_cases h : 128 ≤ b.toNat
  · simp only [flag, h, decide_true, if_true]
    omega
  · simp only [flag, h, decide_false]
    simp
    omega

/-- The bytes of a frame between the first one and its payload. -/
def sizeBytes (length : Nat) (mask : Option MaskKey) : Bytes :=
  UInt8.ofNat (flag mask.isSome + shortLength length) :: (extendedLength length ++ keyBytes mask)

theorem headerBytes_eq (opcode : Opcode) (fin : Bool) (length : Nat) (mask : Option MaskKey) :
    headerBytes opcode fin length mask =
      UInt8.ofNat (flag fin + opcode.code) :: sizeBytes length mask := by
  simp only [headerBytes, lengthBytes_eq, sizeBytes, flag]
  cases mask <;> simp [keyBytes]

theorem frameBytes_eq (opcode : Opcode) (fin : Bool) (payload : Bytes) (mask : Option MaskKey) :
    frameBytes opcode fin payload mask =
      UInt8.ofNat (flag fin + opcode.code) ::
        (sizeBytes payload.length mask ++ masked mask payload) := by
  rw [frameBytes, headerBytes_eq, List.cons_append]

theorem reads_firstByte (fin : Bool) (opcode : Opcode) :
    Reads firstByte [UInt8.ofNat (flag fin + opcode.code)] (fin, opcode) := by
  have hc := opcode.code_lt
  obtain ⟨hm, hf, hl⟩ := flag_add fin (show opcode.code < 128 by omega)
  have hn := toNat_ofNat_of_lt hl
  have hr : (UInt8.ofNat (flag fin + opcode.code)).toNat / 16 % 8 = 0 := by omega
  have ho : (UInt8.ofNat (flag fin + opcode.code)).toNat % 16 = opcode.code := by omega
  refine (reads_any _).bind ((reads_ensure (by rw [hr]; rfl) _).bind ?_ : Reads _ ([] ++ []) _)
  rw [ho, Opcode.ofCode?_code, hn, hf]
  exact reads_pure _

theorem firstByte_sound {fin : Bool} {opcode : Opcode} {c next : Cursor}
    (h : firstByte c = .done (fin, opcode) next) :
    c.rest = UInt8.ofNat (flag fin + opcode.code) :: next.rest ∧ next.pos = c.pos + 1 := by
  obtain ⟨b, mid, hb, h₁⟩ := bind_eq_done h
  obtain ⟨_, _, he, h₂⟩ := bind_eq_done h₁
  obtain ⟨hz, rfl⟩ := ensure_eq_done he
  obtain ⟨hr, hp⟩ := any_eq_done hb
  cases ho : Opcode.ofCode? (b.toNat % 16) with
  | none =>
    rw [ho] at h₂
    cases h₂
  | some o =>
    rw [ho] at h₂
    cases h₂
    have hz := eq_of_beq hz
    have hc : opcode.code = b.toNat % 128 := by
      rw [Opcode.code_of_ofCode? ho]
      omega
    rw [hc, ofNat_flag]
    exact ⟨hr, hp⟩

/-- A control frame that is short and ends its message passes. -/
theorem controlRules_pass {fin : Bool} {opcode : Opcode} {c : Cursor}
    (h : opcode.isControl = true → fin = true ∧ ∀ b ∈ c.rest.head?, b.toNat % 128 ≤ 125) :
    controlRules fin opcode c = .done () c := by
  unfold controlRules
  by_cases hc : opcode.isControl = true
  · obtain ⟨rfl, hb⟩ := h hc
    rw [if_pos hc]
    refine (bind_of_done (reads_ensure rfl _ c.pos c.rest)).trans ?_
    obtain ⟨pos, rest⟩ := c
    cases rest with
    | nil => rfl
    | cons b rest => exact if_neg (Nat.not_lt.2 (hb b rfl))
  · rw [if_neg hc]
    rfl

theorem controlRules_sound {fin : Bool} {opcode : Opcode} {c next : Cursor}
    (h : controlRules fin opcode c = .done () next) : next = c := by
  unfold controlRules at h
  split at h
  · obtain ⟨_, mid, he, hm⟩ := bind_eq_done h
    obtain ⟨-, rfl⟩ := ensure_eq_done he
    split at hm
    · cases hm
      rfl
    · split at hm
      · cases hm
      · cases hm
        rfl
  · exact (pure_eq_done h).2

end Header

section Frame

theorem payload_complete {limit : Nat} {content : Bytes} (mask : Option MaskKey)
    (hn : content.length < 2 ^ 63) (hl : content.length ≤ limit) (pos : Nat) (rest : Bytes) :
    payload limit ⟨pos, sizeBytes content.length mask ++ (content ++ rest)⟩ =
      .done ⟨mask, ⟨pos + (sizeBytes content.length mask).length, content.length⟩⟩
        ⟨pos + (sizeBytes content.length mask).length + content.length, rest⟩ := by
  obtain ⟨hm, hf, hb⟩ := flag_add mask.isSome (shortLength_lt content.length)
  have hp : pos + (sizeBytes content.length mask).length =
      pos + 1 + (extendedLength content.length).length + (keyBytes mask).length := by
    simp only [sizeBytes, List.length_cons, List.length_append]
    omega
  rw [hp]
  simp only [sizeBytes, List.cons_append, List.append_assoc]
  refine (bind_of_done rfl).trans ?_
  rw [toNat_ofNat_of_lt hb, hm, hf]
  refine (bind_of_done (reads_payloadLength hn _ _)).trans ?_
  refine (bind_of_done (reads_ensure (by simpa using hl) _ _ _)).trans ?_
  refine (bind_of_done (reads_maskKey mask _ _)).trans ?_
  refine (bind_of_done rfl).trans ?_
  exact (bind_of_done (reads_take rfl _ _)).trans rfl

theorem payload_sound {limit : Nat} {p : Payload} {c next : Cursor}
    (h : payload limit c = .done p next) :
    ∃ content : Bytes, content.length = p.content.len ∧
      c.rest = sizeBytes p.content.len p.mask ++ (content ++ next.rest) ∧
      p.content.start = c.pos + (sizeBytes p.content.len p.mask).length ∧
      next.pos = p.content.stop := by
  obtain ⟨b, c₁, hb, h₁⟩ := bind_eq_done h
  obtain ⟨n, c₂, hn, h₂⟩ := bind_eq_done h₁
  obtain ⟨_, c₃, he, h₃⟩ := bind_eq_done h₂
  obtain ⟨mask, c₄, hm, h₄⟩ := bind_eq_done h₃
  obtain ⟨start, c₅, hs, h₅⟩ := bind_eq_done h₄
  obtain ⟨content, c₆, ht, h₆⟩ := bind_eq_done h₅
  obtain ⟨rfl, rfl⟩ := pure_eq_done h₆
  obtain ⟨rb, pb⟩ := any_eq_done hb
  obtain ⟨sn, rn, pn⟩ := payloadLength_sound (Nat.mod_lt _ (by decide)) hn
  obtain ⟨-, rfl⟩ := ensure_eq_done he
  obtain ⟨sm, rm, pm⟩ := maskKey_sound hm
  obtain ⟨rfl, rfl⟩ := position_eq_done hs
  obtain ⟨rfl, rt, pt⟩ := take_eq_done ht
  refine ⟨content, rfl, ?_, ?_, pt⟩
  · rw [rb, rn, rm, rt, sizeBytes, ← sm, ← sn, ofNat_flag]
    simp
  · simp only [pm, pn, pb, sizeBytes, List.length_cons, List.length_append]
    omega

theorem controlRules_complete {opcode : Opcode} {fin : Bool} {length : Nat}
    (h : opcode.isControl = true → fin = true ∧ length ≤ 125) (mask : Option MaskKey) (pos : Nat)
    (rest : Bytes) :
    controlRules fin opcode ⟨pos, sizeBytes length mask ++ rest⟩ =
      .done () ⟨pos, sizeBytes length mask ++ rest⟩ := by
  refine controlRules_pass fun hc => ?_
  obtain ⟨hf, hs⟩ := h hc
  refine ⟨hf, fun b hm => ?_⟩
  cases hm
  obtain ⟨hv, -, hlt⟩ := flag_add mask.isSome (shortLength_lt length)
  rw [toNat_ofNat_of_lt hlt, hv, (lengths_short hs).1]
  exact hs

/-- A frame that is written is read again, whatever follows it. -/
theorem frame_complete {opcode : Opcode} {fin : Bool} {content : Bytes} {limit : Nat}
    (mask : Option MaskKey) (hn : content.length < 2 ^ 63) (hl : content.length ≤ limit)
    (hc : opcode.isControl = true → fin = true ∧ content.length ≤ 125) (rest : Bytes) :
    readFrame limit (frameBytes opcode fin content mask ++ rest) =
      .done ⟨fin, opcode, mask, ⟨1 + (sizeBytes content.length mask).length, content.length⟩⟩
        ⟨(frameBytes opcode fin content mask).length, rest⟩ := by
  have hm := length_masked mask content
  have hw : (frameBytes opcode fin content mask).length =
      1 + (sizeBytes content.length mask).length + content.length := by
    simp only [frameBytes_eq, List.length_cons, List.length_append, hm]
    omega
  have hp : payload limit ⟨1, sizeBytes content.length mask ++ (masked mask content ++ rest)⟩ = _ :=
    hm ▸ payload_complete mask (hm ▸ hn) (hm ▸ hl) 1 rest
  rw [hw, frameBytes_eq, List.cons_append, List.append_assoc]
  refine (bind_of_done (reads_firstByte fin opcode 0 _)).trans ?_
  refine (bind_of_done (controlRules_complete hc mask _ _)).trans ?_
  exact (bind_of_done hp).trans rfl

/-- Where a frame that is written has its payload. -/
theorem frame_content (opcode : Opcode) (fin : Bool) (content : Bytes) (mask : Option MaskKey)
    (rest : Bytes) :
    Span.of ⟨1 + (sizeBytes content.length mask).length, content.length⟩
      (frameBytes opcode fin content mask ++ rest) = masked mask content := by
  rw [frameBytes_eq, List.cons_append, List.append_assoc, ← List.cons_append,
    Span.of_middle _ (length_masked mask content).symm]
  exact Nat.add_comm 1 _

/-- The bytes that are read as a frame. -/
theorem readFrame_form {limit : Nat} {input : Bytes} {header : FrameHeader} {next : Cursor}
    (h : readFrame limit input = .done header next) :
    ∃ head content : Bytes,
      head = UInt8.ofNat (flag header.fin + header.opcode.code) ::
        sizeBytes header.content.len header.mask ∧
      input = head ++ (content ++ next.rest) ∧ header.content.start = head.length ∧
      header.content.len = content.length ∧ next.pos = head.length + content.length := by
  obtain ⟨⟨fin, opcode⟩, c₁, hf, h₁⟩ := bind_eq_done h
  obtain ⟨_, c₂, hc, h₂⟩ := bind_eq_done h₁
  obtain ⟨p, c₃, hp, h₃⟩ := bind_eq_done h₂
  obtain ⟨rfl, rfl⟩ := pure_eq_done h₃
  obtain ⟨rf, pf⟩ := firstByte_sound hf
  dsimp only at rf pf
  obtain rfl := controlRules_sound hc
  obtain ⟨content, hl, rp, ps, pn⟩ := payload_sound hp
  dsimp only
  refine ⟨_, content, rfl, ?_, ?_, hl.symm, ?_⟩
  · rw [List.cons_append, ← rp]
    exact rf
  · rw [ps, pf, List.length_cons]
    omega
  · rw [pn, Span.stop, ps, pf, List.length_cons, hl]
    omega

/-- The length byte behind a control frame that passes is short. -/
theorem controlRules_short {fin : Bool} {opcode : Opcode} {c next : Cursor}
    (h : controlRules fin opcode c = .done () next) (hc : opcode.isControl = true) :
    ∀ b ∈ c.rest.head?, b.toNat % 128 ≤ 125 := by
  intro b hb
  unfold controlRules at h
  rw [if_pos hc] at h
  obtain ⟨_, mid, he, hm⟩ := bind_eq_done h
  obtain ⟨-, rfl⟩ := ensure_eq_done he
  obtain ⟨pos, rest⟩ := mid
  cases rest with
  | nil => cases hb
  | cons x rest =>
    cases hb
    dsimp only at hm
    split at hm
    · cases hm
    · rename_i hx
      exact Nat.not_lt.1 hx

/-- A control frame that was read is small. -/
theorem readFrame_control {limit : Nat} {input : Bytes} {header : FrameHeader} {next : Cursor}
    (h : readFrame limit input = .done header next) (hc : header.opcode.isControl = true) :
    header.content.len ≤ 125 := by
  obtain ⟨⟨fin, opcode⟩, c₁, -, h₁⟩ := bind_eq_done h
  obtain ⟨_, c₂, hr, h₂⟩ := bind_eq_done h₁
  obtain ⟨p, c₃, hp, h₃⟩ := bind_eq_done h₂
  obtain ⟨rfl, rfl⟩ := pure_eq_done h₃
  obtain rfl := controlRules_sound hr
  obtain ⟨content, -, rp, -, -⟩ := payload_sound hp
  have hb := controlRules_short hr hc (UInt8.ofNat (flag p.mask.isSome + shortLength p.content.len))
    (by rw [rp]; rfl)
  obtain ⟨hv, -, hlt⟩ := flag_add p.mask.isSome (shortLength_lt p.content.len)
  rw [toNat_ofNat_of_lt hlt, hv] at hb
  -- Longer payloads are announced by 126 and 127.
  have hn : ¬ 125 < p.content.len := by
    intro hlong
    have hs : 126 ≤ shortLength p.content.len := by
      unfold shortLength
      split
      · omega
      · split <;> omega
    omega
  exact Nat.not_lt.1 hn

/-- The payload is the end of a frame. -/
theorem readFrame_places {limit : Nat} {input : Bytes} {header : FrameHeader} {next : Cursor}
    (h : readFrame limit input = .done header next) :
    header.content.stop = next.pos ∧ next.pos ≤ input.length ∧ next.rest = input.drop next.pos := by
  obtain ⟨head, content, -, hi, hs, hl, hp⟩ := readFrame_form h
  refine ⟨by rw [Span.stop, hs, hl, hp], ?_, ?_⟩
  · rw [hi, hp, List.length_append, List.length_append]
    omega
  · rw [hi, ← List.append_assoc, List.drop_left']
    rw [hp, List.length_append]

/-- A frame has a length byte behind its first one. -/
theorem readFrame_least {limit : Nat} {input : Bytes} {header : FrameHeader} {next : Cursor}
    (h : readFrame limit input = .done header next) : 2 ≤ next.pos := by
  have hpayload : Takes 1 (payload limit) :=
    advances_any.takes.bind fun _ => (forward_payloadLength _).bind fun _ =>
      (forward_ensure _ _).bind fun _ => (forward_maskKey _).bind fun _ =>
        forward_position.bind fun _ => (forward_take _).bind fun _ => forward_pure _
  have hframe : Takes (1 + 1) (frame limit) :=
    advances_firstByte.takes.bind_takes fun _ => (forward_controlRules _ _).bind_takes fun _ =>
      hpayload.bind fun _ => forward_pure _
  have hpos := hframe.pos_le (advances_frame limit).forward h
  dsimp only at hpos
  omega

/-- What is read as a frame is the frame written from what was read. -/
theorem frame_sound {limit : Nat} {input : Bytes} {header : FrameHeader} {next : Cursor}
    (h : readFrame limit input = .done header next) :
    frameBytes header.opcode header.fin (masked header.mask (header.content.of input))
      header.mask = input.take next.pos := by
  obtain ⟨head, content, hh, hi, hs, hl, hp⟩ := readFrame_form h
  have ho : header.content.of input = content := by
    rw [hi, Span.of_middle hs hl]
  have ht : input.take next.pos = head ++ content := by
    rw [hi, ← List.append_assoc, List.take_left']
    rw [hp, List.length_append]
  rw [ht, ho, frameBytes_eq, masked_masked, length_masked, ← hl, hh, List.cons_append]

/-- Reading and writing frames are inverse to each other. -/
theorem frame_inverse :
    (∀ (opcode : Opcode) (fin : Bool) (content : Bytes) (mask : Option MaskKey) (rest : Bytes)
      (limit : Nat), content.length < 2 ^ 63 → content.length ≤ limit →
      (opcode.isControl = true → fin = true ∧ content.length ≤ 125) →
      ∃ span, readFrame limit (frameBytes opcode fin content mask ++ rest) =
          .done ⟨fin, opcode, mask, span⟩ ⟨(frameBytes opcode fin content mask).length, rest⟩ ∧
        (FrameHeader.mk fin opcode mask span).fragmentation = .of fin opcode ∧
        masked mask (span.of (frameBytes opcode fin content mask ++ rest)) = content) ∧
    (∀ (limit : Nat) (input : Bytes) (header : FrameHeader) (next : Cursor),
      readFrame limit input = .done header next →
      next.pos ≤ input.length ∧
        frameBytes header.opcode header.fin (masked header.mask (header.content.of input))
          header.mask = input.take next.pos) := by
  refine ⟨fun opcode fin content mask rest limit hn hl hc => ?_,
    fun _ _ _ _ h => ⟨(readFrame_places h).2.1, frame_sound h⟩⟩
  refine ⟨_, frame_complete mask hn hl hc rest, rfl, ?_⟩
  rw [frameBytes_eq, List.cons_append, List.append_assoc, ← List.cons_append,
    Span.of_middle _ (length_masked mask content).symm, masked_masked]
  exact Nat.add_comm 1 _

end Frame

section Arrival

theorem steady_payloadLength (short : Nat) : (payloadLength short).Steady := by
  have digits (n : Nat) : (ofBigEndian <$> take n : Scanner FrameError Nat).Steady :=
    (steady_take n).bind fun _ => steady_pure _
  unfold payloadLength
  split
  · exact (digits 2).bind fun _ => (steady_ensure _ _).bind fun _ => steady_pure _
  · split
    · exact (digits 8).bind fun _ => (steady_ensure _ _).bind fun _ =>
        (steady_ensure _ _).bind fun _ => steady_pure _
    · exact steady_pure _

theorem steady_maskKey (announced : Bool) : (maskKey announced).Steady := by
  unfold maskKey
  split
  · exact (steady_take _).bind fun _ => steady_pure _
  · exact steady_pure _

theorem steady_payload (limit : Nat) : (payload limit).Steady :=
  steady_any.bind fun _ => (steady_payloadLength _).bind fun _ =>
    (steady_ensure _ _).bind fun _ => (steady_maskKey _).bind fun _ => steady_position.bind
      fun _ => (steady_take _).bind fun _ => steady_pure _

theorem steady_firstByte : firstByte.Steady :=
  steady_any.bind fun b => (steady_ensure _ _).bind fun _ => by
    split
    · exact steady_refuse _
    · exact steady_pure _

/-- The rules for control frames wait for the length byte. -/
theorem steadyInside_controlRules (fin : Bool) (opcode : Opcode) :
    (controlRules fin opcode).SteadyInside := by
  unfold controlRules
  split
  · refine (steady_ensure _ _).bind_inside fun _ c later hm hd => ?_
    obtain ⟨pos, rest⟩ := c
    cases rest with
    | nil => exact absurd rfl (hd () _ rfl)
    | cons b rest =>
      simp only [Cursor.append, List.cons_append]
      split <;> rfl
  · exact (steady_pure _).inside

theorem steady_frame (limit : Nat) : (frame limit).Steady := by
  refine steady_firstByte.bind fun p => ?_
  refine (steadyInside_controlRules p.1 p.2).bind (fun _ => ?_) fun _ => ?_
  · exact (steady_payload limit).bind fun _ => steady_pure _
  · exact Starves.bind (starves_any.bind _) _

/-- An answer about a frame stays when more bytes arrive. -/
theorem readFrame_append {limit : Nat} {input : Bytes} (later : Bytes)
    (h : readFrame limit input ≠ .more) :
    readFrame limit (input ++ later) = (readFrame limit input).append later :=
  steady_frame limit ⟨0, input⟩ later h

end Arrival

section AtMost

theorem atMost_firstByte : AtMost 1 firstByte := by
  refine AtMost.bind (m := 0) atMost_any fun b => atMost_ensure_bind fun _ => ?_
  split
  · exact atMost_refuse _
  · exact atMost_pure _

/-- The rules for control frames look at the length byte and take nothing. -/
theorem atMost_controlRules (fin : Bool) (opcode : Opcode) :
    AtMost 0 (controlRules fin opcode) := by
  unfold controlRules
  split
  · refine atMost_ensure_bind fun _ => ⟨fun c h => ?_, fun c a next h => ?_⟩
    · split at h
      · cases h
      · split at h <;> cases h
    · split at h
      · cases h
        exact Nat.le_refl _
      · split at h <;> cases h
        exact Nat.le_refl _
  · exact atMost_pure _

theorem atMost_payloadLength (short : Nat) : AtMost 8 (payloadLength short) := by
  have digits (n : Nat) : AtMost n (ofBigEndian <$> take n : Scanner FrameError Nat) :=
    (atMost_take n).bind fun _ => atMost_pure _
  unfold payloadLength
  split
  · refine AtMost.mono (k := 2) ?_ (by decide)
    exact AtMost.bind (m := 0) (digits 2) fun _ => atMost_ensure_bind fun _ => atMost_pure _
  · split
    · exact AtMost.bind (m := 0) (digits 8) fun _ =>
        atMost_ensure_bind fun _ => atMost_ensure_bind fun _ => atMost_pure _
    · exact (atMost_pure _).mono (Nat.zero_le _)

theorem atMost_maskKey (announced : Bool) : AtMost 4 (maskKey announced) := by
  unfold maskKey
  split
  · exact (atMost_take 4).bind fun _ => atMost_pure _
  · exact (atMost_pure _).mono (Nat.zero_le _)

/-- A payload that is too long is refused in front of its key, so the key comes only with a payload
that fits. -/
theorem atMost_payload (limit : Nat) : AtMost (1 + (8 + (4 + limit))) (payload limit) := by
  refine atMost_any.bind fun b => (atMost_payloadLength _).bind fun length =>
    atMost_ensure_bind fun hl => (atMost_maskKey _).bind fun mask => ?_
  have hfits : length ≤ limit := of_decide_eq_true hl
  have htake := atMost_position.bind fun start =>
    (atMost_take length).bind fun _ =>
      atMost_pure (ε := FrameError) (⟨mask, ⟨start, length⟩⟩ : Payload)
  exact htake.mono (by omega)

/-- An incomplete frame is shorter than the longest header with the largest payload. -/
theorem length_of_readFrame_more {limit : Nat} {input : Bytes} (h : readFrame limit input = .more) :
    input.length ≤ limit + 13 := by
  have hframe : AtMost (1 + (0 + (1 + (8 + (4 + limit)) + 0))) (frame limit) :=
    atMost_firstByte.bind fun p => (atMost_controlRules p.1 p.2).bind fun _ =>
      (atMost_payload limit).bind fun _ => atMost_pure _
  have hlt := hframe.asks ⟨0, input⟩ h
  dsimp only at hlt
  omega

end AtMost

end OriginServer.WebSocket
