import OriginServer.Proofs.Except
import OriginServer.Storage.Buffer

namespace OriginServer.Buffer

/-- The bytes in use are in store, and the store has room for what it has. -/
structure Sound (b : Buffer) : Prop where
  length_le : b.length ≤ b.store.length
  store_le : b.store.length ≤ maxStore

variable {b b' kept rest : Buffer}

theorem length_content (h : b.length ≤ b.store.length) : b.content.length = b.length := by
  rw [content, List.length_take, Nat.min_eq_left h]

theorem Sound.length_content (h : b.Sound) : b.content.length = b.length :=
  Buffer.length_content h.length_le

theorem Sound.isEmpty_iff (h : b.Sound) : b.isEmpty = true ↔ b.content = [] := by
  rw [isEmpty, beq_iff_eq, ← h.length_content, List.length_eq_zero_iff]

theorem sound_empty (threshold : Option Nat) : Sound { threshold } :=
  ⟨Nat.le_refl _, Nat.zero_le _⟩

/-- A store that does not have to grow has room for that. -/
theorem extend_eq_ok {n : Nat} :
    b.extend n = .ok b' ↔ (n = 0 ∨ b.capacity + n ≤ maxStore) ∧
      b' = { b with store := b.store ++ List.replicate n 0 } := by
  unfold extend
  split
  · rename_i hz
    simp only [hz, true_or, true_and, List.replicate_zero, List.append_nil, Except.ok.injEq]
    exact eq_comm
  · rename_i hz
    split
    · rename_i hn
      simp only [hz, false_or, Nat.not_le.2 hn, false_and, reduceCtorEq]
    · rename_i hn
      simp only [Nat.not_lt.1 hn, or_true, true_and, Except.ok.injEq, eq_comm]

theorem Sound.extend_complete (h : b.Sound) {n : Nat} (hn : b.length + n ≤ maxStore) :
    b.extend (b.length + n - b.capacity) =
      .ok { b with store := b.store ++ List.replicate (b.length + n - b.capacity) 0 } := by
  have hs := h.store_le
  refine extend_eq_ok.2 ⟨?_, rfl⟩
  unfold capacity
  omega

/-- Bytes for which there is room are appended. -/
theorem Sound.push_complete (h : b.Sound) {bytes : Bytes}
    (hn : b.length + bytes.length ≤ maxStore) :
    ∃ b', b.push bytes = .ok b' ∧ b'.Sound ∧ b'.content = b.content ++ bytes := by
  have hl := h.length_le
  have hs := h.store_le
  refine ⟨_, bind_eq_ok.2 ⟨_, h.extend_complete hn, rfl⟩, ⟨?_, ?_⟩, ?_⟩
  all_goals
    simp only [content, capacity, List.take_append_of_le_length hl]
  · simp only [List.length_append, List.length_take, List.length_drop, List.length_replicate]
    omega
  · simp only [List.length_append, List.length_take, List.length_drop, List.length_replicate]
    omega
  · rw [List.take_left']
    rw [List.length_append, List.length_take]
    omega

/-- Bytes that were appended had room. -/
theorem Sound.room_of_push (h : b.Sound) {bytes : Bytes} (hp : b.push bytes = .ok b') :
    b.length + bytes.length ≤ maxStore := by
  have hs := h.store_le
  obtain ⟨wide, he, -⟩ := bind_eq_ok.1 hp
  obtain ⟨hroom, -⟩ := extend_eq_ok.1 he
  unfold capacity at hroom
  omega

/-- Only bytes without room are refused. -/
theorem Sound.full_of_push (h : b.Sound) {bytes : Bytes} {e : BufferError}
    (hp : b.push bytes = .error e) : maxStore < b.length + bytes.length := by
  refine Nat.lt_of_not_le fun hroom => ?_
  obtain ⟨b', hok, -⟩ := h.push_complete hroom
  cases hp.symm.trans hok

theorem Sound.push (h : b.Sound) {bytes : Bytes} (hp : b.push bytes = .ok b') :
    b'.Sound ∧ b'.content = b.content ++ bytes := by
  obtain ⟨b'', hp'', hsound, hcontent⟩ := h.push_complete (h.room_of_push hp)
  cases hp.symm.trans hp''
  exact ⟨hsound, hcontent⟩

theorem prefix_extend {n : Nat} (h : b.extend n = .ok b') :
    b'.length = b.length ∧ b.content <+: b'.content := by
  obtain ⟨-, rfl⟩ := extend_eq_ok.1 h
  refine ⟨rfl, ?_⟩
  rw [content, content, List.take_append]
  exact List.prefix_append _ _

/-- The bytes in use stay in front of appended ones. -/
theorem prefix_push {bytes : Bytes} (h : b.push bytes = .ok b') : b.content <+: b'.content := by
  obtain ⟨wide, he, hb⟩ := bind_eq_ok.1 h
  obtain ⟨hlen, hpre⟩ := prefix_extend he
  cases hb
  have hle : wide.content.length ≤ b.length + bytes.length := by
    have hwide := wide.length_content_le
    omega
  refine hpre.trans (List.prefix_take_iff.2 ⟨?_, hle⟩)
  rw [List.append_assoc]
  exact List.prefix_append _ _

theorem Sound.content_truncate (h : b.Sound) (n : Nat) :
    (b.truncate n).content = b.content.take n := by
  have hl := h.length_le
  unfold truncate
  split
  · rename_i hn
    rw [List.take_of_length_le (by rw [h.length_content]; exact hn)]
  · rename_i hn
    have ht : (b.store.take n).length = n := by
      rw [List.length_take]
      omega
    simp only [content, List.append_assoc]
    rw [List.take_left' ht, List.take_take, Nat.min_eq_left (by omega)]

theorem Sound.truncate (h : b.Sound) (n : Nat) : (b.truncate n).Sound := by
  have hl := h.length_le
  have hs := h.store_le
  unfold Buffer.truncate
  split
  · exact h
  · constructor
    all_goals
      simp only [List.length_append, List.length_take, List.length_replicate, List.length_drop]
      omega

theorem threshold_truncate (b : Buffer) (n : Nat) : (b.truncate n).threshold = b.threshold := by
  unfold Buffer.truncate
  split <;> rfl

/-- The bytes behind a place move to a buffer of their own. -/
theorem Sound.shiftTrailing_complete (h : b.Sound) {place : Nat} (hp : place ≤ b.length) :
    ∃ rest, b.shiftTrailing place = .ok (b.truncate place, rest) ∧ rest.Sound ∧
      rest.content = b.content.drop place := by
  have hl := h.length_le
  have hs := h.store_le
  have hd := h.length_content
  have hn : ({ threshold := b.threshold } : Buffer).length + (b.content.drop place).length ≤
      maxStore := by
    rw [List.length_drop]
    dsimp only
    omega
  obtain ⟨rest, hr, hrs, hrc⟩ := (sound_empty b.threshold).push_complete hn
  refine ⟨rest, ?_, hrs, by rw [hrc]; rfl⟩
  rw [shiftTrailing, if_neg (Nat.not_lt.2 hp)]
  exact bind_eq_ok.2 ⟨rest, hr, rfl⟩

/-- Bytes in use keep their number when they are rewritten, so all of them stay in use. -/
theorem content_modify {f : Bytes → Bytes} (hf : (f b.content).length = b.content.length) :
    (b.modify f).content = f b.content := by
  rcases Nat.le_total b.length b.store.length with hle | hge
  · rw [length_content hle] at hf
    rw [content, modify, List.take_left' hf]
  · have hshort : (f b.content).length ≤ b.length := hf ▸ b.length_content_le
    rw [content, modify, List.drop_eq_nil_of_le hge, List.append_nil, List.take_of_length_le hshort]

theorem Sound.modify (h : b.Sound) {f : Bytes → Bytes}
    (hf : (f b.content).length = b.content.length) : (b.modify f).Sound := by
  have hl := h.length_le
  have hs := h.store_le
  rw [h.length_content] at hf
  have he : (b.modify f).store.length = b.store.length := by
    rw [Buffer.modify, List.length_append, hf, List.length_drop]
    omega
  exact ⟨he ▸ hl, he ▸ hs⟩

/-- A new buffer is empty. -/
theorem withCapacity_sound {n : Nat} (h : withCapacity n = .ok b) :
    n ≤ maxStore ∧ b.Sound ∧ b.content = [] := by
  obtain ⟨hn, rfl⟩ := extend_eq_ok.1 h
  simp only [capacity, List.length_nil, Nat.zero_add] at hn
  have hmax : n ≤ maxStore := by omega
  exact ⟨hmax, ⟨Nat.zero_le _, by simpa using hmax⟩, rfl⟩

theorem withCapacity_complete {n : Nat} (h : n ≤ maxStore) : ∃ b, withCapacity n = .ok b := by
  refine ⟨_, extend_eq_ok.2 ⟨.inr ?_, rfl⟩⟩
  simpa [capacity] using h

theorem Sound.withThreshold (h : b.Sound) (n : Nat) : (b.withThreshold n).Sound :=
  ⟨h.length_le, h.store_le⟩

theorem Sound.extend {n : Nat} (h : b.Sound) (he : b.extend n = .ok b') :
    b'.Sound ∧ b'.content = b.content := by
  have hl := h.length_le
  have hs := h.store_le
  obtain ⟨hn, rfl⟩ := extend_eq_ok.1 he
  unfold capacity at hn
  refine ⟨⟨?_, ?_⟩, List.take_append_of_le_length hl⟩
  all_goals
    simp only [List.length_append, List.length_replicate]
    omega

theorem length_truncate {n : Nat} (h : n ≤ b.length) : (b.truncate n).length = n := by
  unfold Buffer.truncate
  split
  · rename_i hle
    exact Nat.le_antisymm hle h
  · rfl

theorem length_clear (b : Buffer) : b.clear.length = 0 := by
  have hz := length_truncate (Nat.zero_le b.length)
  unfold Buffer.clear
  dsimp only
  split <;> exact hz

/-- A cleared buffer has no more in store than its threshold allows. -/
theorem capacity_clear_le {T : Nat} (h : b.threshold = some T) : b.clear.capacity ≤ T := by
  unfold Buffer.clear
  dsimp only
  rw [threshold_truncate, h]
  exact List.length_take_le _ _

theorem Sound.clear (h : b.Sound) : b.clear.Sound ∧ b.clear.content = [] := by
  have hs := (h.truncate 0).store_le
  refine ⟨⟨length_clear b ▸ Nat.zero_le _, ?_⟩, by rw [content, length_clear, List.take_zero]⟩
  unfold Buffer.clear
  dsimp only
  split
  · exact Nat.le_trans (List.length_take_le' _ _) hs
  · exact hs

theorem threshold_extend {n : Nat} (h : b.extend n = .ok b') : b'.threshold = b.threshold := by
  obtain ⟨-, rfl⟩ := extend_eq_ok.1 h
  rfl

theorem threshold_push {bytes : Bytes} (h : b.push bytes = .ok b') :
    b'.threshold = b.threshold := by
  obtain ⟨wide, he, hb⟩ := bind_eq_ok.1 h
  have ht := threshold_extend he
  cases hb
  exact ht

section Zeroed

variable {n : Nat} {bytes : Bytes}

/-- The store behind the bytes in use is zero. -/
structure Zeroed (b : Buffer) : Prop where
  length_le : b.length ≤ b.store.length
  zero : ∀ x ∈ b.store.drop b.length, x = 0

theorem zeroed_empty (threshold : Option Nat) : Zeroed { threshold } :=
  ⟨Nat.le_refl _, List.forall_mem_nil _⟩

theorem Zeroed.length_content (h : b.Zeroed) : b.content.length = b.length :=
  Buffer.length_content h.length_le

theorem Zeroed.extend (h : b.Zeroed) (he : b.extend n = .ok b') :
    b'.Zeroed ∧ b'.length = b.length := by
  obtain ⟨-, rfl⟩ := extend_eq_ok.1 he
  have hle := h.length_le
  refine ⟨⟨?_, ?_⟩, rfl⟩
  · rw [List.length_append]
    exact Nat.le_trans hle (Nat.le_add_right _ _)
  · rw [List.drop_append_of_le_length hle]
    exact List.forall_mem_append.2 ⟨h.zero, fun x hx => List.eq_of_mem_replicate hx⟩

theorem Zeroed.push (h : b.Zeroed) (hp : b.push bytes = .ok b') : b'.Zeroed := by
  obtain ⟨wide, he, hb⟩ := bind_eq_ok.1 hp
  obtain ⟨hw, hl⟩ := h.extend he
  have hlen := hw.length_content
  rw [hl] at hlen
  cases hb
  have hfront : (wide.content ++ bytes).length = b.length + bytes.length := by
    rw [List.length_append, hlen]
  refine ⟨?_, ?_⟩
  · rw [List.length_append, hfront]
    exact Nat.le_add_right _ _
  · -- What stands behind the new bytes stood behind the old ones.
    rw [List.drop_left' hfront]
    intro x hx
    apply hw.zero x
    have hsplit : b.length + bytes.length = wide.length + bytes.length := by rw [hl]
    rw [hsplit, ← List.drop_drop] at hx
    exact List.mem_of_mem_drop hx

theorem Zeroed.truncate (h : b.Zeroed) (n : Nat) : (b.truncate n).Zeroed := by
  have hle := h.length_le
  unfold Buffer.truncate
  split
  · exact h
  · rename_i hn
    have ht : (b.store.take n).length = n := by
      rw [List.length_take]
      omega
    refine ⟨?_, ?_⟩
    · simp only [List.length_append, List.length_take, List.length_replicate, List.length_drop]
      omega
    · dsimp only
      rw [List.append_assoc, List.drop_left' ht]
      exact List.forall_mem_append.2 ⟨fun x hx => List.eq_of_mem_replicate hx, h.zero⟩

theorem Zeroed.modify (h : b.Zeroed) {f : Bytes → Bytes}
    (hf : (f b.content).length = b.content.length) : (b.modify f).Zeroed := by
  have hle := h.length_le
  rw [h.length_content] at hf
  refine ⟨?_, ?_⟩
  · simp only [Buffer.modify, List.length_append, hf, List.length_drop]
    omega
  · dsimp only [Buffer.modify]
    rw [List.drop_left' hf]
    exact h.zero

/-- All of the store of a cleared buffer is zero. -/
theorem Zeroed.clear (h : b.Zeroed) : ∀ x ∈ b.clear.store, x = 0 := by
  have hzero := (h.truncate 0).zero
  rw [length_truncate (Nat.zero_le b.length), List.drop_zero] at hzero
  unfold Buffer.clear
  dsimp only
  split
  · exact fun x hx => hzero x (List.mem_of_mem_take hx)
  · exact hzero

/-- The buffer that the bytes behind a place move to has the threshold of the one they leave. -/
theorem shiftTrailing_eq_ok (h : b.shiftTrailing n = .ok (kept, rest)) :
    kept = b.truncate n ∧ n ≤ b.length ∧ rest.Zeroed ∧ rest.threshold = b.threshold := by
  unfold shiftTrailing at h
  split at h
  · cases h
  · rename_i hn
    obtain ⟨tail, hp, he⟩ := bind_eq_ok.1 h
    have ht := threshold_push hp
    cases he
    exact ⟨rfl, Nat.not_lt.1 hn, (zeroed_empty _).push hp, ht⟩

theorem withCapacity_zeroed (h : withCapacity n = .ok b) : b.Zeroed :=
  ((zeroed_empty none).extend h).1

end Zeroed

section Tidy

variable {T n : Nat} {bytes : Bytes}

/-- The store behind the bytes in use is zero, and the threshold is `T`. -/
structure Tidy (T : Nat) (b : Buffer) : Prop where
  length_le : b.length ≤ b.store.length
  zero : ∀ x ∈ b.store.drop b.length, x = 0
  threshold : b.threshold = some T

/-- All of the store is zero and none of it in use, and there are at most `T` bytes of it. -/
structure Blank (T : Nat) (b : Buffer) : Prop where
  length : b.length = 0
  zero : ∀ x ∈ b.store, x = 0
  capacity : b.capacity ≤ T

theorem Tidy.zeroed (h : b.Tidy T) : b.Zeroed := ⟨h.length_le, h.zero⟩

theorem Zeroed.tidy (h : b.Zeroed) (ht : b.threshold = some T) : b.Tidy T :=
  ⟨h.length_le, h.zero, ht⟩

theorem Tidy.length_content (h : b.Tidy T) : b.content.length = b.length :=
  h.zeroed.length_content

theorem Tidy.push (h : b.Tidy T) (hp : b.push bytes = .ok b') : b'.Tidy T :=
  (h.zeroed.push hp).tidy ((threshold_push hp).trans h.threshold)

theorem Tidy.truncate (h : b.Tidy T) (n : Nat) : (b.truncate n).Tidy T :=
  (h.zeroed.truncate n).tidy ((threshold_truncate b n).trans h.threshold)

theorem Tidy.modify (h : b.Tidy T) {f : Bytes → Bytes}
    (hf : (f b.content).length = b.content.length) : (b.modify f).Tidy T :=
  (h.zeroed.modify hf).tidy h.threshold

theorem Tidy.shiftTrailing (h : b.Tidy T) (hs : b.shiftTrailing n = .ok (kept, rest)) :
    kept = b.truncate n ∧ n ≤ b.length ∧ kept.Tidy T ∧ rest.Tidy T := by
  obtain ⟨rfl, hn, hz, ht⟩ := shiftTrailing_eq_ok hs
  exact ⟨rfl, hn, h.truncate n, hz.tidy (ht.trans h.threshold)⟩

theorem Tidy.clear (h : b.Tidy T) : b.clear.Blank T :=
  ⟨length_clear b, h.zeroed.clear, capacity_clear_le h.threshold⟩

theorem Blank.clear (h : b.Blank T) : b.clear.Blank T := by
  have ht : b.truncate 0 = b := if_pos (Nat.le_of_eq h.length)
  unfold Buffer.clear
  dsimp only
  rw [ht]
  split
  · refine ⟨h.length, fun x hx => h.zero x (List.mem_of_mem_take hx), ?_⟩
    exact Nat.le_trans (List.length_take_le' _ _) h.capacity
  · exact h

/-- A new buffer is blank, and tidy once it has its threshold. -/
theorem withCapacity_blank (h : withCapacity n = .ok b) (hn : n ≤ T) :
    (b.withThreshold T).Blank T ∧ (b.withThreshold T).Tidy T := by
  have hz := withCapacity_zeroed h
  obtain ⟨-, rfl⟩ := extend_eq_ok.1 h
  refine ⟨⟨rfl, hz.zero, ?_⟩, hz.length_le, hz.zero, rfl⟩
  simpa [Buffer.capacity, Buffer.withThreshold] using hn

end Tidy

end OriginServer.Buffer
