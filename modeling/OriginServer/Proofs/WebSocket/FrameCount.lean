import OriginServer.Proofs.WebSocket.FragmentLanguage

namespace OriginServer.WebSocket

/-- The number of frames without payload. -/
def hollowCount (frames : List StoredFrame) : Nat := frames.countP (·.content.isEmpty)

/-- The number of frames that carry bytes. -/
def solidCount (frames : List StoredFrame) : Nat := frames.countP fun f => !f.content.isEmpty

theorem length_eq_counts (frames : List StoredFrame) :
    frames.length = solidCount frames + hollowCount frames := by
  have h := List.length_eq_countP_add_countP (fun f : StoredFrame => f.content.isEmpty)
    (l := frames)
  simp only [decide_not, Bool.decide_eq_true] at h
  rw [h, Nat.add_comm]
  rfl

/-- A frame that is not empty carries one byte at least. -/
theorem solidCount_le_carried (frames : List StoredFrame) : solidCount frames ≤ carried frames := by
  induction frames using List.reverseRecOn with
  | nil => exact Nat.le_refl 0
  | append_singleton front f ih =>
    have hone : solidCount [f] ≤ f.content.length := by
      cases hc : f.content with
      | nil => simp [solidCount, hc]
      | cons b rest => simp [solidCount, hc]
    have hsplit : solidCount (front ++ [f]) = solidCount front + solidCount [f] :=
      List.countP_append
    rw [carried_concat, hsplit]
    exact Nat.add_le_add ih hone

section Building

/-- A frame that leaves its message open, as it is read from its own bytes. -/
def openFrame (opcode : Opcode) (content : Bytes) : StoredFrame :=
  (StoredFrame.holding {} (frameBytes opcode false content none)).read.2

/-- The frames of a text that is not finished, one for each of its pieces. -/
def unfinished : List Bytes → List StoredFrame
  | [] => []
  | first :: later => openFrame .text first :: later.map (openFrame .continuation)

theorem carries_openFrame {opcode : Opcode} {content : Bytes} (ho : opcode.isControl = false)
    (hc : content.length ≤ 1) : (openFrame opcode content).Carries opcode false content := by
  have hn : content.length < 2 ^ 63 := by omega
  have hl : content.length ≤ FrameConfig.maxFrameSize {} := Nat.le_trans hc (by decide)
  have hcontrol : opcode.isControl = true → false = true ∧ content.length ≤ 125 := by
    rw [ho]
    exact nofun
  have hf := frame_complete none hn hl hcontrol []
  have hbody := frame_content opcode false content none []
  rw [List.append_nil] at hf hbody
  rw [openFrame, StoredFrame.read_holding hf]
  exact ⟨⟨_, rfl⟩, (StoredFrame.content_holding _).trans hbody⟩

theorem content_openFrame {opcode : Opcode} {content : Bytes} (ho : opcode.isControl = false)
    (hc : content.length ≤ 1) : (openFrame opcode content).content = content :=
  (carries_openFrame ho hc).content

/-- The pieces are what the frames carry. -/
theorem content_unfinished {pieces : List Bytes} (hp : ∀ p ∈ pieces, p.length ≤ 1) :
    (unfinished pieces).map (·.content) = pieces := by
  cases pieces with
  | nil => rfl
  | cons first later =>
    obtain ⟨hfirst, hlater⟩ := List.forall_mem_cons.1 hp
    have hsame : ∀ p ∈ later, ((·.content) ∘ openFrame .continuation) p = id p := fun p hm =>
      content_openFrame rfl (hlater p hm)
    rw [unfinished, List.map_cons, content_openFrame rfl hfirst, List.map_map,
      List.map_congr_left hsame, List.map_id]

namespace Reassembly

/-- Pieces behind an open message are all kept while there is room for their bytes. -/
theorem pushAll_pieces {pieces : List Bytes} (hp : ∀ p ∈ pieces, p.length ≤ 1) {r : Reassembly}
    (ho : r.last.leavesOpen = true) (hs : r.size + pieces.flatten.length ≤ r.maxMessageSize) :
    (∀ a ∈ (r.pushAll (pieces.map (openFrame .continuation))).1, ∃ m, a = .ok m) ∧
      (r.pushAll (pieces.map (openFrame .continuation))).2.frames =
        r.frames ++ pieces.map (openFrame .continuation) := by
  induction pieces generalizing r with
  | nil => exact ⟨List.forall_mem_nil _, (List.append_nil _).symm⟩
  | cons p pieces ih =>
    obtain ⟨hfirst, hrest⟩ := List.forall_mem_cons.1 hp
    rw [List.flatten_cons, List.length_append] at hs
    have hcarries : (openFrame .continuation p).Carries .continuation false p :=
      carries_openFrame rfl hfirst
    have hpush := push_open hcarries (by rw [Fragmentation.follows, ho]; rfl) (by omega) rfl
    obtain ⟨htaken, hkept⟩ := ih hrest (r := (r.push (openFrame .continuation p)).2)
      (by rw [hpush]; rfl) (by rw [hpush]; dsimp only; omega)
    refine ⟨List.forall_mem_cons.2 ⟨⟨none, congrArg Prod.fst hpush⟩, htaken⟩, hkept.trans ?_⟩
    rw [hpush, List.append_assoc, List.map_cons, List.singleton_append]

/-- A text that is not finished may have any pieces of at most one byte for which there is room. -/
theorem takesAll_unfinished {maxMessageSize : Nat} {pieces : List Bytes}
    (hp : ∀ p ∈ pieces, p.length ≤ 1) (hs : pieces.flatten.length ≤ maxMessageSize) :
    TakesAll maxMessageSize (unfinished pieces) ∧
      (pushAll { maxMessageSize } (unfinished pieces)).2.frames = unfinished pieces := by
  cases pieces with
  | nil => exact ⟨List.forall_mem_nil _, rfl⟩
  | cons first later =>
    obtain ⟨hfirst, hlater⟩ := List.forall_mem_cons.1 hp
    rw [List.flatten_cons, List.length_append] at hs
    have hpush : push { maxMessageSize } (openFrame .text first) = _ :=
      push_open (carries_openFrame rfl hfirst) rfl (by dsimp only; omega) rfl
    obtain ⟨htaken, hkept⟩ := pushAll_pieces hlater
      (r := (push { maxMessageSize } (openFrame .text first)).2)
      (by rw [hpush]; rfl) (by rw [hpush]; dsimp only; omega)
    refine ⟨List.forall_mem_cons.2 ⟨⟨none, congrArg Prod.fst hpush⟩, htaken⟩, hkept.trans ?_⟩
    rw [hpush]
    rfl

end Reassembly

end Building

namespace Reassembly

variable {maxMessageSize : Nat} {frames : List StoredFrame}

/-- The message that is open stays below the limit. -/
theorem Fits.carried_le (h : Fits maxMessageSize frames) :
    carried (sinceEnd frames) ≤ maxMessageSize := by
  cases frames using List.reverseRecOn with
  | nil => exact Nat.zero_le _
  | append_singleton front f =>
    obtain ⟨-, -, hs⟩ := fits_concat.1 h
    rw [sinceEnd_concat]
    split
    · exact Nat.zero_le _
    · exact hs

/-- As many empty frames as there is wish for go behind as many bytes as there is room for. -/
theorem exists_unfinished (maxMessageSize hollow : Nat) :
    ∃ frames, TakesAll maxMessageSize frames ∧
      (pushAll { maxMessageSize } frames).2.frames = frames ∧
      hollowCount frames = hollow ∧ frames.length = maxMessageSize + hollow := by
  let pieces : List Bytes := List.replicate maxMessageSize [0x61] ++ List.replicate hollow []
  have hp : ∀ p ∈ pieces, p.length ≤ 1 := by
    intro p hm
    obtain hm | hm := List.mem_append.1 hm
    · rw [List.eq_of_mem_replicate hm]
      exact Nat.le_refl 1
    · rw [List.eq_of_mem_replicate hm]
      exact Nat.zero_le 1
  have hsize : pieces.flatten.length ≤ maxMessageSize := by
    simp [pieces]
  have hcontent := content_unfinished hp
  obtain ⟨htaken, hkept⟩ := takesAll_unfinished hp hsize
  refine ⟨unfinished pieces, htaken, hkept, ?_, ?_⟩
  · have hcount : hollowCount (unfinished pieces) =
        ((unfinished pieces).map (·.content)).countP (·.isEmpty) := by
      rw [List.countP_map]
      rfl
    rw [hcount, hcontent]
    simp [pieces, List.countP_replicate]
  · have hlength := congrArg List.length hcontent
    rw [List.length_map] at hlength
    rw [hlength]
    simp [pieces]

/-- The limit on the size of a message is no limit on the number of its frames: no number is enough
for all the frames that are kept of a message that is not finished. -/
theorem count_unbounded :
    ¬ ∀ maxMessageSize, ∃ most, ∀ frames, TakesAll maxMessageSize frames →
      ∀ front, front <+: frames → (pushAll { maxMessageSize } front).2.count ≤ most := by
  intro h
  obtain ⟨most, hmost⟩ := h 0
  obtain ⟨frames, htaken, hkept, -, hlength⟩ := exists_unfinished 0 (most + 1)
  have hcount := hmost frames htaken frames (List.prefix_refl _)
  rw [pushAll_count rfl, hkept, hlength] at hcount
  omega

/-- Of all frames that are kept, at most as many carry bytes as a message may have bytes, so what
is kept beyond the limit are the empty frames of the open message. No smaller number is enough for
any number of those. -/
theorem solid_within_limit (maxMessageSize : Nat) :
    (∀ frames, TakesAll maxMessageSize frames → ∀ front, front <+: frames →
      solidCount (pushAll { maxMessageSize } front).2.frames ≤ maxMessageSize ∧
      (pushAll { maxMessageSize } front).2.count ≤
        maxMessageSize + hollowCount (sinceEnd front)) ∧
    ∀ hollow, ∃ frames, TakesAll maxMessageSize frames ∧
      hollowCount (sinceEnd frames) = hollow ∧
      (pushAll { maxMessageSize } frames).2.count = maxMessageSize + hollow := by
  constructor
  · rintro frames htaken front ⟨later, rfl⟩
    have hfits := ((pushAll_fits maxMessageSize _).1.1 htaken).left
    have hkept : (pushAll { maxMessageSize } front).2.frames = sinceEnd front := by
      rw [(pushAll_fits maxMessageSize front).2 hfits]
      rfl
    have hsolid : solidCount (sinceEnd front) ≤ maxMessageSize :=
      Nat.le_trans (solidCount_le_carried _) hfits.carried_le
    have hlength := length_eq_counts (sinceEnd front)
    rw [pushAll_count rfl, hkept]
    exact ⟨hsolid, by omega⟩
  · intro hollow
    obtain ⟨frames, htaken, hkept, hhollow, hlength⟩ := exists_unfinished maxMessageSize hollow
    have hsince : sinceEnd frames = frames := by
      have hfits := (pushAll_fits maxMessageSize frames).1.1 htaken
      rw [(pushAll_fits maxMessageSize frames).2 hfits] at hkept
      exact hkept
    refine ⟨frames, htaken, ?_, ?_⟩
    · rw [hsince, hhollow]
    · rw [pushAll_count rfl, hkept, hlength]

end Reassembly

end OriginServer.WebSocket
