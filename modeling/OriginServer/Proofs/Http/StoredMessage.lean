import OriginServer.Http.StoredMessage
import OriginServer.Proofs.Http.Message
import OriginServer.Proofs.Storage.Buffer

namespace OriginServer.Http.StoredMessage

/-- A message is made of a buffer where there are slots for its fields. -/
theorem create_eq_ok {config : MessageConfig} {m : StoredMessage} :
    create config = .ok m ↔ config.hasSlots = true ∧
      ∃ buffer, Buffer.withCapacity config.bufferSize = .ok buffer ∧
        m = { config
              buffer := buffer.withThreshold (max config.recacheThreshold config.bufferSize) } := by
  unfold create
  cases Buffer.withCapacity config.bufferSize with
  | error cause => simp
  | ok buffer => cases config.hasSlots <;> simp [eq_comm]

/-- A message can be made where its buffer has room and there are slots for its fields. -/
theorem create_complete (config : MessageConfig) (h : config.bufferSize ≤ Buffer.maxStore)
    (hs : config.hasSlots = true) :
    ∃ m : StoredMessage, Recyclable.create config = some m ∧ Recyclable.key m = config := by
  obtain ⟨b, hb⟩ := Buffer.withCapacity_complete h
  have hc : create config = .ok _ := create_eq_ok.2 ⟨hs, b, hb, rfl⟩
  exact ⟨_, congrArg Except.toOption hc, rfl⟩

theorem create_of_no_slots {config : MessageConfig} (hs : config.hasSlots = false) :
    (Recyclable.create config : Option StoredMessage) = none := by
  show (create config).toOption = none
  cases hc : create config with
  | error cause => rfl
  | ok m => cases (create_eq_ok.1 hc).1.symm.trans hs

theorem config_read (m : StoredMessage) : m.read.2.config = m.config := by
  simp only [read]
  split
  · split <;> rfl
  · rfl

section Compaction

variable {bytes : Bytes} {place first last : Nat} {s : Span} {spans : List Span}

theorem moveTo_length (h : place ≤ s.start) (hl : s.stop ≤ bytes.length) :
    (moveTo place bytes s).length = bytes.length := by
  have ho := Span.length_of hl
  simp only [Span.stop] at hl
  simp only [moveTo, List.length_append, List.length_take, List.length_drop, ho]
  omega

theorem moveTo_take {k : Nat} (hk : k ≤ place) (h : place ≤ s.start)
    (hl : s.stop ≤ bytes.length) : (moveTo place bytes s).take k = bytes.take k := by
  simp only [Span.stop] at hl
  rw [moveTo, List.append_assoc, List.take_append_of_le_length, List.take_take,
    Nat.min_eq_left hk]
  rw [List.length_take]
  omega

theorem moveTo_drop {k : Nat} (hk : s.stop ≤ k) (h : place ≤ s.start)
    (hl : s.stop ≤ bytes.length) : (moveTo place bytes s).drop k = bytes.drop k := by
  have ho := Span.length_of hl
  simp only [Span.stop] at hk hl
  have hf : (bytes.take place ++ s.of bytes).length = place + s.len := by
    rw [List.length_append, List.length_take, ho]
    omega
  have he : k = (bytes.take place ++ s.of bytes).length + (k - (place + s.len)) := by omega
  rw [moveTo, he, List.drop_length_add_append, List.drop_drop, hf]

/-- Chunks that follow each other move towards `place` without touching what lies around them. -/
theorem compact_frame (hc : Span.Chain first last spans) (hp : place ≤ first)
    (hl : last ≤ bytes.length) :
    (compact place bytes spans).1.length = bytes.length ∧
      (∀ k ≤ place, (compact place bytes spans).1.take k = bytes.take k) ∧
      ∀ k ≥ last, (compact place bytes spans).1.drop k = bytes.drop k := by
  induction spans generalizing place bytes first with
  | nil => exact ⟨rfl, fun _ _ => rfl, fun _ _ => rfl⟩
  | cons s spans ih =>
    obtain ⟨hs, hc⟩ := hc
    have hle := hc.le
    have hps : place ≤ s.start := Nat.le_trans hp hs
    have hsl : s.stop ≤ bytes.length := Nat.le_trans hle hl
    have hlen := moveTo_length hps hsl
    have hpl : place + s.len ≤ s.stop := Nat.add_le_add_right hps _
    obtain ⟨h₁, h₂, h₃⟩ := ih hc hpl (hlen.symm ▸ hl)
    refine ⟨h₁.trans hlen, fun k hk => ?_, fun k hk => ?_⟩
    · exact (h₂ k (by omega)).trans (moveTo_take hk hps hsl)
    · exact (h₃ k hk).trans (moveTo_drop (Nat.le_trans hle hk) hps hsl)

end Compaction

section Head

/-- Two messages with the same first line and the same fields. -/
structure SameHead (m m' : StoredMessage) : Prop where
  version : m.parts.version = m'.parts.version
  kind : m.kind? = m'.kind?
  method : m.method? = m'.method?
  target : m.target? = m'.target?
  fields : m.fields = m'.fields

variable {m m' : StoredMessage}

theorem SameHead.values (h : SameHead m m') (name : String) : m.values name = m'.values name :=
  congrArg (Framing.valuesOf name) h.fields

theorem SameHead.field (h : SameHead m m') (name : String) : m.field? name = m'.field? name :=
  congrArg List.head? (h.values name)

theorem SameHead.hasWord (h : SameHead m m') (name word : String) :
    m.hasWord name word = m'.hasWord name word := by
  unfold StoredMessage.hasWord
  rw [h.values]

/-- Messages that were read alike have the same head where their bytes agree in front of it. -/
theorem sameHead_of_take {stop : Nat} (hw : m.parts.HeadWithin stop)
    (hv : m.parts.version = m'.parts.version) (hs : m.parts.start = m'.parts.start)
    (hf : m.parts.fields = m'.parts.fields) (hb : m.bytes.take stop = m'.bytes.take stop) :
    SameHead m m' := by
  obtain ⟨ws, wf⟩ := hw
  have hof : ∀ s : Span, s.Within 0 stop → s.of m.bytes = s.of m'.bytes :=
    fun s h => Span.of_congr h.2 hb
  have hp : m.fields = m'.fields := by
    unfold StoredMessage.fields Parts.pairs
    rw [← hf]
    refine List.map_congr_left fun f hm => ?_
    rw [hof _ (wf f hm).1, hof _ (wf f hm).2]
  refine ⟨hv, ?_, ?_, ?_, hp⟩
  · unfold StoredMessage.kind?
    rw [hs]
  · unfold StoredMessage.method?
    rw [← hs]
    split
    · rename_i method target he
      rw [hof _ (ws _ he _ (by simp [StartLine.spans]))]
    · rfl
  · unfold StoredMessage.target?
    rw [← hs]
    split
    · rename_i method target he
      rw [hof _ (ws _ he _ (by simp [StartLine.spans]))]
    · rfl

theorem reason_of_take {stop : Nat} (hw : m.parts.HeadWithin stop)
    (hs : m.parts.start = m'.parts.start) (hb : m.bytes.take stop = m'.bytes.take stop) :
    m.reason? = m'.reason? := by
  unfold StoredMessage.reason?
  rw [← hs]
  split
  · rename_i code phrase he
    have hphrase := hw.1 _ he phrase (by simp [StartLine.spans])
    rw [Span.of_congr hphrase.2 hb]
  · rfl

end Head

section Read

variable {m m' : StoredMessage} {parts : Parts} {next : Cursor}

/-- Reading gives the head of what stands in the buffer, and leaves what stands behind the
message. -/
theorem read_complete (hb : m.buffer.Sound)
    (h : readMessage m.config.limits m.buffer.content = (parts, .done () next))
    (hp : m'.parts = parts) (hm : m'.bytes = m.buffer.content) :
    SameHead m.read.2 m' ∧ m.read.2.buffer.Sound ∧
      m.read.2.buffer.content.drop next.pos = next.rest := by
  obtain ⟨stop, hw, hle, hc⟩ := readMessage_places h
  rw [readMessage_rest h]
  subst hp
  simp only [read, h]
  split
  · rename_i hf
    obtain ⟨hstart, hchain⟩ := hc hf
    have hl := readMessage_pos_le h
    obtain ⟨h₁, h₂, h₃⟩ := compact_frame hchain (Nat.le_refl stop) hl
    rw [hstart]
    generalize (compact stop m.buffer.content m'.parts.chunks).1 = bytes at h₁ h₂ h₃
    have hbytes : (m.buffer.modify fun _ => bytes).content = bytes :=
      Buffer.content_modify h₁
    have hms : (m.buffer.modify fun _ => bytes).Sound := hb.modify h₁
    refine ⟨sameHead_of_take hw rfl rfl rfl ?_, hms, ?_⟩
    · rw [hm, StoredMessage.bytes, hbytes]
      exact h₂ stop (Nat.le_refl _)
    · rw [hbytes]
      exact h₃ _ (Nat.le_refl _)
  · refine ⟨sameHead_of_take hw rfl rfl rfl ?_, hb, rfl⟩
    rw [hm, StoredMessage.bytes]

/-- An incomplete message stays as it is. -/
theorem buffer_read_more (h : m.read.1 = .more) : m.read.2.buffer = m.buffer := by
  rw [read_fst] at h
  simp only [read]
  split
  · rename_i hd
    rw [h] at hd
    cases hd
  · rfl

end Read

end OriginServer.Http.StoredMessage
