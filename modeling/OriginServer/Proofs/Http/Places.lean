import OriginServer.Proofs.Http.StoredMessage

namespace OriginServer.Http

open Scanner

namespace Parts

/-- The places in the first line, and then the name and the value of every field. -/
def headSpans (p : Parts) : List Span :=
  p.start.elim [] StartLine.spans ++ p.fields.flatMap Field.spans

/-- All places that are recorded. -/
def spans (p : Parts) : List Span := p.headSpans ++ p.body :: p.chunks

/-- The places suit the input, which may be incomplete or refused. -/
structure Fits (p : Parts) (limits : Limits) (input : Bytes) : Prop where
  inside : ∀ s ∈ p.spans, s.stop ≤ input.length
  apart : p.headSpans.Pairwise fun s t => s.stop < t.start
  few : p.fields.length ≤ limits.fieldCapacity

/-- The places in the body of a message that ends at `stop` and whose head ends at `head`. -/
structure Bodied (p : Parts) (head stop : Nat) : Prop where
  body : p.body.Within head stop
  nonempty : ∀ s ∈ p.chunks, 0 < s.len
  inside : ∀ s ∈ p.chunks, s.Within p.body.start p.body.stop
  order : p.chunks.Pairwise fun s t => s.stop ≤ t.start

end Parts

section Read

variable {limits : Limits} {input : Bytes} {next : Cursor}

theorem readHead_apart (limits : Limits) (input : Bytes) :
    Span.Apart 0 input.length (readHead limits input).1.headSpans := by
  cases hs : startLine limits ⟨0, input⟩ with
  | more =>
    simp only [readHead, hs]
    exact Nat.zero_le _
  | fail cause =>
    simp only [readHead, hs]
    exact Nat.zero_le _
  | done a mid =>
    rw [readHead_of_done hs]
    have hstart : Span.Apart 0 mid.pos a.2.spans := startLine_apart hs
    have hreach : mid.pos + mid.rest.length = input.length := by
      have h := (advances_startLine limits).forward.reach hs
      simpa using h
    refine hstart.append ?_
    rw [← hreach]
    exact fieldSection_reach

theorem readHead_few (limits : Limits) (input : Bytes) :
    (readHead limits input).1.fields.length ≤ limits.fieldCapacity := by
  cases hs : startLine limits ⟨0, input⟩ with
  | more => simp [readHead, hs]
  | fail cause => simp [readHead, hs]
  | done a mid =>
    have hfull (n : Nat) (hn : limits.full n = none) : n < limits.fieldCapacity := by
      simpa [Limits.full] using hn
    rw [readHead_of_done hs]
    simpa using fieldSection_few (c := mid) hfull (Nat.zero_le _)

section Body

variable {framing : Framing} {parts : Parts} {c : Cursor}

/-- Nothing is recorded of a body beyond the end of the input. -/
theorem readBody_inside
    (h : ∀ s ∈ parts.body :: parts.chunks, s.stop ≤ c.pos + c.rest.length) :
    ∀ s ∈ (readBody framing parts c).1.body :: (readBody framing parts c).1.chunks,
      s.stop ≤ c.pos + c.rest.length := by
  obtain ⟨hbody, hchunks⟩ := List.forall_mem_cons.1 h
  cases framing with
  | empty => exact List.forall_mem_cons.2 ⟨Nat.le_add_right _ _, hchunks⟩
  | length n =>
    simp only [readBody]
    split
    · exact h
    · split
      · exact h
      · rename_i hn
        exact List.forall_mem_cons.2 ⟨Nat.add_le_add_left (Nat.not_lt.1 hn) _, hchunks⟩
  | chunked =>
    cases hc : Chunked.chunks c with
    | more => simpa only [readBody, hc] using h
    | fail cause => simpa only [readBody, hc] using h
    | done chunks mid =>
      rw [readBody_chunked hc]
      have hchain := Chunked.chain_chunks hc
      have hle := hchain.le
      have hreach := Chunked.forward_chunks.reach hc
      refine List.forall_mem_cons.2 ⟨?_, fun s hs => ?_⟩
      · simp only [Span.stop]
        omega
      · have hstop := (hchain.within s hs).2
        omega

/-- The body of a complete message lies where it was read, with its chunks inside. -/
theorem readBody_bodied (hparts : parts.chunks = [])
    (h : (readBody framing parts c).2 = .done () next) :
    (readBody framing parts c).1.Bodied c.pos next.pos := by
  have plain {stop : Nat} (span : Span) (hw : span.Within c.pos stop) :
      Parts.Bodied { parts with body := span } c.pos stop := by
    refine ⟨hw, ?_, ?_, ?_⟩
    all_goals simp [hparts]
  cases framing with
  | empty =>
    cases h
    exact plain _ ⟨Nat.le_refl _, Nat.le_refl _⟩
  | length n =>
    simp only [readBody] at h ⊢
    split
    · rename_i hw
      simp [if_pos hw] at h
    · rename_i hw
      split
      · rename_i hn
        simp [if_neg hw, if_pos hn] at h
      · rename_i hn
        simp only [if_neg hw, if_neg hn] at h
        cases h
        exact plain _ ⟨Nat.le_refl _, Nat.le_refl _⟩
  | chunked =>
    cases hc : Chunked.chunks c with
    | more => simp [readBody, hc] at h
    | fail cause => simp [readBody, hc] at h
    | done chunks mid =>
      rw [readBody_chunked hc] at h ⊢
      have hchain := Chunked.chain_chunks hc
      have hle := hchain.le
      have hstop : Span.stop ⟨c.pos, mid.pos - c.pos⟩ = mid.pos := by
        simp only [Span.stop]
        omega
      have htrailer := (fieldSection_within (Prod.ext rfl h)).1
      refine ⟨⟨Nat.le_refl _, Nat.le_trans (Nat.le_of_eq hstop) htrailer⟩, Chunked.chunks_pos hc,
        fun s hs => ?_, hchain.pairwise⟩
      rw [hstop]
      exact hchain.within s hs

end Body

/-- The head says nothing of the body. -/
theorem readHead_bare (limits : Limits) (input : Bytes) :
    (readHead limits input).1.body = ⟨0, 0⟩ ∧ (readHead limits input).1.chunks = [] := by
  unfold readHead
  split <;> exact ⟨rfl, rfl⟩

theorem readMessage_inside (limits : Limits) (input : Bytes) :
    ∀ s ∈ (readMessage limits input).1.body :: (readMessage limits input).1.chunks,
      s.stop ≤ input.length := by
  obtain ⟨hbody, hchunks⟩ := readHead_bare limits input
  have hbare : ∀ s ∈ (readHead limits input).1.body :: (readHead limits input).1.chunks,
      s.stop ≤ input.length := by
    rw [hbody, hchunks]
    simp [Span.stop]
  cases hh : readHead limits input with
  | mk head outcome =>
    rw [hh] at hbare
    cases outcome with
    | more => simpa only [readMessage_eq, hh] using hbare
    | fail cause => simpa only [readMessage_eq, hh] using hbare
    | done a mid =>
      obtain ⟨taken, hinput, hpos, -⟩ := readHead_closed hh
      have hreach : input.length = mid.pos + mid.rest.length := by
        rw [hinput, List.length_append, hpos]
      cases hf : Framing.decide (head.pairs input) with
      | error cause => simpa only [readMessage_eq, hh, hf] using hbare
      | ok framing =>
        rw [readMessage_of_head hh hf]
        rw [hreach] at hbare ⊢
        exact readBody_inside hbare

/-- The places that were recorded lie in the input, those of the head in order. -/
theorem readMessage_fits (limits : Limits) (input : Bytes) :
    (readMessage limits input).1.Fits limits input := by
  obtain ⟨-, hstart, hfields⟩ := readMessage_head limits input
  have hhead : (readMessage limits input).1.headSpans = (readHead limits input).1.headSpans := by
    rw [Parts.headSpans, Parts.headSpans, hstart, hfields]
  have hapart := readHead_apart limits input
  refine ⟨?_, hhead ▸ hapart.pairwise, hfields ▸ readHead_few limits input⟩
  refine List.forall_mem_append.2 ⟨fun s hs => ?_, readMessage_inside limits input⟩
  exact (hapart.within s (hhead ▸ hs)).2

/-- The places in the body of a complete message. -/
theorem readMessage_bodied (h : (readMessage limits input).2 = .done () next) :
    ∃ mid, (readHead limits input).2 = .done () mid ∧
      (readMessage limits input).1.Bodied mid.pos next.pos := by
  have hbare := (readHead_bare limits input).2
  cases hh : readHead limits input with
  | mk head outcome =>
    rw [hh] at hbare
    cases outcome with
    | more => simp [readMessage_eq, hh] at h
    | fail cause => simp [readMessage_eq, hh] at h
    | done a mid =>
      cases hf : Framing.decide (head.pairs input) with
      | error cause => simp [readMessage_eq, hh, hf] at h
      | ok framing =>
        rw [readMessage_of_head hh hf] at h ⊢
        exact ⟨mid, rfl, readBody_bodied hbare h⟩

end Read

namespace StoredMessage

/-- All places that a message holds. Every lookup in the message is about some of them. -/
def spans (m : StoredMessage) : List Span := m.chunk :: m.parts.spans

/-- The message after more input was put into its buffer. Input for which there is no room leaves
the buffer as it is. -/
def pushed (m : StoredMessage) (later : List Bytes) : StoredMessage :=
  { m with buffer := later.foldl (fun b bytes => (b.push bytes).toOption.getD b) m.buffer }

/-- A message whose lookups all give what those of another give. -/
structure Shows (m m' : StoredMessage) : Prop where
  head : SameHead m m'
  code : m.code? = m'.code?
  reason : m.reason? = m'.reason?
  body : m.body = m'.body
  chunkData : m.chunkData = m'.chunkData

variable {m : StoredMessage}

/-- Chunks that are moved together end where they ended, or before. -/
theorem compact_stop (bytes : Bytes) {place first last : Nat} {spans : List Span}
    (hc : Span.Chain first last spans) (hp : place ≤ first) :
    place ≤ (compact place bytes spans).2 ∧ (compact place bytes spans).2 ≤ last := by
  induction spans generalizing place bytes first with
  | nil => exact ⟨Nat.le_refl _, Nat.le_trans hp hc⟩
  | cons s spans ih =>
    obtain ⟨hs, hc⟩ := hc
    have hps : place + s.len ≤ s.stop := Nat.add_le_add_right (Nat.le_trans hp hs) _
    obtain ⟨hle, hlast⟩ := ih (moveTo place bytes s) hc hps
    exact ⟨Nat.le_trans (Nat.le_add_right _ _) hle, hlast⟩

/-- After reading, every place lies in the bytes of the message. -/
theorem read_inside (m : StoredMessage) : ∀ s ∈ m.read.2.spans, s.stop ≤ m.read.2.bytes.length := by
  have hfits := (readMessage_fits m.config.limits m.buffer.content).inside
  cases hread : readMessage m.config.limits m.buffer.content with
  | mk parts outcome =>
    rw [hread] at hfits
    have hplain : ∀ s ∈ (⟨0, 0⟩ : Span) :: parts.spans, s.stop ≤ m.buffer.content.length :=
      List.forall_mem_cons.2 ⟨Nat.zero_le _, hfits⟩
    cases outcome with
    | more =>
      simp only [read, hread]
      exact hplain
    | fail cause =>
      simp only [read, hread]
      exact hplain
    | done a next =>
      simp only [read, hread]
      split
      · rename_i hf
        obtain ⟨stop, -, -, hc⟩ := readMessage_places hread
        obtain ⟨hstart, hchain⟩ := hc hf
        have hpos := readMessage_pos_le hread
        obtain ⟨hlen, -, -⟩ := compact_frame hchain (Nat.le_refl stop) hpos
        obtain ⟨hle, hlast⟩ := compact_stop m.buffer.content hchain (Nat.le_refl stop)
        rw [hstart]
        generalize compact stop m.buffer.content parts.chunks = moved at hlen hle hlast
        obtain ⟨bytes, last⟩ := moved
        have hbytes : (m.buffer.modify fun _ => bytes).content = bytes :=
          Buffer.content_modify hlen
        have hbody : Span.stop ⟨stop, last - stop⟩ ≤ m.buffer.content.length := by
          simp only [Span.stop]
          omega
        obtain ⟨hhead, hrest⟩ := List.forall_mem_append.1 hfits
        have hchunks := (List.forall_mem_cons.1 hrest).2
        rw [StoredMessage.bytes, hbytes, hlen]
        exact List.forall_mem_cons.2 ⟨hbody, List.forall_mem_append.2
          ⟨hhead, List.forall_mem_cons.2 ⟨hbody, hchunks⟩⟩⟩
      · exact hplain

/-- More input leaves the bytes of the message in front. -/
theorem prefix_pushed (m : StoredMessage) (later : List Bytes) :
    m.bytes <+: (m.pushed later).bytes := by
  induction later generalizing m with
  | nil => exact List.prefix_refl _
  | cons bytes later ih =>
    have hstep : m.bytes <+: (m.pushed [bytes]).bytes := by
      cases hp : m.buffer.push bytes with
      | error cause => simp [pushed, hp, Except.toOption]
      | ok b => simpa [pushed, hp, Except.toOption, StoredMessage.bytes] using Buffer.prefix_push hp
    exact hstep.trans (ih (m.pushed [bytes]))

/-- Lookups that stay in the bytes of a message do not see what comes behind them. -/
theorem pushed_shows (h : ∀ s ∈ m.spans, s.stop ≤ m.bytes.length) (later : List Bytes) :
    (m.pushed later).Shows m := by
  obtain ⟨more, hmore⟩ := m.prefix_pushed later
  have hof (s : Span) (hs : s ∈ m.spans) : s.of (m.pushed later).bytes = s.of m.bytes := by
    rw [← hmore]
    exact Span.of_append (h s hs) more
  have hhead (s : Span) (hs : s ∈ m.parts.headSpans) : s ∈ m.spans :=
    List.mem_cons_of_mem _ (List.mem_append_left _ hs)
  have hstart {start : StartLine} (hm : m.parts.start = some start) (s : Span)
      (hs : s ∈ start.spans) : s ∈ m.spans := by
    refine hhead s (List.mem_append_left _ ?_)
    rwa [hm]
  have hfield (f : Field) (hf : f ∈ m.parts.fields) (s : Span) (hs : s ∈ f.spans) : s ∈ m.spans :=
    hhead s (List.mem_append_right _ (List.mem_flatMap.2 ⟨f, hf, hs⟩))
  have hwithin : (m.pushed later).parts.HeadWithin m.bytes.length := by
    refine ⟨fun start hm s hs => ⟨Nat.zero_le _, h s (hstart hm s hs)⟩, fun f hf => ⟨?_, ?_⟩⟩
    · exact ⟨Nat.zero_le _, h _ (hfield f hf f.name (by simp [Field.spans]))⟩
    · exact ⟨Nat.zero_le _, h _ (hfield f hf f.value (by simp [Field.spans]))⟩
  have hfront : m.bytes.take m.bytes.length = (m.pushed later).bytes.take m.bytes.length := by
    rw [← hmore, List.take_left, List.take_length]
  refine ⟨sameHead_of_take hwithin rfl rfl rfl hfront.symm, rfl,
    reason_of_take hwithin rfl hfront.symm, ?_, ?_⟩
  · exact hof m.parts.body (by simp [spans, Parts.spans])
  · exact hof m.chunk (by simp [spans])

/-- Every place that reading records can be looked up. For all inputs, complete or not, the places
lie in the input and those of the head are in order with something between them; there are no more
fields than there may be; and a complete message has its body behind its head, and its chunks one
behind the other in its body. So whatever a message held before, after it was read all its places
lie in its bytes, and they still do, with the same bytes in them, when more input arrives. -/
theorem read_places :
    (∀ (limits : Limits) (input : Bytes),
      (readMessage limits input).1.Fits limits input ∧
        ∀ next, (readMessage limits input).2 = .done () next →
          next.pos ≤ input.length ∧ ∃ head, (readHead limits input).2 = .done () head ∧
            (readMessage limits input).1.Bodied head.pos next.pos) ∧
      ∀ (m : StoredMessage) (later : List Bytes),
        (∀ s ∈ (m.read.2.pushed later).spans, s.stop ≤ (m.read.2.pushed later).bytes.length) ∧
          (m.read.2.pushed later).Shows m.read.2 := by
  refine ⟨fun limits input => ⟨readMessage_fits limits input, fun next h => ?_⟩,
    fun m later => ⟨fun s hs => ?_, pushed_shows m.read_inside later⟩⟩
  · exact ⟨readMessage_pos_le (Prod.ext rfl h), readMessage_bodied h⟩
  · have hlen := (m.read.2.prefix_pushed later).length_le
    exact Nat.le_trans (m.read_inside s hs) hlen

end StoredMessage

end OriginServer.Http
