import OriginServer.Proofs.Http.Places

namespace OriginServer.Http.StoredMessage

section Moving

variable {bytes : Bytes} {place first last : Nat} {s : Span} {spans : List Span}

/-- What is moved arrives as it was, also where the two stretches overlap. -/
theorem of_moveTo (h : place ≤ s.start) (hl : s.stop ≤ bytes.length) :
    Span.of ⟨place, s.len⟩ (moveTo place bytes s) = s.of bytes := by
  have hlen := Span.length_of hl
  simp only [Span.stop] at hl
  have hfront : place = (bytes.take place).length := by
    rw [List.length_take]
    omega
  rw [moveTo, List.append_assoc]
  exact Span.of_middle (s := ⟨place, s.len⟩) hfront hlen.symm _

/-- What stands behind a stretch that is moved stays as it was. -/
theorem of_moveTo_later {t : Span} (ht : s.stop ≤ t.start) (h : place ≤ s.start)
    (hl : s.stop ≤ bytes.length) : t.of (moveTo place bytes s) = t.of bytes := by
  rw [Span.of, Span.of, Bytes.slice, Bytes.slice, moveTo_drop ht h hl]

/-- Stretches that follow each other are brought together at `place`, each as it was before any
of them was moved. -/
theorem compact_content (hc : Span.Chain first last spans) (hp : place ≤ first)
    (hl : last ≤ bytes.length) :
    Span.of ⟨place, (compact place bytes spans).2 - place⟩ (compact place bytes spans).1 =
      spans.flatMap (·.of bytes) := by
  induction spans generalizing place bytes first with
  | nil =>
    rw [compact, Nat.sub_self]
    exact List.take_zero (l := bytes.drop place)
  | cons s spans ih =>
    obtain ⟨hs, hc⟩ := hc
    have hps : place ≤ s.start := Nat.le_trans hp hs
    have hsl : s.stop ≤ bytes.length := Nat.le_trans hc.le hl
    have hnext : place + s.len ≤ s.stop := Nat.add_le_add_right hps _
    have hmoved : last ≤ (moveTo place bytes s).length := by
      rw [moveTo_length hps hsl]
      exact hl
    have hlater : spans.flatMap (·.of (moveTo place bytes s)) = spans.flatMap (·.of bytes) :=
      List.flatMap_congr fun t ht => of_moveTo_later (hc.within t ht).1 hps hsl
    obtain ⟨hle, -⟩ := compact_stop (moveTo place bytes s) hc hnext
    obtain ⟨-, hfront, -⟩ := compact_frame hc hnext hmoved
    have hrest := ih hc hnext hmoved
    rw [compact]
    generalize compact (place + s.len) (moveTo place bytes s) spans = moved at hle hfront hrest ⊢
    -- The first stretch is not touched again.
    have hfirst : Span.of ⟨place, s.len⟩ moved.1 = s.of bytes :=
      (Span.of_congr (Nat.le_refl _) (hfront _ (Nat.le_refl _))).trans (of_moveTo hps hsl)
    have hsplit : moved.2 - place = s.len + (moved.2 - (place + s.len)) := by omega
    rw [hsplit, Span.of_add, hfirst, hrest, hlater, List.flatMap_cons]

end Moving

/-- The message that was read, with its bytes rewritten and its body at another place. -/
def withBody (m : StoredMessage) (parts : Parts) (bytes : Bytes) (body : Span) : StoredMessage :=
  { m with
    buffer := m.buffer.modify fun _ => bytes
    parts := { parts with body }
    chunk := body }

section Read

variable {m : StoredMessage} {parts : Parts} {next : Cursor} {bytes : Bytes}

theorem bytes_withBody (h : bytes.length = m.bytes.length) (body : Span) :
    (m.withBody parts bytes body).bytes = bytes :=
  Buffer.content_modify h

/-- The message that is left when a chunked one was read. -/
theorem read_chunked (h : readMessage m.config.limits m.bytes = (parts, .done () next))
    (hf : parts.framing = some .chunked) :
    m.read =
      (.done () next,
        m.withBody parts (compact parts.body.start m.bytes parts.chunks).1
          ⟨parts.body.start,
            (compact parts.body.start m.bytes parts.chunks).2 - parts.body.start⟩) := by
  unfold StoredMessage.bytes at h ⊢
  simp only [read, h, hf, if_true, withBody]

/-- A complete chunked message keeps the number of its bytes. The chunks were found right behind its
head, and now its body is their data, in order, as it was before. All bytes in front of the chunks
and behind the message are as they were, so its first line and its fields are still those that were
read, and what is taken off behind it is what stood there. -/
theorem read_compacts (h : readMessage m.config.limits m.bytes = (parts, .done () next))
    (hf : parts.framing = some .chunked) :
    m.read.1 = .done () next ∧
    (∃ mid last, (readHead m.config.limits m.bytes).2 = .done () mid ∧
      Chunked.chunks mid = .done parts.chunks last ∧
      parts.body = ⟨mid.pos, last.pos - mid.pos⟩ ∧ last.pos ≤ next.pos) ∧
    m.read.2.body = parts.chunks.flatMap (·.of m.bytes) ∧
    m.read.2.chunkData = parts.chunks.flatMap (·.of m.bytes) ∧
    m.read.2.buffer.length = m.buffer.length ∧ m.read.2.bytes.length = m.bytes.length ∧
    m.read.2.bytes.take parts.body.start = m.bytes.take parts.body.start ∧
    m.read.2.bytes.drop next.pos = m.bytes.drop next.pos ∧
    SameHead m.read.2 { m with parts } ∧ m.read.2.code? = { m with parts }.code? ∧
    m.read.2.reason? = { m with parts }.reason? ∧
    (m.buffer.Sound → ∃ rest,
      m.read.2.buffer.shiftTrailing next.pos = .ok (m.read.2.buffer.truncate next.pos, rest) ∧
        rest.content = m.bytes.drop next.pos) := by
  obtain ⟨stop, hhead, -, hplaces⟩ := readMessage_places h
  obtain ⟨hstart, hchain⟩ := hplaces hf
  have hpos : next.pos ≤ m.bytes.length := readMessage_pos_le h
  obtain ⟨hlen, hfront, hbehind⟩ := compact_frame hchain (Nat.le_refl stop) hpos
  have hcontent := compact_content hchain (Nat.le_refl stop) hpos
  have hsection := readMessage_section h hf
  rw [read_chunked h hf, hstart]
  generalize compact stop m.bytes parts.chunks = moved at hlen hfront hbehind hcontent ⊢
  have hbytes (body : Span) : (m.withBody parts moved.1 body).bytes = moved.1 :=
    bytes_withBody hlen body
  have htake : moved.1.take stop = m.bytes.take stop := hfront stop (Nat.le_refl _)
  have hdrop : moved.1.drop next.pos = m.bytes.drop next.pos := hbehind _ (Nat.le_refl _)
  refine ⟨rfl, hsection, ?_, ?_, rfl, ?_, ?_, ?_, ?_, rfl, ?_, fun hb => ?_⟩
  · rw [← hcontent]
    exact congrArg (Span.of _) (hbytes _)
  · rw [← hcontent]
    exact congrArg (Span.of _) (hbytes _)
  · rw [hbytes, hlen]
  · rw [hbytes, htake]
  · rw [hbytes, hdrop]
  · exact sameHead_of_take hhead rfl rfl rfl ((congrArg _ (hbytes _)).trans htake)
  · exact reason_of_take hhead rfl ((congrArg _ (hbytes _)).trans htake)
  · have hsound : (m.buffer.modify fun _ => moved.1).Sound := hb.modify hlen
    have hcontent' : (m.buffer.modify fun _ => moved.1).content = moved.1 :=
      Buffer.content_modify hlen
    have hroom : next.pos ≤ (m.buffer.modify fun _ => moved.1).length := by
      rw [← hsound.length_content, hcontent', hlen]
      exact hpos
    obtain ⟨rest, hshift, -, hrest⟩ := hsound.shiftTrailing_complete hroom
    exact ⟨rest, hshift, by rw [hrest, hcontent', hdrop]⟩

/-- Two chunks, an extension, a trailer, and the first bytes of another message. -/
theorem read_compacts_trailer :
    ∃ (m : StoredMessage) (parts : Parts) (next : Cursor),
      readMessage m.config.limits m.bytes = (parts, .done () next) ∧
      parts.framing = some .chunked ∧ m.read.2.body = Bytes.ofText "abcde" ∧
      m.read.2.bytes.drop next.pos = Bytes.ofText "GET" := by
  let input := Bytes.ofText ("POST /u HTTP/1.1\r\nTransfer-Encoding: chunked\r\n\r\n" ++
    "3;a=\"b\"\r\nabc\r\n2\r\nde\r\n0\r\nT: v\r\n\r\nGET")
  let m : StoredMessage := { config := {}, buffer := ⟨input, input.length, none⟩ }
  let parts := (readMessage m.config.limits m.bytes).1
  have hdone : (readMessage m.config.limits m.bytes).2 = .done () ⟨80, Bytes.ofText "GET"⟩ := by
    decide +kernel
  have hchunked : parts.framing = some .chunked := by decide +kernel
  have hdata : parts.chunks.flatMap (·.of m.bytes) = Bytes.ofText "abcde" := by decide +kernel
  have hrest : m.bytes.drop 80 = Bytes.ofText "GET" := by decide +kernel
  obtain ⟨-, -, hbody, -, -, -, -, hbehind, -⟩ := read_compacts (Prod.ext rfl hdone) hchunked
  exact ⟨m, parts, _, Prod.ext rfl hdone, hchunked, hbody.trans hdata, hbehind.trans hrest⟩

end Read

end OriginServer.Http.StoredMessage
