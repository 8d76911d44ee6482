import OriginServer.Proofs.Http.ChunkGrammar
import OriginServer.Proofs.Http.Framing
import OriginServer.Proofs.Http.Message
import OriginServer.Proofs.Spelling
import OriginServer.Proofs.Text.WordNumeral

namespace OriginServer.Http

open Ascii Scanner Numeral

namespace ContentLength

variable {item : Bytes} {n : Nat}

theorem denotes_iff :
    Denotes n item ↔
      item ≠ [] ∧ (∀ b ∈ item, isDigit b = true) ∧
        Nat.ofDigits 10 (decimalValues item).reverse = n ∧ n < 2 ^ 64 := by
  rw [Denotes, ofDecimal_eq]

theorem read_refused (h : ¬ ∃ n, read item = .ok n) : read item = .error .invalidContentLength := by
  cases hr : read item with
  | ok n => exact absurd ⟨n, hr⟩ h
  | error e => rw [read_eq_error hr]

theorem denotes_zeros (hn : item ≠ []) (k : Nat) :
    Denotes n (List.replicate k 0x30 ++ item) ↔ Denotes n item := by
  have hzeros : ∀ b ∈ List.replicate k (0x30 : UInt8), isDigit b = true := by
    intro b hb
    rw [List.eq_of_mem_replicate hb]
    decide
  simp only [Denotes, ofDecimal_zeros, List.forall_mem_append, ne_eq, List.append_eq_nil_iff, hn,
    and_false, not_false_eq_true, true_and, and_iff_right hzeros]

/-- Any number of zeros may stand in front of a length. -/
theorem read_zeros (hn : item ≠ []) (k : Nat) :
    read (List.replicate k 0x30 ++ item) = read item := by
  refine eq_of_ok_iff (fun _ => read_eq_error) (fun _ => read_eq_error) fun n => ?_
  rw [read_iff, read_iff, denotes_zeros hn]

/-- Digits are read as if every product and every sum were checked. -/
theorem read_eq_stepwise (hn : item ≠ []) (hd : ∀ b ∈ item, isDigit b = true) :
    read item =
      (stepwise? 10 (decimalValues item)).elim (.error .invalidContentLength) .ok := by
  have hdigits : ¬ (item.isEmpty || !item.all isDigit) = true := by
    simpa [List.all_eq_true, hn] using hd
  rw [stepwise?_eq (by decide), ← ofDecimal_eq, read, decimal?, if_neg hdigits, Option.filter_some,
    word?]
  by_cases hw : ofDecimal item < wordLimit
  · rw [if_pos hw, if_pos (decide_eq_true hw)]
    rfl
  · rw [if_neg hw, if_neg (by simpa using hw)]
    rfl

end ContentLength

namespace Chunked

variable {base n : Nat} {c next : Cursor} {spans : List Span}

section Size

theorem size_of_overflow (h : wordLimit ≤ ofHex (c.rest.takeWhile isHexDigit)) :
    size c = .fail .invalidChunk := by
  refine bind_of_fail ?_
  simp only [if_pos h]

theorem size_of_unended (h : ofHex (c.rest.takeWhile isHexDigit) < wordLimit)
    (hr : c.rest.dropWhile isHexDigit = []) : size c = .more := by
  refine bind_of_more ?_
  simp only [if_neg (Nat.not_le.2 h), run, hr]

theorem size_of_ended (hn : c.rest.takeWhile isHexDigit ≠ [])
    (h : ofHex (c.rest.takeWhile isHexDigit) < wordLimit)
    (hr : c.rest.dropWhile isHexDigit ≠ []) :
    size c = .done (ofHex (c.rest.takeWhile isHexDigit))
      ⟨c.pos + (c.rest.takeWhile isHexDigit).length, c.rest.dropWhile isHexDigit⟩ := by
  obtain ⟨x, rest, hx⟩ := List.exists_cons_of_ne_nil hr
  have hend : isHexDigit x = false := by
    have hh := List.head?_dropWhile_not isHexDigit c.rest
    rw [hx] at hh
    simpa using hh
  have hdigits : ∀ b ∈ c.rest.takeWhile isHexDigit, isHexDigit b = true :=
    List.all_eq_true.1 List.all_takeWhile
  have hsize := size_complete hn hdigits h hend c.pos rest
  rwa [← hx, List.takeWhile_append_dropWhile] at hsize

end Size

section Behind

/-- What is read behind the size of a chunk: the rest of its line, its data, and the chunks that
follow. Nothing follows a chunk of size zero. -/
def behindSize (base size : Nat) : Scanner ParseError (List Span) := do
  extensions
  lineEnd .invalidChunk
  if size = 0 then return []
  else
    let span ← data base size
    let spans ← chunksFrom base
    return span :: spans

/-- The chunks that follow one, or none behind the last one. -/
def behindChunk (base : Nat) : Option Span → Scanner ParseError (List Span)
  | none => return []
  | some span => do
    let spans ← chunksFrom base
    return span :: spans

theorem chunksFrom_eq_chunk (base : Nat) (c : Cursor) :
    chunksFrom base c = (chunk base >>= behindChunk base) c := by
  cases h : chunk base c with
  | fail cause => rw [bind_of_fail h, chunksFrom_fail h]
  | more =>
    rw [bind_of_more h, chunksFrom]
    split <;> rename_i h' <;> cases h.symm.trans h'
    rfl
  | done found mid =>
    rw [bind_of_done h]
    cases found with
    | none => exact chunksFrom_none h
    | some span =>
      rw [chunksFrom_some h, behindChunk]
      cases hl : chunksFrom base mid with
      | done spans last =>
        rw [bind_of_done hl]
        rfl
      | more => rw [bind_of_more hl]
      | fail cause => rw [bind_of_fail hl]

theorem chunksFrom_eq_size (base : Nat) (c : Cursor) :
    chunksFrom base c = (size >>= behindSize base) c := by
  have hchunk : chunk base >>= behindChunk base = size >>= behindSize base := by
    simp only [chunk, line, bind_assoc]
    refine bind_congr fun n => (bind_bind extensions _ _).trans ?_
    refine bind_congr (m := Scanner ParseError) fun _ => ?_
    rw [bind_assoc]
    refine bind_congr fun _ => ?_
    rw [pure_bind]
    split
    · rfl
    · simp only [bind_assoc, pure_bind]
      rfl
  rw [chunksFrom_eq_chunk, hchunk]

theorem behindSize_nil (base n pos : Nat) : behindSize base n ⟨pos, []⟩ = .more := by
  refine bind_of_more ?_
  rw [extensions]
  rfl

/-- The data of a chunk is as long as its size says, and lies behind the line. -/
theorem behindSize_eq_done (h : behindSize base n c = .done spans next) :
    n = 0 ∧ spans = [] ∨
      ∃ span later, spans = span :: later ∧ 0 < n ∧ span.len = n ∧
        span.Within c.pos next.pos := by
  obtain ⟨_, m₁, h₁, h⟩ := bind_eq_done h
  obtain ⟨_, m₂, h₂, h⟩ := bind_eq_done h
  have p₁ := forward_extensions.pos_le h₁
  have p₂ := (advances_lineEnd _).forward.pos_le h₂
  split at h
  · rename_i hz
    exact .inl ⟨hz, (pure_eq_done h).1⟩
  · rename_i hz
    obtain ⟨span, m₃, h₃, h⟩ := bind_eq_done h
    obtain ⟨later, m₄, h₄, h⟩ := bind_eq_done h
    obtain ⟨rfl, rfl⟩ := pure_eq_done h
    obtain ⟨hwithin, hlen⟩ := data_within h₃
    have p₄ := (forward_chunksFrom base).pos_le h₄
    exact .inr ⟨span, later, rfl, Nat.pos_of_ne_zero hz, hlen, hwithin.mono (by omega) p₄⟩

end Behind

section Exact

variable {digits : Bytes}

theorem chunksFrom_of_overflow (hd : c.rest.takeWhile isHexDigit = digits)
    (h : wordLimit ≤ ofHex digits) (base : Nat) : chunksFrom base c = .fail .invalidChunk := by
  subst hd
  rw [chunksFrom_eq_size]
  exact bind_of_fail (size_of_overflow h)

theorem chunksFrom_of_fits (hd : c.rest.takeWhile isHexDigit = digits) (hn : digits ≠ [])
    (h : ofHex digits < wordLimit) (base : Nat) :
    chunksFrom base c =
      behindSize base (ofHex digits) ⟨c.pos + digits.length, c.rest.dropWhile isHexDigit⟩ := by
  subst hd
  rw [chunksFrom_eq_size]
  by_cases hr : c.rest.dropWhile isHexDigit = []
  · rw [bind_of_more (size_of_unended h hr), hr, behindSize_nil]
  · exact bind_of_done (size_of_ended hn h hr)

/-- The size of a chunk is read as if every product and every sum were checked. -/
theorem chunksFrom_eq_stepwise (hd : c.rest.takeWhile isHexDigit = digits) (hn : digits ≠ [])
    (base : Nat) :
    chunksFrom base c = (stepwise? 16 (hexValues digits)).elim (.fail .invalidChunk) fun n =>
      behindSize base n ⟨c.pos + digits.length, c.rest.dropWhile isHexDigit⟩ := by
  rw [stepwise?_eq (by decide), ← ofHex_eq]
  by_cases hw : ofHex digits < wordLimit
  · rw [chunksFrom_of_fits hd hn hw, word?, if_pos hw]
    rfl
  · rw [chunksFrom_of_overflow hd (Nat.not_lt.1 hw), word?, if_neg hw]
    rfl

end Exact

end Chunked

section Messages

variable {limits : Limits} {input : Bytes} {parts : Parts} {mid next : Cursor} {n : Nat}

theorem Framing.Announced.length_lt {fields : List (Bytes × Bytes)}
    (h : Announced fields (.length n)) : n < 2 ^ 64 := by
  obtain ⟨-, hne, hall⟩ := h
  obtain ⟨value, hv⟩ := List.exists_mem_of_ne_nil _ hne
  obtain ⟨items, hlisted, hitems⟩ := hall value hv
  obtain ⟨item, hi⟩ := List.exists_mem_of_ne_nil _ hlisted.ne_nil
  exact (hitems item hi).2.2.2

/-- A body of an announced length ends that far behind the head. The end is a word, and not beyond
the input. -/
theorem readMessage_of_length (h : readHead limits input = (parts, .done () mid))
    (ha : Framing.Announced (parts.pairs input) (.length n)) :
    readMessage limits input =
      if 2 ^ 64 ≤ mid.pos + n then
        ({ parts with framing := some (.length n) }, .fail .invalidContentLength)
      else if input.length < mid.pos + n then
        ({ parts with framing := some (.length n) }, .more)
      else
        ({ parts with framing := some (.length n), body := ⟨mid.pos, n⟩ },
          .done () ⟨mid.pos + n, input.drop (mid.pos + n)⟩) := by
  obtain ⟨taken, hi, hp, -⟩ := readHead_closed h
  have hlen : input.length = mid.pos + mid.rest.length := by rw [hi, List.length_append, hp]
  have hdrop : input.drop (mid.pos + n) = mid.rest.drop n := by
    rw [← List.drop_drop, hp, hi, List.drop_left]
  have hshort : mid.rest.length < n ↔ input.length < mid.pos + n := by omega
  rw [readMessage_of_head h (Framing.decide_iff_announced.2 ha), hdrop, ← if_congr hshort rfl rfl]
  rfl

/-- A complete message with a length ends where its length says. -/
theorem readMessage_length (h : readMessage limits input = (parts, .done () next))
    (hv : Framing.valuesOf "content-length" (parts.pairs input) ≠ []) :
    ∃ n, (∀ value ∈ Framing.valuesOf "content-length" (parts.pairs input),
        ContentLength.LengthList n value) ∧
      parts.body.len = n ∧ next.pos = parts.body.start + n ∧ next.pos ≤ input.length := by
  cases hh : readHead limits input with
  | mk head outcome =>
    cases outcome with
    | more => simp [readMessage_eq, hh] at h
    | fail cause => simp [readMessage_eq, hh] at h
    | done a mid =>
      cases hf : Framing.decide (head.pairs input) with
      | error cause => simp [readMessage_eq, hh, hf] at h
      | ok framing =>
        have hfields := (readMessage_head limits input).2.2
        rw [h, hh] at hfields
        have hpairs : parts.pairs input = head.pairs input := by rw [Parts.pairs, hfields]; rfl
        have ha := Framing.decide_iff_announced.1 hf
        rw [hpairs] at hv ⊢
        cases framing with
        | empty => exact absurd ha.2 hv
        | chunked => exact absurd ha.2.1 hv
        | length n =>
          rw [readMessage_of_length hh ha] at h
          split at h
          · cases h
          · split at h
            · cases h
            · rename_i hshort
              cases h
              exact ⟨n, ha.2.2, rfl, rfl, Nat.not_lt.1 hshort⟩

end Messages

/-- A length is the number that its digits stand for if that fits a word, and refused if not,
whatever zeros stand in front, and so is the size of a chunk. A body with a length ends that far
behind the head: the end does not wrap, and a body that does not fit into the input does not
complete a message. -/
theorem sizes_exact (limits : Limits) :
    (∀ item : Bytes,
      (∀ n, ContentLength.read item = .ok n ↔
        item ≠ [] ∧ (∀ b ∈ item, isDigit b = true) ∧
          Nat.ofDigits 10 (decimalValues item).reverse = n ∧ n < 2 ^ 64) ∧
      ((¬ ∃ n, ContentLength.read item = .ok n) →
        ContentLength.read item = .error .invalidContentLength) ∧
      (item ≠ [] → ∀ k,
        ContentLength.read (List.replicate k 0x30 ++ item) = ContentLength.read item) ∧
      (item ≠ [] → (∀ b ∈ item, isDigit b = true) →
        ContentLength.read item =
          (stepwise? 10 (decimalValues item)).elim (.error .invalidContentLength) .ok)) ∧
    (∀ c, Chunked.chunks c = Chunked.chunksFrom c.pos c) ∧
    (∀ base c digits, c.rest.takeWhile isHexDigit = digits → digits ≠ [] →
      (2 ^ 64 ≤ Nat.ofDigits 16 (hexValues digits).reverse →
        Chunked.chunksFrom base c = .fail .invalidChunk) ∧
      (∀ n < 2 ^ 64, Nat.ofDigits 16 (hexValues digits).reverse = n →
        Chunked.chunksFrom base c =
            Chunked.behindSize base n
              ⟨c.pos + digits.length, c.rest.dropWhile isHexDigit⟩ ∧
          ∀ spans next, Chunked.chunksFrom base c = .done spans next →
            n = 0 ∧ spans = [] ∨
              ∃ span later, spans = span :: later ∧ 0 < n ∧ span.len = n ∧
                span.Within (c.pos + digits.length) next.pos) ∧
      Chunked.chunksFrom base c =
        (stepwise? 16 (hexValues digits)).elim (.fail .invalidChunk) fun n =>
          Chunked.behindSize base n ⟨c.pos + digits.length, c.rest.dropWhile isHexDigit⟩) ∧
    (∀ input parts mid n, readHead limits input = (parts, .done () mid) →
      Framing.Announced (parts.pairs input) (.length n) →
        n < 2 ^ 64 ∧
        (readMessage limits input).2 =
          (if 2 ^ 64 ≤ mid.pos + n then .fail .invalidContentLength
          else if input.length < mid.pos + n then .more
          else .done () ⟨mid.pos + n, input.drop (mid.pos + n)⟩) ∧
        (input.length < mid.pos + n →
          (readMessage limits input).2 = .more ∨
            (readMessage limits input).2 = .fail .invalidContentLength) ∧
        (n = 2 ^ 64 - 1 → (readMessage limits input).2 = .fail .invalidContentLength)) ∧
    ∀ input parts next, readMessage limits input = (parts, .done () next) →
      Framing.valuesOf "content-length" (parts.pairs input) ≠ [] →
        ∃ n, (∀ value ∈ Framing.valuesOf "content-length" (parts.pairs input),
            ContentLength.LengthList n value) ∧
          parts.body.len = n ∧ next.pos = parts.body.start + n ∧ next.pos ≤ input.length := by
  refine ⟨fun item => ⟨fun n => ?_, ContentLength.read_refused, ContentLength.read_zeros,
    ContentLength.read_eq_stepwise⟩, fun c => rfl, fun base c digits hd hn =>
    ⟨fun hw => ?overflow, fun n hw hv => ?fits, Chunked.chunksFrom_eq_stepwise hd hn base⟩,
    fun input parts mid n h ha => ?announced, fun input parts next => readMessage_length⟩
  · rw [ContentLength.read_iff, ContentLength.denotes_iff]
  case overflow =>
    rw [← ofHex_eq] at hw
    exact Chunked.chunksFrom_of_overflow hd hw base
  case fits =>
    rw [← ofHex_eq] at hv
    subst hv
    have hsame := Chunked.chunksFrom_of_fits hd hn hw base
    exact ⟨hsame, fun spans next h => Chunked.behindSize_eq_done (hsame ▸ h)⟩
  case announced =>
    have hpos := readHead_least h
    rw [readMessage_of_length h ha]
    refine ⟨ha.length_lt, ?_, fun hlong => ?_, fun hmax => ?_⟩
    · split
      · rfl
      · split <;> rfl
    · by_cases hw : 2 ^ 64 ≤ mid.pos + n
      · rw [if_pos hw]
        exact .inr rfl
      · rw [if_neg hw, if_pos hlong]
        exact .inl rfl
    · rw [if_pos (by omega)]

/-- The greatest word is read as a length and is too long for any message. -/
theorem sizes_exact_greatest :
    ContentLength.read (Bytes.ofText "00018446744073709551615") = .ok (2 ^ 64 - 1) ∧
      ContentLength.read (Bytes.ofText "18446744073709551616") = .error .invalidContentLength ∧
      Chunked.chunks ⟨0, Bytes.ofText "10000000000000000"⟩ = .fail .invalidChunk ∧
      (readMessage {} (Bytes.ofText
        "GET / HTTP/1.1\r\nContent-Length: 18446744073709551615\r\n\r\n")).2 =
          .fail .invalidContentLength := by
  obtain ⟨hread, hchunks, hchunk, hmessage, -⟩ := sizes_exact {}
  refine ⟨?_, ?_, ?_, ?_⟩
  · exact ((hread _).1 _).2 (by decide +kernel)
  · refine (hread _).2.1 fun ⟨n, hn⟩ => ?_
    obtain ⟨-, -, rfl, hlt⟩ := ((hread _).1 n).1 hn
    exact absurd hlt (by decide +kernel)
  · rw [hchunks]
    exact (hchunk 0 _ (Bytes.ofText "10000000000000000") (by decide +kernel) (by decide)).1
      (by decide +kernel)
  · exact (hmessage _ _ ⟨56, []⟩ (2 ^ 64 - 1) (Prod.ext rfl (by decide +kernel))
      (Framing.decide_iff_announced.1 (by decide +kernel))).2.2.2 rfl

end OriginServer.Http
