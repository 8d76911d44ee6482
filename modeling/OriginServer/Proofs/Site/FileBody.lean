import OriginServer.Site.FileBody

namespace OriginServer.Site

/-- The ending of a part of which all pieces were there, or not. -/
def Ending.ofComplete (complete : Bool) : Ending := if complete then .whole else .short

theorem Ending.ofComplete_ne_overflow (complete : Bool) : ofComplete complete ≠ .overflow := by
  cases complete <;> exact nofun

namespace FileBody

variable {b : FileBody}

theorem length_slice {file : Bytes} {offset size : Nat} (h : offset + size ≤ file.length) :
    (file.slice offset size).length = size := by
  rw [Bytes.slice, List.length_take, List.length_drop]
  omega

theorem read?_complete {file : Bytes} {offset size : Nat} (h : offset + size ≤ file.length) :
    read? file offset size = some (file.slice offset size) :=
  if_pos (length_slice h)

theorem read?_eq_some {file bytes : Bytes} {offset size : Nat} (hs : 0 < size)
    (h : read? file offset size = some bytes) :
    bytes = file.slice offset size ∧ offset + size ≤ file.length := by
  simp only [read?] at h
  split at h
  · rename_i hl
    cases h
    rw [Bytes.slice, List.length_take, List.length_drop] at hl
    exact ⟨rfl, by omega⟩
  · cases h

/-- Two neighbouring parts of a file are one. -/
theorem slice_append (file : Bytes) (offset a b : Nat) :
    file.slice offset a ++ file.slice (offset + a) b = file.slice offset (a + b) := by
  rw [Bytes.slice, Bytes.slice, Bytes.slice, List.take_add, List.drop_drop]

/-- What is left behind the next piece. -/
def behind (b : FileBody) : FileBody :=
  { b with
    offset := b.offset + min b.remaining b.chunkSize
    remaining := b.remaining - min b.remaining b.chunkSize }

/-- Behind every piece the part ends where it ended. -/
theorem behind_end (b : FileBody) :
    b.behind.offset + b.behind.remaining = b.offset + b.remaining := by
  dsimp only [behind]
  omega

/-- The next piece in full: there is none, the file is too short for it, or it is the front of what
is left. -/
theorem next?_spec (b : FileBody) :
    (b.next? = none ∧ b.remaining = 0) ∨
    (b.next? = some (none, { b with remaining := 0 }) ∧ 0 < b.remaining ∧
      read? b.file b.offset (min b.remaining b.chunkSize) = none) ∨
    ∃ bytes, b.next? = some (some bytes, b.behind) ∧ 0 < b.remaining ∧
      read? b.file b.offset (min b.remaining b.chunkSize) = some bytes := by
  by_cases hz : b.remaining = 0
  · exact .inl ⟨if_pos hz, hz⟩
  · have hr := Nat.pos_of_ne_zero hz
    cases hread : read? b.file b.offset (min b.remaining b.chunkSize) with
    | none => exact .inr (.inl ⟨by simp only [next?, if_neg hz, hread], hr, rfl⟩)
    | some bytes =>
      exact .inr (.inr ⟨bytes, by simp only [next?, if_neg hz, hread, behind], hr, rfl⟩)

/-- Where the file has all that is left, the next piece is the front of it. -/
theorem next?_cases (h : b.offset + b.remaining ≤ b.file.length) :
    (b.next? = none ∧ b.remaining = 0) ∨
      (b.next? = some (some (b.file.slice b.offset (min b.remaining b.chunkSize)), b.behind) ∧
        0 < b.remaining) := by
  obtain hnone | ⟨-, hr, hread⟩ | ⟨bytes, hs, hr, hread⟩ := b.next?_spec
  · exact .inl hnone
  all_goals cases hread.symm.trans (read?_complete (by omega))
  exact .inr ⟨hs, hr⟩

/-- Joined together, the pieces are what was left. -/
theorem pieces_complete (h : b.offset + b.remaining ≤ b.file.length) :
    b.pieces.1.flatten = b.file.slice b.offset b.remaining ∧ b.pieces.2 = true := by
  fun_induction pieces b with
  | case1 b hb =>
    rcases next?_cases h with ⟨-, hz⟩ | ⟨hs, -⟩
    · rw [hz]
      exact ⟨rfl, rfl⟩
    · cases hb.symm.trans hs
  | case2 b left hb =>
    -- A piece is missing only where the file ends.
    rcases next?_cases h with ⟨hs, -⟩ | ⟨hs, -⟩ <;> cases hb.symm.trans hs
  | case3 b bytes left hb rest complete hp ih =>
    rcases next?_cases h with ⟨hs, -⟩ | ⟨hs, -⟩
    · cases hb.symm.trans hs
    · cases hb.symm.trans hs
      have hi := ih (b.behind_end ▸ h)
      rw [hp] at hi
      refine ⟨?_, hi.2⟩
      rw [List.flatten_cons, hi.1]
      dsimp only [behind]
      rw [slice_append, Nat.add_sub_of_le (Nat.min_le_left _ _)]

/-- Nothing is sent only where nothing was left. -/
theorem remaining_of_pieces (h : b.offset + b.remaining ≤ b.file.length)
    (hp : b.pieces.1 ≠ []) : 0 < b.remaining := by
  rcases next?_cases h with ⟨hs, -⟩ | ⟨-, hr⟩
  · unfold pieces at hp
    split at hp
    · exact absurd rfl hp
    all_goals (rename_i hb; cases hb.symm.trans hs)
  · exact hr

/-- Every piece has the size of a chunk but the last, which has what is left for it. -/
theorem pieces_sizes (h : b.offset + b.remaining ≤ b.file.length) :
    (∀ piece ∈ b.pieces.1, 0 < piece.length ∧ piece.length ≤ b.chunkSize) ∧
      ∀ piece ∈ b.pieces.1.dropLast, piece.length = b.chunkSize := by
  fun_induction pieces b with
  | case1 => exact ⟨List.forall_mem_nil _, List.forall_mem_nil _⟩
  | case2 => exact ⟨List.forall_mem_nil _, List.forall_mem_nil _⟩
  | case3 b bytes left hb rest complete hp ih =>
    rcases next?_cases h with ⟨hs, -⟩ | ⟨hs, hr⟩
    · cases hb.symm.trans hs
    · cases hb.symm.trans hs
      have hin : b.behind.offset + b.behind.remaining ≤ b.behind.file.length := b.behind_end ▸ h
      obtain ⟨hall, hfull⟩ := ih hin
      rw [hp] at hall hfull
      have hc := b.chunkSize_pos
      have hlen : (b.file.slice b.offset (min b.remaining b.chunkSize)).length =
          min b.remaining b.chunkSize := length_slice (by omega)
      refine ⟨List.forall_mem_cons.2 ⟨by omega, hall⟩, ?_⟩
      cases hrest : rest with
      | nil => exact List.forall_mem_nil _
      | cons piece rest' =>
        -- More follows, so there was more than a chunk to send.
        have hmore : 0 < b.behind.remaining :=
          remaining_of_pieces hin (by rw [hp, hrest]; exact List.cons_ne_nil _ _)
        have hchunk : min b.remaining b.chunkSize = b.chunkSize := by
          dsimp only [behind] at hmore
          omega
        rw [List.dropLast_cons_of_ne_nil (List.cons_ne_nil _ _), ← hrest]
        exact List.forall_mem_cons.2 ⟨hlen.trans hchunk, hfull⟩

section Short

theorem stream_of_large (h : Buffer.maxStore < min b.remaining b.chunkSize) :
    b.stream = ([], .overflow) := by
  rw [stream, if_pos h]

theorem send_of_large (h : Buffer.maxStore < b.chunkSize) : b.send = ([], .overflow) :=
  if_pos h

/-- Where there is memory for the first piece, there is memory for all of them. -/
theorem stream_eq_pieces (h : min b.remaining b.chunkSize ≤ Buffer.maxStore) :
    b.stream = (b.pieces.1, .ofComplete b.pieces.2) := by
  fun_induction pieces b with
  | case1 b hb =>
    rw [stream, if_neg (Nat.not_lt.2 h)]
    split
    · rfl
    all_goals rename_i hs; cases hb.symm.trans hs
  | case2 b left hb =>
    rw [stream, if_neg (Nat.not_lt.2 h)]
    split
    · rename_i hs
      cases hb.symm.trans hs
    · rfl
    · rename_i hs
      cases hb.symm.trans hs
  | case3 b bytes left hb rest complete hp ih =>
    have hleft : left.remaining ≤ b.remaining ∧ left.chunkSize = b.chunkSize := by
      obtain ⟨hs, -⟩ | ⟨hs, -⟩ | ⟨_, hs, -⟩ := b.next?_spec
      all_goals cases hb.symm.trans hs
      exact ⟨Nat.sub_le _ _, rfl⟩
    have hi := ih (by omega)
    rw [hp] at hi
    rw [stream, if_neg (Nat.not_lt.2 h)]
    split
    · rename_i hs
      cases hb.symm.trans hs
    · rename_i hs
      cases hb.symm.trans hs
    · rename_i hs
      cases hb.symm.trans hs
      rw [hi]

/-- Written all at once or taken one by one, the pieces are the same. -/
theorem written_eq_pieces (b : FileBody) :
    written b.file b.chunkSize b.chunkSize_pos b.offset b.remaining =
      (b.pieces.1, .ofComplete b.pieces.2) := by
  fun_induction pieces b with
  | case1 b hb =>
    obtain ⟨-, hz⟩ | ⟨hs, -⟩ | ⟨_, hs, -⟩ := b.next?_spec
    · rw [written, dif_neg (Nat.not_lt.2 (Nat.le_of_eq hz))]
      rfl
    all_goals cases hb.symm.trans hs
  | case2 b left hb =>
    obtain ⟨hs, -⟩ | ⟨-, hr, hread⟩ | ⟨_, hs, -⟩ := b.next?_spec
    · cases hb.symm.trans hs
    · rw [written, dif_pos hr]
      simp only [hread]
      rfl
    · cases hb.symm.trans hs
  | case3 b bytes left hb rest complete hp ih =>
    obtain ⟨hs, -⟩ | ⟨hs, -⟩ | ⟨_, hs, hr, hread⟩ := b.next?_spec
    · cases hb.symm.trans hs
    · cases hb.symm.trans hs
    · cases hb.symm.trans hs
      rw [hp] at ih
      rw [written, dif_pos hr]
      simp only [hread]
      exact congrArg (fun sent : List Bytes × Ending => (bytes :: sent.1, sent.2)) ih

theorem send_eq_pieces (h : b.chunkSize ≤ Buffer.maxStore) :
    b.send = (b.pieces.1, .ofComplete b.pieces.2) := by
  rw [send, if_neg (Nat.not_lt.2 h), written_eq_pieces]

/-- Of a file that is long enough all or nothing is sent at once. -/
theorem send_complete (h : b.offset + b.remaining ≤ b.file.length) :
    b.send = (b.pieces.1, .whole) ∨ b.send = ([], .overflow) := by
  by_cases hc : b.chunkSize ≤ Buffer.maxStore
  · rw [send_eq_pieces hc, (pieces_complete h).2]
    exact .inl rfl
  · exact .inr (send_of_large (Nat.lt_of_not_le hc))

/-- Whole chunks of a file, one behind the other. -/
def wholeChunks (file : Bytes) (chunk offset count : Nat) : List Bytes :=
  (List.range count).map fun k => file.slice (offset + k * chunk) chunk

theorem wholeChunks_succ (file : Bytes) (chunk offset count : Nat) :
    wholeChunks file chunk offset (count + 1) =
      file.slice offset chunk :: wholeChunks file chunk (offset + chunk) count := by
  rw [wholeChunks, List.range_succ_eq_map, List.map_cons, List.map_map, Nat.zero_mul, Nat.add_zero,
    wholeChunks]
  congr 1
  refine List.map_congr_left fun k _ => ?_
  rw [Function.comp_apply, Nat.succ_mul, Nat.add_comm (k * chunk), Nat.add_assoc]

theorem flatten_wholeChunks (file : Bytes) (chunk offset count : Nat) :
    (wholeChunks file chunk offset count).flatten = file.slice offset (count * chunk) := by
  induction count generalizing offset with
  | zero =>
    rw [Nat.zero_mul, Bytes.slice, List.take_zero]
    rfl
  | succ count ih =>
    rw [wholeChunks_succ, List.flatten_cons, ih, slice_append, Nat.succ_mul, Nat.add_comm chunk]

/-- As many whole chunks as the file has from a place on are whole. -/
theorem length_wholeChunks {file : Bytes} {chunk offset : Nat} (hc : 0 < chunk) :
    ∀ piece ∈ wholeChunks file chunk offset ((file.length - offset) / chunk),
      piece.length = chunk := by
  intro piece hp
  obtain ⟨k, hk, rfl⟩ := List.mem_map.1 hp
  have hend : (k + 1) * chunk ≤ file.length - offset :=
    Nat.le_trans (Nat.mul_le_mul_right chunk (List.mem_range.1 hk)) (Nat.div_mul_le_self _ _)
  rw [Nat.succ_mul] at hend
  exact length_slice (by omega)

/-- Of a file that is too short the whole chunks are sent that it has. -/
theorem pieces_short (hr : 0 < b.remaining) (h : b.file.length < b.offset + b.remaining) :
    b.pieces =
      (wholeChunks b.file b.chunkSize b.offset ((b.file.length - b.offset) / b.chunkSize),
        false) := by
  have hc := b.chunkSize_pos
  fun_induction pieces b with
  | case1 b hb =>
    obtain ⟨-, hz⟩ | ⟨hs, -⟩ | ⟨_, hs, -⟩ := b.next?_spec
    · exact absurd hz (Nat.ne_of_gt hr)
    all_goals cases hb.symm.trans hs
  | case2 b left hb =>
    obtain ⟨hs, -⟩ | ⟨-, -, hread⟩ | ⟨_, hs, -⟩ := b.next?_spec
    · cases hb.symm.trans hs
    · -- The next piece would reach beyond the end of the file.
      have hend : b.file.length < b.offset + min b.remaining b.chunkSize := by
        refine Nat.lt_of_not_le fun hle => ?_
        cases hread.symm.trans (read?_complete hle)
      rw [Nat.div_eq_of_lt (by omega)]
      rfl
    · cases hb.symm.trans hs
  | case3 b bytes left hb rest complete hp ih =>
    obtain ⟨hs, -⟩ | ⟨hs, -⟩ | ⟨_, hs, -, hread⟩ := b.next?_spec
    · cases hb.symm.trans hs
    · cases hb.symm.trans hs
    · cases hb.symm.trans hs
      obtain ⟨rfl, hin⟩ := read?_eq_some (by omega) hread
      have hmin : min b.remaining b.chunkSize = b.chunkSize := by omega
      have hi := ih (by simp only [behind]; omega) (b.behind_end ▸ h) hc
      have hcount : (b.file.length - b.offset) / b.chunkSize =
          (b.file.length - (b.offset + b.chunkSize)) / b.chunkSize + 1 := by
        rw [← Nat.sub_sub, ← Nat.add_div_right _ hc, Nat.sub_add_cancel (by omega)]
      rw [hp] at hi
      simp only [behind, hmin, Prod.mk.injEq] at hi
      rw [hcount, wholeChunks_succ, hi.1, hi.2, hmin]

end Short

/-- The file has every byte of a part. -/
def Covers (file : Bytes) (offset size : Nat) : Prop :=
  ∀ i, offset ≤ i → i < offset + size → i < file.length

theorem covers_iff {file : Bytes} {offset size : Nat} :
    Covers file offset size ↔ size = 0 ∨ offset + size ≤ file.length := by
  constructor
  · intro h
    by_cases hz : size = 0
    · exact .inl hz
    · have hlast := h (offset + size - 1) (by omega) (by omega)
      exact .inr (by omega)
  · rintro (rfl | h) i hl hu <;> omega

/-- A part that the file has is sent from its first byte to its last. -/
theorem pieces_covered (h : Covers b.file b.offset b.remaining) :
    b.pieces.1.flatten = b.file.slice b.offset b.remaining ∧ b.pieces.2 = true := by
  obtain hz | hin := covers_iff.1 h
  · have hnone : b.pieces = ([], true) := by
      obtain ⟨hs, -⟩ | ⟨-, hr, -⟩ | ⟨_, -, hr, -⟩ := b.next?_spec
      · unfold pieces
        split
        · rfl
        all_goals rename_i hb; cases hb.symm.trans hs
      all_goals exact absurd hz (Nat.ne_of_gt hr)
    rw [hnone, hz, Bytes.slice, List.take_zero]
    exact ⟨rfl, rfl⟩
  · exact pieces_complete hin

theorem pieces_uncovered (h : ¬ Covers b.file b.offset b.remaining) :
    b.pieces =
      (wholeChunks b.file b.chunkSize b.offset ((b.file.length - b.offset) / b.chunkSize),
        false) := by
  rw [covers_iff, not_or] at h
  exact pieces_short (Nat.pos_of_ne_zero h.1) (Nat.lt_of_not_le h.2)

/-- Never more is sent than was left. -/
theorem length_flatten_pieces_le (b : FileBody) : b.pieces.1.flatten.length ≤ b.remaining := by
  by_cases h : Covers b.file b.offset b.remaining
  · rw [(pieces_covered h).1]
    exact List.length_take_le _ _
  · have hchunks := Nat.div_mul_le_self (b.file.length - b.offset) b.chunkSize
    rw [pieces_uncovered h, flatten_wholeChunks]
    rw [covers_iff, not_or] at h
    refine Nat.le_trans (List.length_take_le _ _) (Nat.le_trans hchunks ?_)
    omega

/-- The two ways of sending a part of a file agree where a store can have a full chunk, or not even
the first piece. Beyond that, nothing is sent all at once, for the store of a full chunk is taken in
any case. Piece by piece, never more bytes are sent than the part has, whatever the file holds while
it is read. A file that has every byte of the part is sent from its first byte to its last. Of any
other file the whole chunks are sent that it still has from the first byte on, and then the lack of
the rest is told. -/
theorem streams_agree (content : Bytes) (offset size chunkSize : Nat) :
    let body := make content offset size chunkSize
    let chunk := max chunkSize 1
    (body.send = body.stream ↔ chunk ≤ Buffer.maxStore ∨ Buffer.maxStore < size) ∧
    (Buffer.maxStore < chunk → body.send = ([], .overflow)) ∧
    (Buffer.maxStore < min size chunk → body.stream = ([], .overflow)) ∧
    (min size chunk ≤ Buffer.maxStore →
      body.stream.1.flatten.length ≤ size ∧
      (Covers content offset size →
        body.stream.2 = .whole ∧ body.stream.1.flatten = content.slice offset size) ∧
      (¬ Covers content offset size →
        body.stream =
          (wholeChunks content chunk offset ((content.length - offset) / chunk), .short) ∧
        ∀ piece ∈ body.stream.1, piece.length = chunk)) := by
  intro body chunk
  refine ⟨⟨fun h => ?_, fun h => ?_⟩, send_of_large (b := body),
    stream_of_large (b := body), fun h => ?_⟩
  · -- Only the part that is sent all at once fails for a chunk that it does not fill.
    refine Decidable.or_iff_not_imp_left.2 fun hc => Nat.lt_of_not_le fun hs => ?_
    have hfirst : min body.remaining body.chunkSize ≤ Buffer.maxStore :=
      Nat.le_trans (Nat.min_le_left _ _) hs
    rw [send_of_large (Nat.lt_of_not_le hc), stream_eq_pieces hfirst] at h
    exact Ending.ofComplete_ne_overflow _ (congrArg Prod.snd h).symm
  · by_cases hc : chunk ≤ Buffer.maxStore
    · rw [send_eq_pieces hc, stream_eq_pieces (Nat.le_trans (Nat.min_le_right _ _) hc)]
    · have hs : Buffer.maxStore < size := h.resolve_left hc
      have hl : Buffer.maxStore < chunk := Nat.lt_of_not_le hc
      rw [send_of_large hl, stream_of_large (Nat.lt_min.2 ⟨hs, hl⟩)]
  · rw [stream_eq_pieces h]
    refine ⟨length_flatten_pieces_le body, fun hcovers => ?_, fun hcovers => ?_⟩
    · obtain ⟨hjoined, hcomplete⟩ := pieces_covered (b := body) hcovers
      exact ⟨congrArg Ending.ofComplete hcomplete, hjoined⟩
    · rw [pieces_uncovered (b := body) hcovers]
      exact ⟨rfl, length_wholeChunks body.chunkSize_pos⟩

/-- A file that ends within the part, one that goes on behind it, and a chunk that fits no store. -/
theorem streams_agree_truncated :
    let content := Bytes.ofText "hello"
    let body := make content 1 9 2
    ¬ Covers content 1 9 ∧ Covers content 1 3 ∧
      body.stream = ([Bytes.ofText "el", Bytes.ofText "lo"], .short) ∧
      body.send = ([Bytes.ofText "el", Bytes.ofText "lo"], .short) ∧
      (make content 1 3 2).stream.1.flatten = Bytes.ofText "ell" ∧
      (make content 1 3 (2 ^ 63)).send = ([], .overflow) ∧
      (make content 1 (2 ^ 63) (2 ^ 63)).stream = ([], .overflow) := by
  intro content body
  have hshort : ¬ Covers content 1 9 := by
    rw [covers_iff]
    decide +kernel
  have hlong : Covers content 1 3 := covers_iff.2 (by decide +kernel)
  obtain ⟨hsend, -, -, hpieces⟩ := streams_agree content 1 9 2
  have hchunks : wholeChunks content (max 2 1) 1 ((content.length - 1) / max 2 1) =
      [Bytes.ofText "el", Bytes.ofText "lo"] := by
    decide +kernel
  have hstream : body.stream = ([Bytes.ofText "el", Bytes.ofText "lo"], .short) :=
    ((hpieces (by decide)).2.2 hshort).1.trans (by rw [hchunks])
  have hsame : body.send = body.stream := hsend.2 (.inl (by decide))
  obtain ⟨-, -, -, hwhole⟩ := streams_agree content 1 3 2
  obtain ⟨-, hlarge, -⟩ := streams_agree content 1 3 (2 ^ 63)
  obtain ⟨-, -, hlarge', -⟩ := streams_agree content 1 (2 ^ 63) (2 ^ 63)
  exact ⟨hshort, hlong, hstream, hsame.trans hstream, ((hwhole (by decide)).2.1 hlong).2,
    hlarge (by decide), hlarge' (by decide)⟩

/-- Piece by piece ten bytes are sent, all at once none of them. -/
theorem streams_differ :
    let content := Bytes.ofText "0123456789"
    let body := make content 0 10 (2 ^ 63)
    body.send = ([], .overflow) ∧ body.stream.2 = .whole ∧ body.stream.1.flatten = content := by
  intro content body
  have hin : body.offset + body.remaining ≤ body.file.length := by decide +kernel
  obtain ⟨hjoined, hcomplete⟩ := pieces_complete hin
  rw [stream_eq_pieces (by decide), hcomplete, hjoined]
  exact ⟨send_of_large (by decide), rfl, by decide +kernel⟩

end FileBody

end OriginServer.Site
