import Mathlib.Data.List.Induction
import OriginServer.Proofs.Http.Chunked
import OriginServer.Proofs.Http.TransferCoding

namespace OriginServer

theorem Ascii.hexValue_eq_zero {b : UInt8} (hb : isHexDigit b = true) :
    (hexValue? b).getD 0 = 0 ↔ b = 0x30 := by
  have hsub : (b - 0x30).toNat = 0 ↔ b = 0x30 := by
    rw [← UInt8.toNat_zero, UInt8.toNat_inj]
    grind
  simp only [isHexDigit, hexValue?, isDigit] at hb ⊢
  grind

theorem Numeral.ofHex_concat (digits : Bytes) (b : UInt8) :
    ofHex (digits ++ [b]) = ofHex digits * 16 + (Ascii.hexValue? b).getD 0 := by
  simp only [ofHex, List.foldl_append, List.foldl_cons, List.foldl_nil]

/-- Every number has hexadecimal digits. -/
theorem Numeral.exists_ofHex (n : Nat) :
    ∃ digits, digits ≠ [] ∧ (∀ b ∈ digits, Ascii.isHexDigit b = true) ∧ ofHex digits = n := by
  have hdigit : ∀ d < 16, ∃ b, Ascii.isHexDigit b = true ∧ (Ascii.hexValue? b).getD 0 = d := by
    intro d hd
    have htable : ∀ d < 16, Ascii.hexValue? ((Bytes.ofText "0123456789abcdef").getD d 0) = some d :=
      by decide
    exact ⟨_, by rw [Ascii.isHexDigit, htable d hd]; rfl, by rw [htable d hd]; rfl⟩
  induction n using Nat.strongRecOn with
  | ind n ih =>
    obtain ⟨b, hb, hv⟩ := hdigit (n % 16) (Nat.mod_lt _ (by decide))
    rcases Nat.lt_or_ge n 16 with hn | hn
    · refine ⟨[b], by simp, List.forall_mem_singleton.2 hb, ?_⟩
      rw [← List.nil_append [b], ofHex_concat, hv, Nat.mod_eq_of_lt hn]
      exact Nat.zero_add n
    · obtain ⟨digits, -, hd, hq⟩ := ih (n / 16) (by omega)
      refine ⟨digits ++ [b], by simp,
        List.forall_mem_append.2 ⟨hd, List.forall_mem_singleton.2 hb⟩, ?_⟩
      rw [ofHex_concat, hv, hq]
      omega

/-- Only zeros stand for zero. -/
theorem Numeral.ofHex_eq_zero {digits : Bytes} (hd : ∀ b ∈ digits, Ascii.isHexDigit b = true) :
    ofHex digits = 0 ↔ ∀ b ∈ digits, b = 0x30 := by
  induction digits using List.reverseRecOn with
  | nil => simp [ofHex]
  | append_singleton digits b ih =>
    obtain ⟨hd, hb⟩ := List.forall_mem_append.1 hd
    rw [ofHex_concat, List.forall_mem_append, ← ih hd, List.forall_mem_singleton,
      ← Ascii.hexValue_eq_zero (hb b (List.mem_singleton_self b))]
    omega

namespace Http.Chunked

open Ascii Scanner TransferCoding

section Grammar

/-- Optional white space. -/
def Blank (b : Bytes) : Prop := ∀ x ∈ b, isBlank x = true

/-- A token behind white space, alone or with an equals sign and a value. -/
inductive Extension : Bytes → Prop
  | bare {before name : Bytes} (hb : Blank before) (hn : isToken name = true) :
    Extension (before ++ name)
  | valued {before name left right v : Bytes} (hb : Blank before) (hn : isToken name = true)
    (hl : Blank left) (hr : Blank right) (hv : ParameterValue v) :
    Extension (before ++ (name ++ (left ++ equals :: (right ++ v))))

/-- White space, and any number of extensions, each between its semicolon and white space. -/
inductive Extensions : Bytes → Prop
  | nil {blank : Bytes} (hb : Blank blank) : Extensions blank
  | cons {blank e rest : Bytes} (hb : Blank blank) (he : Extension e) (h : Extensions rest) :
    Extensions (blank ++ semicolon :: (e ++ rest))

/-- A chunk: its size in hexadecimal digits, its extensions and its data. -/
structure Chunk where
  digits : Bytes
  ext : Bytes
  data : Bytes
  digits_ne : digits ≠ []
  hex : ∀ b ∈ digits, isHexDigit b = true
  sized : Numeral.ofHex digits = data.length
  nonempty : 0 < data.length
  short : data.length < Numeral.wordLimit
  extensions : Extensions ext

/-- The line that ends a body: zeros and extensions. -/
structure LastLine where
  digits : Bytes
  ext : Bytes
  digits_ne : digits ≠ []
  zeros : ∀ b ∈ digits, b = 0x30
  extensions : Extensions ext

/-- The line of a chunk. -/
def Chunk.line (k : Chunk) : Bytes := k.digits ++ (k.ext ++ [cr, lf])

/-- A chunk as it is sent. -/
def Chunk.bytes (k : Chunk) : Bytes := k.line ++ (k.data ++ [cr, lf])

def LastLine.bytes (l : LastLine) : Bytes := l.digits ++ (l.ext ++ [cr, lf])

/-- A whole body. -/
def body (ks : List Chunk) (l : LastLine) : Bytes := ks.flatMap Chunk.bytes ++ l.bytes

/-- Where the data of the chunks lies in a body that begins at `start`. -/
def places (start : Nat) : List Chunk → List Span
  | [] => []
  | k :: ks => ⟨start + k.line.length, k.data.length⟩ :: places (start + k.bytes.length) ks

/-- Data below the limit goes into a chunk, with any extensions. -/
theorem exists_chunk {ext data : Bytes} (he : Extensions ext) (hd : 0 < data.length)
    (hw : data.length < Numeral.wordLimit) : ∃ k : Chunk, k.ext = ext ∧ k.data = data := by
  obtain ⟨digits, hn, hx, hv⟩ := Numeral.exists_ofHex data.length
  exact ⟨⟨digits, ext, data, hn, hx, hv, hd, hw, he⟩, rfl, rfl⟩

end Grammar

section Blanks

theorem Blank.append {a b : Bytes} (ha : Blank a) (hb : Blank b) : Blank (a ++ b) :=
  List.forall_mem_append.2 ⟨ha, hb⟩

theorem blank_iff {b : Bytes} : b.all isBlank = true ↔ Blank b := List.all_eq_true

/-- White space in front belongs to the extensions. -/
theorem Extensions.prepend {blank ext : Bytes} (hb : Blank blank) (h : Extensions ext) :
    Extensions (blank ++ ext) := by
  cases h with
  | nil hb' => exact .nil (hb.append hb')
  | cons hb' he h =>
    rw [← List.append_assoc]
    exact .cons (hb.append hb') he h

end Blanks

section Heads

/-- A byte behind an extension and its white space: it goes on with neither. -/
structure Stop (b : UInt8) : Prop where
  blank : isBlank b = false
  token : isTokenByte b = false
  equals : b ≠ equals

theorem stop_semicolon : Stop semicolon := ⟨by decide, by decide, by decide⟩

theorem stop_cr : Stop cr := ⟨by decide, by decide, by decide⟩

/-- Behind the white space that extensions begin with stands a semicolon, or the line ends. -/
theorem Extensions.head {ext : Bytes} (h : Extensions ext) (rest : Bytes) :
    ∃ blank b tail, Blank blank ∧ Stop b ∧ ext ++ cr :: rest = blank ++ b :: tail := by
  cases h with
  | nil hb => exact ⟨_, cr, rest, hb, stop_cr, rfl⟩
  | cons hb _ _ => exact ⟨_, semicolon, _, hb, stop_semicolon, List.append_assoc _ _ _⟩

theorem isTokenByte_of_hex {b : UInt8} (h : isHexDigit b = true) : isTokenByte b = true := by
  simp only [isHexDigit, hexValue?, isDigit] at h
  simp only [isTokenByte, isAlphanum, isDigit, isUpper, isLower]
  grind

/-- White space ends a token, and so does what stands behind it. -/
theorem Blank.ends {blank : Bytes} (hb : Blank blank) {b : UInt8} (ht : isTokenByte b = false)
    (tail : Bytes) : ∃ x rest, blank ++ b :: tail = x :: rest ∧ isTokenByte x = false := by
  cases blank with
  | nil => exact ⟨b, tail, rfl, ht⟩
  | cons x blank =>
    have hx : isBlank x = true := hb x (List.mem_cons_self ..)
    refine ⟨x, _, rfl, ?_⟩
    cases ht : isTokenByte x with
    | false => rfl
    | true => exact absurd hx (by simp [isBlank_of_token ht])

end Heads

section Complete

theorem run_blank {blank : Bytes} (hb : Blank blank) {x : UInt8} (hx : isBlank x = false)
    (pos : Nat) (rest : Bytes) :
    (run isBlank ⟨pos, blank ++ x :: rest⟩ : Scan ParseError Bytes) =
      .done blank ⟨pos + blank.length, x :: rest⟩ :=
  run_of_append (blank_iff.2 hb) hx

theorem word_complete {name : Bytes} (hn : isToken name = true) {x : UInt8}
    (hx : isTokenByte x = false) (pos : Nat) (rest : Bytes) :
    word ⟨pos, name ++ x :: rest⟩ = .done () ⟨pos + name.length, x :: rest⟩ := by
  obtain ⟨hne, ht⟩ := isToken_iff.1 hn
  rw [word, bind_of_done (run_of_append (List.all_eq_true.2 ht) hx), ensure, if_pos]
  simpa using hne

theorem extensionValue_complete {right v : Bytes} (hr : Blank right) (hv : ParameterValue v)
    {x : UInt8} (hx : isTokenByte x = false) (pos : Nat) (rest : Bytes) :
    extensionValue ⟨pos, right ++ (v ++ x :: rest)⟩ =
      .done () ⟨pos + (right.length + v.length), x :: rest⟩ := by
  cases hv with
  | token hv =>
    obtain ⟨y, v, rfl, hy⟩ := isToken_cons hv
    have hq : y ≠ dquote := by
      rintro rfl
      exact absurd hy (by decide)
    rw [extensionValue, List.cons_append, bind_of_done (run_blank hr (isBlank_of_token hy) pos _),
      bind_of_done (show peek _ = .done y _ from rfl), if_neg hq, ← List.cons_append,
      word_complete hv hx, Nat.add_assoc]
  | @quoted body hb =>
    rw [extensionValue, List.cons_append, bind_of_done (run_blank hr (by decide) pos _),
      bind_of_done (show peek _ = .done dquote _ from rfl), if_pos rfl, List.append_assoc,
      List.singleton_append]
    simp only [quotedString, if_true, quotedTail_complete hb, List.length_cons,
      List.length_append, List.length_nil]
    congr 2
    omega

/-- White space in front is passed over. -/
theorem run_bind_skip {α : Type} {blank : Bytes} (hb : Blank blank) (q : Scanner ParseError α)
    (pos : Nat) (rest : Bytes) :
    (run isBlank >>= fun _ => q) ⟨pos, blank ++ rest⟩ =
      (run isBlank >>= fun _ => q) ⟨pos + blank.length, rest⟩ := by
  change Scanner.bind _ _ _ = Scanner.bind _ _ _
  simp only [Scanner.bind, run, List.dropWhile_append_of_pos hb, List.takeWhile_append_of_pos hb,
    List.length_append, Nat.add_assoc]
  cases rest.dropWhile isBlank <;> rfl

theorem extensions_eq (c : Cursor) :
    extensions c =
      match extensionStep c with
      | .done true next => extensions next
      | .done false next => .done () next
      | .more => .more
      | .fail cause => .fail cause := by
  rw [extensions]
  split <;> rename_i h <;> rw [h]

theorem extensions_skip {blank : Bytes} (hb : Blank blank) (pos : Nat) (rest : Bytes) :
    extensions ⟨pos, blank ++ rest⟩ = extensions ⟨pos + blank.length, rest⟩ := by
  have hs : separator ⟨pos, blank ++ rest⟩ = separator ⟨pos + blank.length, rest⟩ :=
    run_bind_skip hb _ pos rest
  have he : extensionStep ⟨pos, blank ++ rest⟩ = extensionStep ⟨pos + blank.length, rest⟩ := by
    change Scanner.bind separator _ _ = Scanner.bind separator _ _
    simp only [Scanner.bind, hs]
  rw [extensions_eq, extensions_eq, he]

/-- A lone name is read with the white space behind it. -/
theorem extension_bare {before name blank : Bytes} (hb : Blank before)
    (hn : isToken name = true) (ha : Blank blank) {b : UInt8} (hs : Stop b) (pos : Nat)
    (tail : Bytes) :
    extension ⟨pos, before ++ (name ++ (blank ++ b :: tail))⟩ =
      .done () ⟨pos + (before.length + name.length) + blank.length, b :: tail⟩ := by
  obtain ⟨x, rest, hx, hxt⟩ := ha.ends hs.token tail
  obtain ⟨y, name, rfl, hy⟩ := isToken_cons hn
  rw [extension, List.cons_append, bind_of_done (run_blank hb (isBlank_of_token hy) pos _),
    ← List.cons_append, hx, bind_of_done (word_complete hn hxt _ _), ← hx,
    bind_of_done (run_blank ha hs.blank _ _), bind_of_done (show peek _ = .done b _ from rfl),
    if_neg hs.equals, Nat.add_assoc pos]
  rfl

/-- A name with a value is read up to the end of the value. -/
theorem extension_valued {before name left right v : Bytes} (hb : Blank before)
    (hn : isToken name = true) (hl : Blank left) (hr : Blank right) (hv : ParameterValue v)
    {x : UInt8} (hx : isTokenByte x = false) (pos : Nat) (rest : Bytes) :
    extension ⟨pos, before ++ (name ++ (left ++ equals :: (right ++ (v ++ x :: rest))))⟩ =
      .done () ⟨pos + (before ++ (name ++ (left ++ equals :: (right ++ v)))).length,
        x :: rest⟩ := by
  obtain ⟨y, name, rfl, hy⟩ := isToken_cons hn
  have heq : isTokenByte equals = false := by decide
  obtain ⟨z, r, hz, hzt⟩ := hl.ends heq (right ++ (v ++ x :: rest))
  rw [extension, List.cons_append, bind_of_done (run_blank hb (isBlank_of_token hy) pos _),
    ← List.cons_append, hz, bind_of_done (word_complete hn hzt _ _), ← hz,
    bind_of_done (run_blank hl (by decide) _ _),
    bind_of_done (show peek _ = .done equals _ from rfl), if_pos rfl,
    bind_of_done (show byte equals _ _ = .done () _ from rfl),
    extensionValue_complete hr hv hx]
  simp only [List.length_append, List.length_cons]
  congr 2
  omega

/-- An extension is read whole, and it makes no difference whether the white space behind it is
read with it. -/
theorem extension_complete {e : Bytes} (he : Extension e) {blank : Bytes} (hb : Blank blank)
    {b : UInt8} (hs : Stop b) (pos : Nat) (tail : Bytes) :
    ∃ mid, extension ⟨pos, e ++ (blank ++ b :: tail)⟩ = .done () mid ∧
      extensions mid = extensions ⟨pos + e.length, blank ++ b :: tail⟩ := by
  cases he with
  | bare hbefore hn =>
    rw [List.append_assoc]
    refine ⟨_, extension_bare hbefore hn hb hs pos tail, ?_⟩
    rw [extensions_skip hb, List.length_append]
  | valued hbefore hn hl hr hv =>
    obtain ⟨x, rest, hx, hxt⟩ := hb.ends hs.token tail
    simp only [List.append_assoc, List.cons_append]
    rw [hx]
    exact ⟨_, extension_valued hbefore hn hl hr hv hxt pos rest, rfl⟩

theorem extensions_complete {ext : Bytes} (h : Extensions ext) (pos : Nat) (rest : Bytes) :
    extensions ⟨pos, ext ++ cr :: rest⟩ = .done () ⟨pos + ext.length, cr :: rest⟩ := by
  induction h generalizing pos with
  | nil hb =>
    rw [extensions_skip hb]
    exact extensions_of_false rfl
  | @cons blank e tail hb he h ih =>
    obtain ⟨white, b, after, hw, hs, hr⟩ := h.head rest
    obtain ⟨mid, hm, hsame⟩ := extension_complete he hw hs (pos + blank.length + 1) after
    have hstep : extensionStep ⟨pos + blank.length, semicolon :: (e ++ (white ++ b :: after))⟩ =
        .done true mid := by
      have hsep : separator ⟨pos + blank.length, semicolon :: (e ++ (white ++ b :: after))⟩ =
          .done true ⟨pos + blank.length + 1, e ++ (white ++ b :: after)⟩ := rfl
      rw [extensionStep, bind_of_done hsep, if_pos rfl, bind_of_done hm]
      rfl
    rw [List.append_assoc, extensions_skip hb, List.cons_append, List.append_assoc, hr,
      extensions_of_true hstep, hsame, ← hr, ih]
    simp only [List.length_append, List.length_cons]
    congr 2
    omega

theorem size_complete {digits : Bytes} (hn : digits ≠ [])
    (hd : ∀ b ∈ digits, isHexDigit b = true) (hw : Numeral.ofHex digits < Numeral.wordLimit)
    {x : UInt8} (hx : isHexDigit x = false) (pos : Nat) (rest : Bytes) :
    size ⟨pos, digits ++ x :: rest⟩ =
      .done (Numeral.ofHex digits) ⟨pos + digits.length, x :: rest⟩ := by
  have hrun : (run isHexDigit ⟨pos, digits ++ x :: rest⟩ : Scan ParseError Bytes) =
      .done digits ⟨pos + digits.length, x :: rest⟩ := run_of_append (List.all_eq_true.2 hd) hx
  have hread : (fun c : Cursor =>
      if Numeral.wordLimit ≤ Numeral.ofHex (c.rest.takeWhile isHexDigit) then
        Scan.fail ParseError.invalidChunk
      else run isHexDigit c) ⟨pos, digits ++ x :: rest⟩ =
        .done digits ⟨pos + digits.length, x :: rest⟩ := by
    simp only [takeWhile_of_run hrun, if_neg (Nat.not_le.2 hw), hrun]
  refine (bind_of_done hread).trans ?_
  rw [show (!digits.isEmpty) = true by simpa using hn]
  rfl

/-- A chunk line is read whole. -/
theorem line_complete {digits ext : Bytes} (hn : digits ≠ [])
    (hd : ∀ b ∈ digits, isHexDigit b = true) (hw : Numeral.ofHex digits < Numeral.wordLimit)
    (he : Extensions ext) :
    Reads line (digits ++ (ext ++ [cr, lf])) (Numeral.ofHex digits) := by
  intro pos tail
  obtain ⟨blank, b, after, hb, hs, hr⟩ := he.head (lf :: tail)
  obtain ⟨x, rest, hx, hxt⟩ := hb.ends hs.token after
  have hhex : isHexDigit x = false := by
    cases h : isHexDigit x with
    | false => rfl
    | true => exact absurd (isTokenByte_of_hex h) (by simp [hxt])
  have hall : digits ++ (ext ++ [cr, lf]) ++ tail = digits ++ (ext ++ cr :: lf :: tail) := by simp
  rw [hall, hr, hx, line, bind_of_done (size_complete hn hd hw hhex pos rest), ← hx, ← hr,
    bind_of_done (extensions_complete he _ _)]
  refine (bind_of_done (reads_lineEnd _ _ tail)).trans ?_
  simp only [List.length_append, ← Nat.add_assoc]
  rfl

theorem LastLine.reads (l : LastLine) : Reads line l.bytes 0 := by
  have hd : ∀ b ∈ l.digits, isHexDigit b = true := fun b hb => by rw [l.zeros b hb]; decide
  have hz : Numeral.ofHex l.digits = 0 := (Numeral.ofHex_eq_zero hd).2 l.zeros
  have h := line_complete l.digits_ne hd (by rw [hz]; decide) l.extensions
  rw [hz] at h
  exact h

theorem Chunk.reads_line (k : Chunk) : Reads Chunked.line k.line k.data.length := by
  have h := line_complete k.digits_ne k.hex (by rw [k.sized]; exact k.short) k.extensions
  rw [k.sized] at h
  exact h

theorem data_complete (base pos : Nat) (data : Bytes)
    (hw : pos - base + data.length < Numeral.wordLimit) (rest : Bytes) :
    Chunked.data base data.length ⟨pos, data ++ cr :: lf :: rest⟩ =
      .done ⟨pos, data.length⟩ ⟨pos + data.length + 2, rest⟩ := by
  have hp : payload base data.length ⟨pos, data ++ cr :: lf :: rest⟩ =
      .done ⟨pos, data.length⟩ ⟨pos + data.length, cr :: lf :: rest⟩ := by
    rw [payload_eq, if_neg (Nat.not_le.2 hw), bind_of_done (take_of_append _ _ _)]
    rfl
  exact (bind_of_done hp).trans rfl

theorem Chunk.reads (k : Chunk) {base pos : Nat} (hb : base ≤ pos)
    (hw : pos - base + k.bytes.length < Numeral.wordLimit) (rest : Bytes) :
    chunk base ⟨pos, k.bytes ++ rest⟩ =
      .done (some ⟨pos + k.line.length, k.data.length⟩) ⟨pos + k.bytes.length, rest⟩ := by
  have hlen : k.bytes.length = k.line.length + (k.data.length + 2) := by simp [bytes]
  have hall : k.bytes ++ rest = k.line ++ (k.data ++ cr :: lf :: rest) := by simp [bytes]
  have hdata := data_complete base (pos + k.line.length) k.data (by omega) rest
  rw [hall, chunk, bind_of_done (k.reads_line _ _), if_neg (Nat.ne_of_gt k.nonempty),
    bind_of_done hdata, hlen, Nat.add_assoc, Nat.add_assoc]
  rfl

theorem chunksFrom_complete (ks : List Chunk) (l : LastLine) {base pos : Nat} (hb : base ≤ pos)
    (hw : pos - base + (body ks l).length < Numeral.wordLimit) (rest : Bytes) :
    chunksFrom base ⟨pos, body ks l ++ rest⟩ =
      .done (places pos ks) ⟨pos + (body ks l).length, rest⟩ := by
  induction ks generalizing pos with
  | nil =>
    refine chunksFrom_none ?_
    rw [chunk, body, List.flatMap_nil, List.nil_append, bind_of_done (l.reads _ _), if_pos rfl]
    rfl
  | cons k ks ih =>
    have hall : body (k :: ks) l = k.bytes ++ body ks l := by simp [body]
    have hlen : (body (k :: ks) l).length = k.bytes.length + (body ks l).length := by
      rw [hall, List.length_append]
    rw [hall, List.append_assoc, chunksFrom_some (k.reads hb (by omega) _),
      ih (by omega) (by omega), ← hall, hlen, Nat.add_assoc]
    rfl

end Complete

section Sound

theorem word_sound {c next : Cursor} (h : word c = .done () next) :
    ∃ name, isToken name = true ∧ c.rest = name ++ next.rest := by
  obtain ⟨name, mid, hm, h⟩ := bind_eq_done h
  obtain ⟨hn, rfl⟩ := ensure_eq_done h
  obtain ⟨hr, -, hall, -⟩ := run_eq_done hm
  exact ⟨name, isToken_iff.2 ⟨by simpa using hn, List.all_eq_true.1 hall⟩, hr⟩

theorem run_blank_sound {c next : Cursor} {blank : Bytes}
    (h : (run isBlank c : Scan ParseError Bytes) = .done blank next) :
    Blank blank ∧ c.rest = blank ++ next.rest :=
  ⟨blank_iff.1 (run_eq_done h).2.2.1, (run_eq_done h).1⟩

theorem extensionValue_sound {c next : Cursor} (h : extensionValue c = .done () next) :
    ∃ right v, Blank right ∧ ParameterValue v ∧ c.rest = right ++ (v ++ next.rest) := by
  obtain ⟨right, m₁, h₁, h⟩ := bind_eq_done h
  obtain ⟨b, m₂, h₂, h⟩ := bind_eq_done h
  obtain ⟨hm, hhead⟩ := peek_eq_done h₂
  obtain ⟨hright, hr⟩ := run_blank_sound h₁
  rw [hm] at h
  split at h
  · rename_i hq
    obtain ⟨tail, ht⟩ := List.head?_eq_some_iff.1 hhead
    simp only [quotedString, ht, if_pos hq] at h
    obtain ⟨body, hb, htail⟩ := quotedTail_sound h
    exact ⟨right, _, hright, .quoted hb, by rw [hr, ht, hq, htail]; simp⟩
  · obtain ⟨v, hv, ht⟩ := word_sound h
    exact ⟨right, v, hright, .token hv, by rw [hr, ht]⟩

theorem extension_sound {c next : Cursor} (h : extension c = .done () next) :
    ∃ e blank, Extension e ∧ Blank blank ∧ c.rest = e ++ (blank ++ next.rest) := by
  obtain ⟨before, m₁, h₁, h⟩ := bind_eq_done h
  obtain ⟨_, m₂, h₂, h⟩ := bind_eq_done h
  obtain ⟨left, m₃, h₃, h⟩ := bind_eq_done h
  obtain ⟨b, m₄, h₄, h⟩ := bind_eq_done h
  rw [(peek_eq_done h₄).1] at h
  obtain ⟨hb, hr₁⟩ := run_blank_sound h₁
  obtain ⟨name, hn, hr₂⟩ := word_sound h₂
  obtain ⟨hl, hr₃⟩ := run_blank_sound h₃
  split at h
  · obtain ⟨_, m₅, h₅, h⟩ := bind_eq_done h
    obtain ⟨right, v, hright, hv, hr₅⟩ := extensionValue_sound h
    refine ⟨_, [], .valued hb hn hl hright hv, List.forall_mem_nil _, ?_⟩
    rw [hr₁, hr₂, hr₃, byte_eq_done h₅, hr₅]
    simp
  · obtain ⟨-, rfl⟩ := pure_eq_done h
    refine ⟨_, left, .bare hb hn, hl, ?_⟩
    rw [hr₁, hr₂, hr₃, List.append_assoc]

theorem separator_sound {c next : Cursor} {found : Bool} (h : separator c = .done found next) :
    ∃ blank, Blank blank ∧
      c.rest = blank ++ if found then semicolon :: next.rest else next.rest := by
  obtain ⟨blank, m₁, h₁, h⟩ := bind_eq_done h
  obtain ⟨b, m₂, h₂, h⟩ := bind_eq_done h
  rw [(peek_eq_done h₂).1] at h
  obtain ⟨hb, hr⟩ := run_blank_sound h₁
  split at h
  · obtain ⟨rfl, rfl⟩ := pure_eq_done h
    exact ⟨blank, hb, hr⟩
  · obtain ⟨_, m₃, h₃, h⟩ := bind_eq_done h
    obtain ⟨rfl, rfl⟩ := pure_eq_done h
    exact ⟨blank, hb, by rw [hr, byte_eq_done h₃]; rfl⟩

theorem extensions_sound {c next : Cursor} (h : extensions c = .done () next) :
    ∃ ext, Extensions ext ∧ c.rest = ext ++ next.rest := by
  fun_induction extensions c with
  | case1 c mid hm ih =>
    obtain ⟨ext, hext, hr⟩ := ih h
    obtain ⟨found, m₁, h₁, hm⟩ := bind_eq_done hm
    obtain ⟨blank, hb, hc⟩ := separator_sound h₁
    split at hm
    · rename_i hf
      obtain ⟨_, m₂, h₂, hm⟩ := bind_eq_done hm
      obtain ⟨-, rfl⟩ := pure_eq_done hm
      obtain ⟨e, after, he, ha, hm₁⟩ := extension_sound h₂
      refine ⟨_, .cons hb he (hext.prepend ha), ?_⟩
      rw [hc, if_pos hf, hm₁, hr]
      simp
    · cases (pure_eq_done hm).1
  | case2 c mid hm =>
    cases h
    obtain ⟨found, m₁, h₁, hm⟩ := bind_eq_done hm
    obtain ⟨blank, hb, hc⟩ := separator_sound h₁
    split at hm
    · obtain ⟨_, m₂, -, hm⟩ := bind_eq_done hm
      cases (pure_eq_done hm).1
    · rename_i hf
      obtain ⟨-, rfl⟩ := pure_eq_done hm
      exact ⟨blank, .nil hb, by rw [hc, if_neg hf]⟩
  | case3 => cases h
  | case4 => cases h

/-- What is read as a chunk line has the form of one, and its size is below the limit. -/
theorem line_sound {c next : Cursor} {n : Nat} (h : line c = .done n next) :
    ∃ digits ext, digits ≠ [] ∧ (∀ b ∈ digits, isHexDigit b = true) ∧
      Numeral.ofHex digits = n ∧ n < Numeral.wordLimit ∧ Extensions ext ∧
      c.rest = digits ++ (ext ++ [cr, lf]) ++ next.rest := by
  obtain ⟨size, m₁, h₁, h⟩ := bind_eq_done h
  obtain ⟨_, m₂, h₂, h⟩ := bind_eq_done h
  obtain ⟨_, m₃, h₃, h⟩ := bind_eq_done h
  obtain ⟨rfl, rfl⟩ := pure_eq_done h
  obtain ⟨digits, m₄, h₄, h₁⟩ := bind_eq_done h₁
  obtain ⟨_, m₅, h₅, h₁⟩ := bind_eq_done h₁
  obtain ⟨rfl, rfl⟩ := pure_eq_done h₁
  obtain ⟨hn, rfl⟩ := ensure_eq_done h₅
  obtain ⟨ext, he, hr₂⟩ := extensions_sound h₂
  split at h₄
  · cases h₄
  · rename_i hw
    obtain ⟨hr₄, -, hall, -⟩ := run_eq_done h₄
    rw [takeWhile_of_run h₄] at hw
    refine ⟨digits, ext, by simpa using hn, List.all_eq_true.1 hall, rfl, Nat.not_le.1 hw, he, ?_⟩
    rw [hr₄, hr₂, lineEnd_eq_done h₃]
    simp

theorem data_sound {base size : Nat} {c next : Cursor} {s : Span}
    (h : data base size c = .done s next) :
    s = ⟨c.pos, size⟩ ∧ ∃ data : Bytes, data.length = size ∧
      c.rest = data ++ [cr, lf] ++ next.rest := by
  obtain ⟨span, m₁, h₁, h⟩ := bind_eq_done h
  obtain ⟨_, m₂, h₂, h⟩ := bind_eq_done h
  obtain ⟨rfl, rfl⟩ := pure_eq_done h
  have hp : payload base size c = .done s m₁ := h₁
  rw [payload_eq] at hp
  split at hp
  · cases hp
  · obtain ⟨data, m₃, h₃, hp⟩ := bind_eq_done hp
    obtain ⟨rfl, rfl⟩ := pure_eq_done hp
    obtain ⟨hl, hr, -⟩ := take_eq_done h₃
    exact ⟨rfl, data, hl, by rw [hr, lineEnd_eq_done h₂]; simp⟩

theorem chunk_sound_none {base : Nat} {c next : Cursor} (h : chunk base c = .done none next) :
    ∃ l : LastLine, c.rest = l.bytes ++ next.rest := by
  obtain ⟨size, m₁, h₁, h⟩ := bind_eq_done h
  obtain ⟨digits, ext, hn, hd, hv, -, he, hr⟩ := line_sound h₁
  split at h
  · rename_i hz
    obtain ⟨-, rfl⟩ := pure_eq_done h
    exact ⟨⟨digits, ext, hn, (Numeral.ofHex_eq_zero hd).1 (hv.trans hz), he⟩, hr⟩
  · obtain ⟨_, m₂, -, h⟩ := bind_eq_done h
    cases (pure_eq_done h).1

theorem chunk_sound_some {base : Nat} {c next : Cursor} {s : Span}
    (h : chunk base c = .done (some s) next) :
    ∃ k : Chunk, c.rest = k.bytes ++ next.rest ∧ s = ⟨c.pos + k.line.length, k.data.length⟩ := by
  obtain ⟨size, m₁, h₁, h⟩ := bind_eq_done h
  obtain ⟨digits, ext, hn, hd, hv, hw, he, hr⟩ := line_sound h₁
  obtain ⟨taken, ht, hpos⟩ := advances_line.forward _ _ _ h₁
  split at h
  · cases (pure_eq_done h).1
  · rename_i hz
    obtain ⟨span, m₂, h₂, h⟩ := bind_eq_done h
    obtain ⟨hs, rfl⟩ := pure_eq_done h
    obtain ⟨rfl, data, rfl, hrest⟩ := data_sound h₂
    cases hs
    have htaken : taken = digits ++ (ext ++ [cr, lf]) := List.append_cancel_right (ht.symm.trans hr)
    refine ⟨⟨digits, ext, data, hn, hd, hv, Nat.pos_of_ne_zero hz, hw, he⟩, ?_, ?_⟩
    · rw [hr, hrest]
      simp [Chunk.bytes, Chunk.line]
    · rw [hpos, htaken]
      rfl

theorem chunksFrom_sound {base : Nat} {c next : Cursor} {spans : List Span}
    (h : chunksFrom base c = .done spans next) :
    ∃ ks l, c.rest = body ks l ++ next.rest ∧ spans = places c.pos ks := by
  fun_induction chunksFrom base c generalizing spans with
  | case1 c mid hm =>
    cases h
    obtain ⟨l, hl⟩ := chunk_sound_none hm
    exact ⟨[], l, hl, rfl⟩
  | case2 c span mid hm spans last hl ih =>
    cases h
    obtain ⟨k, hk, rfl⟩ := chunk_sound_some hm
    obtain ⟨ks, l, hr, rfl⟩ := ih hl
    obtain ⟨taken, ht, hpos⟩ := (advances_chunk base).forward _ _ _ hm
    have htaken : taken = k.bytes := List.append_cancel_right (ht.symm.trans hk)
    refine ⟨k :: ks, l, ?_, ?_⟩
    · rw [hk, hr]
      simp [body]
    · rw [hpos, htaken]
      rfl
  | case3 | case4 | case5 | case6 => cases h

end Sound

/-- The places of the data hold the data. -/
theorem of_places (ks : List Chunk) (front behind : Bytes) :
    (places front.length ks).map (Span.of · (front ++ (ks.flatMap Chunk.bytes ++ behind))) =
      ks.map Chunk.data := by
  induction ks generalizing front with
  | nil => rfl
  | cons k ks ih =>
    have hnext := ih (front ++ k.bytes)
    rw [List.length_append, List.append_assoc] at hnext
    have hfirst : Span.of ⟨front.length + k.line.length, k.data.length⟩
        (front ++ k.line ++ (k.data ++ ([cr, lf] ++ (ks.flatMap Chunk.bytes ++ behind)))) =
          k.data := Span.of_middle (by simp) rfl _
    rw [places, List.map_cons, List.map_cons, List.flatMap_cons, List.append_assoc, hnext]
    refine List.cons_eq_cons.2 ⟨(congrArg _ ?_).trans hfirst, rfl⟩
    simp [Chunk.bytes]

/-- A body is read to completion exactly when it begins with a well-formed one, up to the end of
that one, and the places read are those of the data in order. So a body put together from any
pieces gives back the pieces, whatever its extensions and whatever follows it. -/
theorem chunks_iff_body {input : Bytes} (hw : input.length < Numeral.wordLimit) :
    (∀ spans next, chunks ⟨0, input⟩ = .done spans next ↔
      ∃ ks l, input = body ks l ++ next.rest ∧ next.pos = (body ks l).length ∧
        spans = places 0 ks) ∧
    ∀ ks l rest, input = body ks l ++ rest →
      ∃ spans, chunks ⟨0, input⟩ = .done spans ⟨(body ks l).length, rest⟩ ∧
        spans.map (Span.of · input) = ks.map Chunk.data := by
  have hcomplete : ∀ ks l rest, input = body ks l ++ rest →
      chunks ⟨0, input⟩ = .done (places 0 ks) ⟨(body ks l).length, rest⟩ := by
    rintro ks l rest rfl
    rw [List.length_append] at hw
    have h := chunksFrom_complete ks l (Nat.le_refl 0) (by omega) rest
    rw [Nat.zero_add] at h
    exact h
  refine ⟨fun spans next => ⟨fun h => ?_, ?_⟩, fun ks l rest hi => ?_⟩
  · obtain ⟨ks, l, hr, hs⟩ := chunksFrom_sound h
    have hreach : next.pos + next.rest.length = 0 + input.length := forward_chunks.reach h
    have hlen : input.length = (body ks l).length + next.rest.length := by
      rw [← List.length_append]
      exact congrArg _ hr
    exact ⟨ks, l, hr, by omega, hs⟩
  · rintro ⟨ks, l, hr, hpos, rfl⟩
    rw [hcomplete ks l next.rest hr, ← hpos]
  · refine ⟨_, hcomplete ks l rest hi, ?_⟩
    have h := of_places ks [] (l.bytes ++ rest)
    rw [List.nil_append, ← List.append_assoc] at h
    rw [hi]
    exact h

/-- A quoted value may hold a semicolon, and data may look like a chunk line. -/
theorem chunks_iff_body_quoted :
    let input := Bytes.ofText "3 ; a = \"x;y\" ;b\r\n0\r\n\r\n00;z\r\nGET"
    input.length < Numeral.wordLimit ∧
      ∃ ks l, input = body ks l ++ Bytes.ofText "GET" ∧ (body ks l).length = 29 ∧
        places 0 ks = [⟨18, 3⟩] := by
  refine ⟨by decide, ?_⟩
  obtain ⟨ks, l, hr, hp, hs⟩ := ((@chunks_iff_body
    (Bytes.ofText "3 ; a = \"x;y\" ;b\r\n0\r\n\r\n00;z\r\nGET") (by decide)).1
      [⟨18, 3⟩] ⟨29, Bytes.ofText "GET"⟩).1 (by decide +kernel)
  exact ⟨ks, l, hr, hp.symm, hs.symm⟩

end Http.Chunked

end OriginServer
