import OriginServer.Proofs.Http.ChunkGrammar
import OriginServer.Proofs.Http.Field

namespace OriginServer.Http

open Ascii Scanner FieldList TransferCoding Chunked

section Grammar

/-- A byte that stands for itself in a field. -/
def TextByte (b : UInt8) : Prop := b = htab ∨ isControl b = false

/-- The text of a field: bytes that stand for themselves, and folds. -/
inductive FieldText : Bytes → Prop
  | nil : FieldText []
  | byte {b : UInt8} {text : Bytes} (hb : TextByte b) (h : FieldText text) : FieldText (b :: text)
  | fold {x : UInt8} {text : Bytes} (hx : isBlank x = true) (h : FieldText text) :
    FieldText (cr :: lf :: x :: text)

/-- A field line up to its colon. -/
structure LineStart where
  before : Bytes
  name : Bytes
  between : Bytes
  before_blank : Blank before
  name_token : isToken name = true
  between_blank : Blank between

/-- A field line, and the byte behind it that shows that the line is not folded. -/
structure FieldLine extends LineStart where
  text : Bytes
  ahead : UInt8
  text_field : FieldText text
  ahead_not : isBlank ahead = false

def LineStart.bytes (l : LineStart) : Bytes := l.before ++ (l.name ++ (l.between ++ [colon]))

/-- The line with its line break. -/
def FieldLine.bytes (l : FieldLine) : Bytes := l.toLineStart.bytes ++ (l.text ++ [cr, lf])

/-- What has to be there for the line to be complete. -/
def FieldLine.shown (l : FieldLine) : Bytes := l.bytes ++ [l.ahead]

/-- A field line stands at the start of the input, with the byte behind it. -/
def LineAhead (input : Bytes) : Prop := ∃ l : FieldLine, l.shown <+: input

end Grammar

section Quotes

/-- The value of a field read without regard to quotes. -/
def plainFrom (first : Option Nat) (stop pos : Nat) : Bytes → Scan ParseError Span
  | [] => .more
  | b :: rest =>
    if b = cr then
      match rest with
      | [] => .more
      | l :: rest =>
        if l = lf then
          match rest with
          | [] => .more
          | x :: rest =>
            if isBlank x then plainFrom first stop (pos + 3) rest
            else .done ⟨first.getD stop, stop - first.getD stop⟩ ⟨pos + 2, x :: rest⟩
        else .fail .invalidField
    else if isBlank b then plainFrom first stop (pos + 1) rest
    else if isControl b then .fail .invalidField
    else plainFrom (some (first.getD pos)) (pos + 1) (pos + 1) rest

theorem TextByte.ne_cr {b : UInt8} (h : TextByte b) : b ≠ cr := by
  rintro rfl
  exact absurd h (by unfold TextByte; decide)

theorem textByte_of_blank {b : UInt8} (h : isBlank b = true) : TextByte b := by
  simp only [isBlank, Bool.or_eq_true, beq_iff_eq] at h
  rcases h with rfl | rfl
  · exact .inr (by decide)
  · exact .inl rfl

theorem textByte_of_escapable {b : UInt8} (h : isEscapable b = true) : TextByte b := by
  simp only [isEscapable, isVisible, isObsText, TextByte, isControl] at *
  grind

theorem textByte_of_quoted {b : UInt8} (h : isQuotedText b = true) : TextByte b := by
  refine textByte_of_escapable ?_
  simp only [isQuotedText, isEscapable] at *
  grind

theorem QuotedBody.textual {body : Bytes} (h : QuotedBody body) : ∀ b ∈ body, TextByte b := by
  induction h with
  | nil => exact List.forall_mem_nil _
  | text hb _ ih => exact List.forall_mem_cons.2 ⟨textByte_of_quoted hb, ih⟩
  | escape hx _ ih =>
    refine List.forall_mem_cons.2 ⟨.inr (by decide), ?_⟩
    exact List.forall_mem_cons.2 ⟨textByte_of_escapable hx, ih⟩

theorem quotedTail_textual {pos : Nat} {input : Bytes} (h : quotedTail () pos input = .more) :
    ∀ b ∈ input, TextByte b := by
  fun_induction quotedTail () pos input with
  | case1 => exact List.forall_mem_nil _
  | case3 => exact List.forall_mem_singleton.2 (.inr (by decide))
  | case4 pos x rest hx _ ih =>
    refine List.forall_mem_cons.2 ⟨.inr (by decide), ?_⟩
    exact List.forall_mem_cons.2 ⟨textByte_of_escapable hx, ih h⟩
  | case6 pos b rest _ _ ht ih => exact List.forall_mem_cons.2 ⟨textByte_of_quoted ht, ih h⟩
  | case2 | case5 | case7 => cases h

/-- What a quote opens: nothing, a string up to another quote, or one that is not closed yet. -/
theorem quotedReach?_cases (rest : Bytes) :
    (quotedReach? rest = none ∧ ∀ b ∈ rest, TextByte b) ∨ quotedReach? rest = some 0 ∨
      ∃ body tail, quotedReach? rest = some (body.length + 1) ∧
        (∀ b ∈ body, TextByte b) ∧ rest = body ++ dquote :: tail := by
  unfold quotedReach?
  cases hq : quotedTail () 0 rest with
  | more => exact .inl ⟨rfl, quotedTail_textual hq⟩
  | fail e => exact .inr (.inl rfl)
  | done u next =>
    obtain ⟨body, hb, hr⟩ := quotedTail_sound hq
    have hn := quotedTail_complete hb () 0 next.rest
    rw [← hr, hq, Nat.zero_add] at hn
    injection hn with _ hn
    exact .inr (.inr ⟨body, next.rest, congrArg (some ·.pos) hn, hb.textual, hr⟩)

theorem plainFrom_text (first : Option Nat) (stop pos : Nat) {b : UInt8} (hb : TextByte b)
    (rest : Bytes) :
    plainFrom first stop pos (b :: rest) =
      if isBlank b then plainFrom first stop (pos + 1) rest
      else plainFrom (some (first.getD pos)) (pos + 1) (pos + 1) rest := by
  rw [plainFrom.eq_def]
  simp only [if_neg hb.ne_cr]
  split
  · rfl
  · rename_i hblank
    have hcontrol : ¬ isControl b = true := by
      rcases hb with rfl | hb
      · exact absurd (by decide) hblank
      · simp [hb]
    rw [if_neg hcontrol]

theorem plainFrom_more {rest : Bytes} (h : ∀ b ∈ rest, TextByte b) (first : Option Nat)
    (stop pos : Nat) : plainFrom first stop pos rest = .more := by
  induction rest generalizing first stop pos with
  | nil => rfl
  | cons b rest ih =>
    obtain ⟨hb, hrest⟩ := List.forall_mem_cons.1 h
    rw [plainFrom_text _ _ _ hb]
    split <;> exact ih hrest _ _ _

/-- A value that has begun goes on to the quote behind these bytes. -/
theorem plainFrom_quoted {body : Bytes} (h : ∀ b ∈ body, TextByte b) (f stop pos : Nat)
    (tail : Bytes) :
    plainFrom (some f) stop pos (body ++ dquote :: tail) =
      plainFrom (some f) (pos + (body.length + 1)) (pos + (body.length + 1)) tail := by
  induction body generalizing stop pos with
  | nil => rw [List.nil_append, plainFrom_text _ _ _ (.inr (by decide)), if_neg (by decide)]; rfl
  | cons b body ih =>
    obtain ⟨hb, hbody⟩ := List.forall_mem_cons.1 h
    have hp : pos + ((b :: body).length + 1) = pos + 1 + (body.length + 1) := by
      rw [List.length_cons]
      omega
    rw [List.cons_append, plainFrom_text _ _ _ hb, hp]
    split <;> exact ih hbody _ _

theorem valueFrom_skip (first : Option Nat) (stop pos : Nat) (taken tail : Bytes) :
    valueFrom first stop pos taken.length (taken ++ tail) =
      valueFrom first stop (pos + taken.length) 0 tail := by
  induction taken generalizing pos with
  | nil => rfl
  | cons b taken ih =>
    rw [List.length_cons, List.cons_append, valueFrom_covered, ih, Nat.add_assoc,
      Nat.add_comm 1]

/-- Quotes make no difference to where a value begins and ends. -/
theorem valueFrom_eq_plain (first : Option Nat) (stop pos : Nat) (input : Bytes) :
    valueFrom first stop pos 0 input = plainFrom first stop pos input := by
  -- A quoted string is passed over at once, so the induction is on the length.
  induction hn : input.length using Nat.strongRecOn generalizing first stop pos input with
  | ind n ih =>
    cases input with
    | nil => rfl
    | cons b rest =>
      subst hn
      have hrest (first : Option Nat) (stop : Nat) :
          valueFrom first stop (pos + 1) 0 rest = plainFrom first stop (pos + 1) rest :=
        ih rest.length (Nat.lt_succ_self _) _ _ _ _ rfl
      by_cases hc : b = cr
      · subst hc
        rcases rest with _ | ⟨l, rest⟩
        · rfl
        by_cases hl : l = lf
        · subst hl
          rcases rest with _ | ⟨x, rest⟩
          · rfl
          by_cases hx : isBlank x = true
          · rw [valueFrom_fold _ _ _ _ hx, plainFrom.eq_def,
              ih rest.length (by simp only [List.length_cons]; omega) _ _ _ _ rfl]
            simp only [if_true, if_pos hx]
          · rw [valueFrom_end _ _ _ _ hx, plainFrom.eq_def]
            simp only [if_true, if_neg hx]
        · rw [valueFrom_bareCr _ _ _ _ hl, plainFrom.eq_def]
          simp only [if_true, if_neg hl]
      · by_cases hq : b = dquote
        · subst hq
          rw [plainFrom_text _ _ _ (.inr (by decide)), if_neg (by decide)]
          obtain ⟨hr, htext⟩ | hr | ⟨body, tail, hr, htext, rfl⟩ := quotedReach?_cases rest
          · rw [plainFrom_more htext, valueFrom.eq_def]
            simp only [if_neg hc, if_true, hr]
          · rw [valueFrom_quote _ _ _ hr]
            exact hrest _ _
          · have hs := valueFrom_skip (some (first.getD pos)) (pos + 1 + (body.length + 1))
              (pos + 1) (body ++ [dquote]) tail
            rw [List.append_assoc, List.singleton_append, List.length_append] at hs
            rw [valueFrom_quote _ _ _ hr, plainFrom_quoted htext]
            refine hs.trans (ih tail.length ?_ _ _ _ _ rfl)
            simp only [List.length_cons, List.length_append]
            omega
        · rw [valueFrom_plain _ _ _ _ hc hq, plainFrom.eq_def]
          simp only [if_neg hc, hrest]

end Quotes

section Value

/-- Where the value of a text lies that begins at `base`. -/
def valuePlace (base : Nat) (text : Bytes) : Span :=
  if text.trim isFoldedBlank = [] then ⟨base, 0⟩
  else ⟨base + (text.takeWhile isFoldedBlank).length, (text.trim isFoldedBlank).length⟩

/-- The marks that a text moves on: where its value begins and where it ends. -/
def marks (first : Option Nat) (stop pos : Nat) : Bytes → Option Nat × Nat
  | [] => (first, stop)
  | b :: text =>
    if isFoldedBlank b then marks first stop (pos + 1) text
    else marks (some (first.getD pos)) (pos + 1) (pos + 1) text

theorem marks_blanks {blanks : Bytes} (h : Blanks blanks) (first : Option Nat) (stop pos : Nat)
    (text : Bytes) :
    marks first stop pos (blanks ++ text) = marks first stop (pos + blanks.length) text := by
  induction blanks generalizing pos with
  | nil => rfl
  | cons b blanks ih =>
    obtain ⟨hb, hblanks⟩ := List.forall_mem_cons.1 h
    rw [List.cons_append, marks, if_pos hb, ih hblanks, List.length_cons, Nat.add_assoc,
      Nat.add_comm 1]

/-- A value that has begun ends behind its last byte other than white space. -/
theorem marks_begun {value : Bytes} (f stop pos : Nat)
    (hl : ∀ b ∈ value.getLast?, isFoldedBlank b = false) (hs : value = [] → stop = pos)
    (text : Bytes) :
    marks (some f) stop pos (value ++ text) =
      marks (some f) (pos + value.length) (pos + value.length) text := by
  induction value generalizing stop pos with
  | nil => rw [hs rfl]; rfl
  | cons b value ih =>
    have hl' : ∀ x ∈ value.getLast?, isFoldedBlank x = false := by
      intro x hx
      refine hl x ?_
      rw [List.getLast?_cons, hx]
      rfl
    rw [List.cons_append, marks, List.length_cons, Nat.add_comm value.length, ← Nat.add_assoc]
    split
    · rename_i hb
      refine ih _ _ hl' ?_
      rintro rfl
      exact absurd hb (by simp [hl b rfl])
    · exact ih _ _ hl' fun _ => rfl

theorem head?_dropWhile_blank (text : Bytes) :
    ∀ b ∈ (text.dropWhile isFoldedBlank).head?, isFoldedBlank b = false := by
  intro b hb
  have h := List.head?_dropWhile_not isFoldedBlank text
  rw [Option.mem_def.1 hb] at h
  simpa using h

theorem trim_prefix (text : Bytes) :
    text.trim isFoldedBlank <+: text.dropWhile isFoldedBlank := by
  rw [Bytes.trim, ← List.reverse_suffix, List.reverse_reverse]
  exact List.dropWhile_suffix _

/-- A value does not begin with white space, and does not end with it. -/
theorem trim_ends (text : Bytes) :
    (∀ b ∈ (text.trim isFoldedBlank).head?, isFoldedBlank b = false) ∧
      ∀ b ∈ (text.trim isFoldedBlank).getLast?, isFoldedBlank b = false := by
  constructor
  · intro b hb
    refine head?_dropWhile_blank text b ?_
    obtain ⟨after, ha⟩ := trim_prefix text
    rw [← ha, List.head?_append, Option.mem_def.1 hb]
    rfl
  · intro b hb
    rw [Bytes.trim, List.getLast?_reverse] at hb
    exact head?_dropWhile_blank _ b hb

/-- The marks of a text are those of its value. -/
theorem marks_eq_valuePlace (base : Nat) (text : Bytes) :
    let found := marks none base base text
    (⟨found.1.getD found.2, found.2 - found.1.getD found.2⟩ : Span) = valuePlace base text := by
  obtain ⟨after, ha, ht⟩ := trim_sound text
  have hb := blanks_takeWhile text
  have hm : marks none base base text =
      marks none base (base + (text.takeWhile isFoldedBlank).length)
        (text.trim isFoldedBlank ++ (after ++ [])) := by
    conv_lhs => rw [ht]
    rw [List.append_assoc, marks_blanks hb, List.append_nil]
  rw [hm]
  unfold valuePlace
  cases hv : text.trim isFoldedBlank with
  | nil =>
    rw [List.nil_append, marks_blanks ha]
    simp [marks]
  | cons b value =>
    obtain ⟨hhead, hlast⟩ := trim_ends text
    rw [hv] at hhead hlast
    rw [List.cons_append, marks, if_neg (by simp [hhead b rfl])]
    have hl' : ∀ x ∈ value.getLast?, isFoldedBlank x = false := by
      intro x hx
      refine hlast x ?_
      rw [List.getLast?_cons, hx]
      rfl
    rw [marks_begun _ _ _ hl' fun _ => rfl, marks_blanks ha]
    simp [marks]
    omega

end Value

section Text

theorem isFoldedBlank_textByte {b : UInt8} (h : TextByte b) : isFoldedBlank b = isBlank b := by
  have hl : b ≠ lf := by
    rintro rfl
    exact absurd h (by unfold TextByte; decide)
  rw [isFoldedBlank, beq_false_of_ne h.ne_cr, beq_false_of_ne hl, Bool.or_false, Bool.or_false]

/-- A text up to the line break that ends it is read whole. -/
theorem plainFrom_complete {text : Bytes} (h : FieldText text) {x : UInt8}
    (hx : isBlank x = false) (first : Option Nat) (stop pos : Nat) (tail : Bytes) :
    plainFrom first stop pos (text ++ cr :: lf :: x :: tail) =
      let found := marks first stop pos text
      .done ⟨found.1.getD found.2, found.2 - found.1.getD found.2⟩
        ⟨pos + text.length + 2, x :: tail⟩ := by
  induction h generalizing first stop pos with
  | nil =>
    rw [List.nil_append, plainFrom.eq_def]
    simp [hx, marks]
  | @byte b text hb _ ih =>
    have hp : pos + (b :: text).length = pos + 1 + text.length := by
      rw [List.length_cons]
      omega
    rw [List.cons_append, plainFrom_text _ _ _ hb, marks, isFoldedBlank_textByte hb, hp]
    split <;> exact ih _ _ _
  | @fold y text hy _ ih =>
    have hm : marks first stop pos (cr :: lf :: y :: text) = marks first stop (pos + 3) text := by
      have hblanks : Blanks [cr, lf, y] := by
        have hy' : isFoldedBlank y = true := by simp [isFoldedBlank, hy]
        simpa [Blanks] using ⟨by decide, by decide, hy'⟩
      exact marks_blanks hblanks _ _ _ _
    have hp : pos + (cr :: lf :: y :: text).length = pos + 3 + text.length := by
      simp only [List.length_cons]
      omega
    rw [hm, hp]
    simp only [List.cons_append]
    rw [plainFrom.eq_def]
    simp only [if_true, if_pos hy]
    exact ih _ _ _

/-- What is read is a text up to the line break that ends it. -/
theorem plainFrom_sound {first : Option Nat} {stop pos : Nat} {input : Bytes} {s : Span}
    {next : Cursor} (h : plainFrom first stop pos input = .done s next) :
    ∃ text x tail, FieldText text ∧ isBlank x = false ∧
      input = text ++ cr :: lf :: x :: tail := by
  fun_induction plainFrom first stop pos input with
  | case4 first stop pos x rest hx ih =>
    obtain ⟨text, y, tail, ht, hy, rfl⟩ := ih h
    exact ⟨_, y, tail, .fold hx ht, hy, rfl⟩
  | case5 first stop pos x rest hx =>
    exact ⟨[], x, rest, .nil, by simpa using hx, rfl⟩
  | case7 first stop pos b rest hc hb ih =>
    obtain ⟨text, y, tail, ht, hy, rfl⟩ := ih h
    exact ⟨_, y, tail, .byte (textByte_of_blank hb) ht, hy, rfl⟩
  | case9 first stop pos b rest hc hb hctl ih =>
    obtain ⟨text, y, tail, ht, hy, rfl⟩ := ih h
    exact ⟨_, y, tail, .byte (.inr (by simpa using hctl)) ht, hy, rfl⟩
  | case1 | case2 | case3 | case6 | case8 => cases h

/-- More is asked for within a text or within the line break that ends it. -/
theorem plainFrom_unfinished {first : Option Nat} {stop pos : Nat} {input : Bytes}
    (h : plainFrom first stop pos input = .more) :
    ∃ text, FieldText text ∧ input <+: text ++ [cr, lf] := by
  fun_induction plainFrom first stop pos input with
  | case1 => exact ⟨[], .nil, List.nil_prefix⟩
  | case2 => exact ⟨[], .nil, ⟨[lf], rfl⟩⟩
  | case3 => exact ⟨[], .nil, List.prefix_refl _⟩
  | case4 first stop pos x rest hx ih =>
    obtain ⟨text, ht, hp⟩ := ih h
    exact ⟨_, .fold hx ht, List.prefix_append_right_inj [cr, lf, x] |>.2 hp⟩
  | case7 first stop pos b rest hc hb ih =>
    obtain ⟨text, ht, hp⟩ := ih h
    exact ⟨_, .byte (textByte_of_blank hb) ht, List.prefix_append_right_inj [b] |>.2 hp⟩
  | case9 first stop pos b rest hc hb hctl ih =>
    obtain ⟨text, ht, hp⟩ := ih h
    exact ⟨_, .byte (.inr (by simpa using hctl)) ht, List.prefix_append_right_inj [b] |>.2 hp⟩
  | case5 | case6 | case8 => cases h

/-- The bytes of a text are a text again without the white space in front. -/
theorem FieldText.dropWhile {text : Bytes} (h : FieldText text) :
    FieldText (text.dropWhile isFoldedBlank) := by
  induction h with
  | nil => exact .nil
  | @byte b text hb h ih =>
    rw [List.dropWhile_cons]
    split
    · exact ih
    · exact .byte hb h
  | @fold x text hx h ih =>
    have hx' : isFoldedBlank x = true := by simp [isFoldedBlank, hx]
    rw [List.dropWhile_cons_of_pos (by decide), List.dropWhile_cons_of_pos (by decide),
      List.dropWhile_cons_of_pos hx']
    exact ih

/-- White space at the end of bytes goes with what is in front of it, or stays where it is. -/
theorem trimEnd_append (front text : Bytes) :
    ((front ++ text).reverse.dropWhile isFoldedBlank).reverse =
      if text.reverse.dropWhile isFoldedBlank = [] then
        (front.reverse.dropWhile isFoldedBlank).reverse
      else front ++ (text.reverse.dropWhile isFoldedBlank).reverse := by
  rw [List.reverse_append, List.dropWhile_append]
  simp only [List.isEmpty_iff]
  split
  · rfl
  · rw [List.reverse_append, List.reverse_reverse]

theorem FieldText.trimEnd {text : Bytes} (h : FieldText text) :
    FieldText (text.reverse.dropWhile isFoldedBlank).reverse := by
  induction h with
  | nil => exact .nil
  | @byte b text hb h ih =>
    rw [← List.singleton_append, trimEnd_append]
    split
    · rw [List.reverse_singleton, List.dropWhile_cons]
      split
      · exact .nil
      · exact .byte hb .nil
    · exact .byte hb ih
  | @fold x text hx h ih =>
    have hx' : isFoldedBlank x = true := by simp [isFoldedBlank, hx]
    have hsplit : cr :: lf :: x :: text = [cr, lf, x] ++ text := rfl
    rw [hsplit, trimEnd_append]
    split
    · have hblanks : [cr, lf, x].reverse.dropWhile isFoldedBlank = [] := by
        simp [isFoldedBlank, hx]
      rw [hblanks]
      exact .nil
    · exact .fold hx ih

/-- In a value, too, each CR and each LF belongs to a fold. -/
theorem FieldText.trim {text : Bytes} (h : FieldText text) :
    FieldText (text.trim isFoldedBlank) := h.dropWhile.trimEnd

end Text

section Line

theorem fieldName_complete (l : LineStart) (pos : Nat) (rest : Bytes) :
    fieldName ⟨pos, l.bytes ++ rest⟩ =
      .done ⟨pos + l.before.length, l.name.length⟩ ⟨pos + l.bytes.length, rest⟩ := by
  obtain ⟨before, name, between, hbefore, hname, hbetween⟩ := l
  obtain ⟨y, name, rfl, hy⟩ := isToken_cons hname
  have hcolon : isTokenByte colon = false := by decide
  obtain ⟨x, tail, hx, hxt⟩ := hbetween.ends hcolon rest
  have hi : LineStart.bytes ⟨before, y :: name, between, hbefore, hname, hbetween⟩ ++ rest =
      before ++ (y :: name ++ (between ++ colon :: rest)) := by
    simp only [LineStart.bytes, List.append_assoc, List.singleton_append]
  have hrun : (run isTokenByte ⟨pos + before.length, y :: name ++ (between ++ colon :: rest)⟩ :
      Scan ParseError Bytes) =
        .done (y :: name) ⟨pos + before.length + (y :: name).length, between ++ colon :: rest⟩ := by
    rw [hx]
    exact run_of_append (List.all_eq_true.2 (isToken_iff.1 hname).2) hxt
  have hl : pos + (LineStart.bytes ⟨before, y :: name, between, hbefore, hname, hbetween⟩).length =
      pos + before.length + (y :: name).length + between.length + 1 := by
    simp only [LineStart.bytes, List.length_append, List.length_singleton]
    omega
  rw [hi, hl]
  refine (bind_of_done (run_blank hbefore (isBlank_of_token hy) pos _)).trans ?_
  refine (bind_of_done rfl).trans ((bind_of_done hrun).trans ?_)
  exact (bind_of_done (run_blank hbetween (by decide) _ _)).trans rfl

theorem fieldName_sound {c next : Cursor} {s : Span} (h : fieldName c = .done s next) :
    ∃ l : LineStart, c.rest = l.bytes ++ next.rest := by
  obtain ⟨before, m₁, h₁, h⟩ := bind_eq_done h
  obtain ⟨start, m₂, h₂, h⟩ := bind_eq_done h
  rw [(position_eq_done h₂).2] at h
  obtain ⟨name, m₃, h₃, h⟩ := bind_eq_done h
  obtain ⟨between, m₄, h₄, h⟩ := bind_eq_done h
  obtain ⟨_, m₅, h₅, h⟩ := bind_eq_done h
  obtain ⟨_, m₆, h₆, h⟩ := bind_eq_done h
  obtain ⟨hne, hm₆⟩ := ensure_eq_done h₆
  obtain ⟨-, hnext⟩ := pure_eq_done h
  obtain ⟨hbefore, hr₁⟩ := run_blank_sound h₁
  obtain ⟨hr₃, -, hall, -⟩ := run_eq_done h₃
  obtain ⟨hbetween, hr₄⟩ := run_blank_sound h₄
  have hname : isToken name = true :=
    isToken_iff.2 ⟨by simpa using hne, List.all_eq_true.1 hall⟩
  refine ⟨⟨before, name, between, hbefore, hname, hbetween⟩, ?_⟩
  simp only [LineStart.bytes, hr₁, hr₃, hr₄, byte_eq_done h₅, hnext, hm₆, List.append_assoc,
    List.singleton_append]

/-- More is asked for before the colon has been seen. -/
theorem fieldName_unfinished {c : Cursor} (h : fieldName c = .more) :
    ∃ l : LineStart, c.rest <+: l.bytes := by
  obtain h | ⟨before, m₁, h₁, h⟩ := bind_eq_more h
  · have hb : Blank c.rest := run_eq_more h
    exact ⟨⟨c.rest, [0x61], [], hb, by decide, List.forall_mem_nil _⟩, List.prefix_append _ _⟩
  obtain ⟨hbefore, hr₁⟩ := run_blank_sound h₁
  obtain ⟨-, -, -, x, tail, hx, hblank⟩ := run_eq_done h₁
  obtain h | ⟨start, m₂, h₂, h⟩ := bind_eq_more h
  · cases h
  rw [(position_eq_done h₂).2] at h
  obtain h | ⟨name, m₃, h₃, h⟩ := bind_eq_more h
  · have hn : isToken m₁.rest = true := isToken_iff.2 ⟨by simp [hx], run_eq_more h⟩
    refine ⟨⟨before, m₁.rest, [], hbefore, hn, List.forall_mem_nil _⟩, ?_⟩
    rw [hr₁]
    exact (List.prefix_append_right_inj _).2 (List.prefix_append _ _)
  obtain ⟨hr₃, -, hall, -⟩ := run_eq_done h₃
  obtain h | ⟨between, m₄, h₄, h⟩ := bind_eq_more h
  · have hbetween : Blank m₃.rest := run_eq_more h
    have hn : isToken name = true := by
      -- Without a name the byte behind the first white space would be white space.
      refine isToken_iff.2 ⟨?_, List.all_eq_true.1 hall⟩
      rintro rfl
      rw [List.nil_append, hx] at hr₃
      exact absurd (hbetween x (hr₃ ▸ List.mem_cons_self)) (by simp [hblank])
    refine ⟨⟨before, name, m₃.rest, hbefore, hn, hbetween⟩, ?_⟩
    rw [hr₁, hr₃]
    refine (List.prefix_append_right_inj _).2 ((List.prefix_append_right_inj _).2 ?_)
    exact List.prefix_append _ _
  obtain ⟨-, -, -, y, rest, hy, -⟩ := run_eq_done h₄
  obtain h | ⟨_, m₅, -, h⟩ := bind_eq_more h
  · exact absurd h (byte_ne_more (by simp [hy]))
  obtain h | ⟨_, m₆, -, h⟩ := bind_eq_more h
  · exact absurd h (ensure_ne_more _ _ _)
  · cases h

/-- The place of a value holds it. -/
theorem of_valuePlace (front text behind : Bytes) :
    (valuePlace front.length text).of (front ++ (text ++ behind)) = text.trim isFoldedBlank := by
  unfold valuePlace
  split
  · rename_i hv
    rw [hv, Span.of, Bytes.slice, List.take_zero]
  · obtain ⟨after, -, ht⟩ := trim_sound text
    have hi : front ++ (text ++ behind) =
        (front ++ text.takeWhile isFoldedBlank) ++
          (text.trim isFoldedBlank ++ (after ++ behind)) := by
      conv_lhs => rw [ht]
      simp only [List.append_assoc]
    rw [hi]
    exact Span.of_middle (List.length_append ..).symm rfl _

theorem FieldLine.name_of (l : FieldLine) (behind : Bytes) :
    Span.of ⟨l.before.length, l.name.length⟩ (l.shown ++ behind) = l.name := by
  simp only [shown, bytes, LineStart.bytes, List.append_assoc]
  exact Span.of_middle rfl rfl _

theorem FieldLine.value_of (l : FieldLine) (behind : Bytes) :
    (valuePlace l.toLineStart.bytes.length l.text).of (l.shown ++ behind) =
      l.text.trim isFoldedBlank := by
  simp only [shown, bytes, List.append_assoc]
  exact of_valuePlace _ _ _

/-- A line with the byte behind it is read whole, whatever follows. -/
theorem fieldLine_complete (l : FieldLine) (pos : Nat) (tail : Bytes) :
    fieldLine ⟨pos, l.shown ++ tail⟩ =
      .done ⟨⟨pos + l.before.length, l.name.length⟩,
          valuePlace (pos + l.toLineStart.bytes.length) l.text⟩
        ⟨pos + l.bytes.length, l.ahead :: tail⟩ := by
  have hi : l.shown ++ tail =
      l.toLineStart.bytes ++ (l.text ++ cr :: lf :: l.ahead :: tail) := by
    simp only [FieldLine.shown, FieldLine.bytes, List.append_assoc, List.cons_append,
      List.nil_append]
  have hv : fieldValue ⟨pos + l.toLineStart.bytes.length, l.text ++ cr :: lf :: l.ahead :: tail⟩ =
      .done (valuePlace (pos + l.toLineStart.bytes.length) l.text)
        ⟨pos + l.bytes.length, l.ahead :: tail⟩ := by
    have hl : pos + l.bytes.length =
        pos + l.toLineStart.bytes.length + l.text.length + 2 := by
      simp only [FieldLine.bytes, List.length_append, List.length_cons, List.length_nil]
      omega
    rw [fieldValue, valueFrom_eq_plain, plainFrom_complete l.text_field l.ahead_not, hl,
      ← marks_eq_valuePlace]
  rw [hi]
  exact (bind_of_done (fieldName_complete _ pos _)).trans (bind_of_done hv)

theorem fieldLine_sound {c next : Cursor} {f : Field} (h : fieldLine c = .done f next) :
    LineAhead c.rest := by
  obtain ⟨name, mid, hn, h⟩ := bind_eq_done h
  obtain ⟨value, m₂, hv, -⟩ := bind_eq_done h
  obtain ⟨l, hr⟩ := fieldName_sound hn
  rw [fieldValue, valueFrom_eq_plain] at hv
  obtain ⟨text, x, tail, ht, hx, hm⟩ := plainFrom_sound hv
  refine ⟨⟨l, text, x, ht, hx⟩, tail, ?_⟩
  simp only [FieldLine.shown, FieldLine.bytes, hr, hm, List.append_assoc, List.cons_append,
    List.nil_append]

theorem fieldLine_completes_iff {c : Cursor} : fieldLine.Completes c ↔ LineAhead c.rest := by
  constructor
  · rintro ⟨f, next, h⟩
    exact fieldLine_sound h
  · rintro ⟨l, tail, ht⟩
    have h := fieldLine_complete l c.pos tail
    rw [ht] at h
    exact ⟨_, _, h⟩

/-- A line that more is asked for may still become one of the grammar. -/
theorem viable_fieldLine : fieldLine.Viable := by
  have viable {c : Cursor} (l : FieldLine) (hp : c.rest <+: l.shown) :
      ∃ later, fieldLine.Completes (c.append later) := by
    obtain ⟨later, hl⟩ := hp
    exact ⟨later, fieldLine_completes_iff.2 ⟨l, [], (List.append_nil _).trans hl.symm⟩⟩
  intro c h
  obtain h | ⟨name, mid, hn, h⟩ := bind_eq_more h
  · obtain ⟨l, hp⟩ := fieldName_unfinished h
    refine viable ⟨l, [], cr, .nil, by decide⟩ (hp.trans ?_)
    exact (List.prefix_append _ _).trans (List.prefix_append _ _)
  obtain h | ⟨value, m₂, hv, h⟩ := bind_eq_more h
  · obtain ⟨l, hr⟩ := fieldName_sound hn
    rw [fieldValue, valueFrom_eq_plain] at h
    obtain ⟨text, ht, hp⟩ := plainFrom_unfinished h
    refine viable ⟨l, text, cr, ht, by decide⟩ ?_
    rw [hr]
    exact ((List.prefix_append_right_inj _).2 hp).trans (List.prefix_append _ _)
  · cases h

/-- The reader of a field line recognises the grammar at every point of arrival. A line is complete
exactly when it is there with the byte behind it; then its name is the token, its value is its text
without the white space and the folds at either end, and reading goes on behind the line break. More
is asked for exactly while some continuation is a line, and what no continuation makes a line is
refused. No value holds a CR or an LF outside a fold. -/
theorem fieldLine_recognises (input : Bytes) :
    ((∃ f next, fieldLine ⟨0, input⟩ = .done f next) ↔ LineAhead input) ∧
    (∀ l : FieldLine, l.shown <+: input →
      ∃ f, fieldLine ⟨0, input⟩ = .done f ⟨l.bytes.length, input.drop l.bytes.length⟩ ∧
        f.name = ⟨l.before.length, l.name.length⟩ ∧ f.name.of input = l.name ∧
        f.value.of input = l.text.trim isFoldedBlank ∧ FieldText (f.value.of input)) ∧
    (fieldLine ⟨0, input⟩ = .more ↔
      ¬ LineAhead input ∧ ∃ later, LineAhead (input ++ later)) ∧
    ((∃ cause, fieldLine ⟨0, input⟩ = .fail cause) ↔
      ∀ later, ¬ LineAhead (input ++ later)) := by
  refine ⟨fieldLine_completes_iff, ?_, ?_, ?_⟩
  · rintro l ⟨tail, rfl⟩
    have h := fieldLine_complete l 0 tail
    have hrest : (l.shown ++ tail).drop l.bytes.length = l.ahead :: tail := by
      rw [FieldLine.shown, List.append_assoc, List.drop_left]
      rfl
    simp only [Nat.zero_add] at h
    rw [hrest]
    refine ⟨_, h, rfl, l.name_of tail, l.value_of tail, ?_⟩
    rw [l.value_of tail]
    exact l.text_field.trim
  · simpa only [fieldLine_completes_iff, Cursor.append_rest] using
      steady_fieldLine.more_iff viable_fieldLine ⟨0, input⟩
  · simpa only [fieldLine_completes_iff, Cursor.append_rest] using
      steady_fieldLine.fail_iff viable_fieldLine ⟨0, input⟩

example :
    fieldLine ⟨0, Bytes.ofText "a : \"b\r\n\tc \r\nd"⟩ =
      .done ⟨⟨0, 1⟩, ⟨4, 6⟩⟩ ⟨13, Bytes.ofText "d"⟩ := by
  decide +kernel

end Line

end OriginServer.Http
