import OriginServer.Http.Field
import OriginServer.Proofs.Http.Token
import OriginServer.Proofs.Span

namespace OriginServer.Http

open Ascii Scanner

theorem steady_fieldName : fieldName.Steady :=
  (steady_run _).bind fun _ => steady_position.bind fun _ => (steady_run _).bind fun _ =>
    (steady_run _).bind fun _ => (steady_byte _ _).bind fun _ => (steady_ensure _ _).bind fun _ =>
      steady_pure _

theorem local_fieldName : fieldName.Local :=
  (local_run _).bind fun _ => closed_position.toLocal.bind fun _ => (local_run _).bind fun _ =>
    (local_run _).bind fun _ => (closed_byte _ _).toLocal.bind fun _ =>
      (closed_ensure _ _).toLocal.bind fun _ => (closed_pure _).toLocal

/-- A name is followed by its colon. -/
theorem fieldName_ended {c next : Cursor} {s : Span} (h : fieldName c = .done s next) :
    s.ended.Within c.pos next.pos := by
  obtain ⟨_, m₁, h₁, h⟩ := bind_eq_done h
  obtain ⟨start, m₂, h₂, h⟩ := bind_eq_done h
  obtain ⟨rfl, rfl⟩ := position_eq_done h₂
  obtain ⟨name, m₃, h₃, h⟩ := bind_eq_done h
  obtain ⟨_, m₄, h₄, h⟩ := bind_eq_done h
  obtain ⟨_, m₅, h₅, h⟩ := bind_eq_done h
  obtain ⟨_, m₆, h₆, h⟩ := bind_eq_done h
  obtain ⟨rfl, rfl⟩ := pure_eq_done h
  have hle₁ := (forward_run _).pos_le h₁
  have hp := (run_eq_done h₃).2.1
  have hle₄ := (forward_run _).pos_le h₄
  have hlt₅ := (advances_byte _ _).pos_lt h₅
  have hle₆ := (forward_ensure _ _).pos_le h₆
  exact ⟨by simp only [Span.ended_start]; omega, by simp only [Span.ended, Span.stop]; omega⟩

section Value

theorem quotedReach?_append {rest : Bytes} {n : Nat} (later : Bytes)
    (h : quotedReach? rest = some n) : quotedReach? (rest ++ later) = some n := by
  unfold quotedReach? at h ⊢
  cases hq : quotedTail () 0 rest with
  | more => simp [hq] at h
  | fail e =>
    simpa [quotedTail_append later (by simp [hq] : quotedTail () 0 rest ≠ .more), hq] using h
  | done u next =>
    simpa [quotedTail_append later (by simp [hq] : quotedTail () 0 rest ≠ .more), hq] using h

/-- No quoted string goes on behind a CR, so what is there does not count. -/
theorem quotedTail_of_cr (pos : Nat) (u v w : Bytes) :
    (∃ next next' : Cursor, quotedTail () pos (u ++ cr :: v) = .done () next ∧
      quotedTail () pos (u ++ cr :: w) = .done () next' ∧ next.pos = next'.pos) ∨
    (quotedTail () pos (u ++ cr :: v) = .fail () ∧
      quotedTail () pos (u ++ cr :: w) = .fail ()) := by
  have hcr (pos : Nat) (v : Bytes) : quotedTail () pos (cr :: v) = .fail () := by
    rw [quotedTail_text _ _ _ (by decide) (by decide), if_neg (by decide)]
  fun_induction quotedTail () pos u with
  | case1 pos => exact .inr ⟨hcr pos v, hcr pos w⟩
  | case2 pos rest =>
    exact .inl ⟨_, _, quotedTail_quote _ _ _, quotedTail_quote _ _ _, rfl⟩
  | case3 pos =>
    have hb (v : Bytes) : quotedTail () pos (backslash :: cr :: v) = .fail () := by
      rw [quotedTail_escape, if_neg (by decide)]
    exact .inr ⟨hb v, hb w⟩
  | case4 pos x rest hx _ ih =>
    simpa only [List.cons_append, quotedTail_escape, if_pos hx] using ih
  | case5 pos x rest hx _ =>
    simp only [List.cons_append, quotedTail_escape, if_neg hx]
    exact .inr ⟨trivial, trivial⟩
  | case6 pos b rest hq hs ht ih =>
    simpa only [List.cons_append, quotedTail_text _ _ _ hq hs, if_pos ht] using ih
  | case7 pos b rest hq hs ht =>
    simp only [List.cons_append, quotedTail_text _ _ _ hq hs, if_neg ht]
    exact .inr ⟨trivial, trivial⟩

theorem quotedReach?_of_cr (u v w : Bytes) :
    quotedReach? (u ++ cr :: v) = quotedReach? (u ++ cr :: w) := by
  unfold quotedReach?
  rcases quotedTail_of_cr 0 u v w with ⟨next, next', hv, hw, hp⟩ | ⟨hv, hw⟩
  · simp only [hv, hw, hp]
  · simp only [hv, hw]

theorem valueFrom_covered (first : Option Nat) (stop pos n : Nat) (b : UInt8) (rest : Bytes) :
    valueFrom first stop pos (n + 1) (b :: rest) = valueFrom first stop (pos + 1) n rest := by
  rw [valueFrom.eq_def]

theorem valueFrom_fold (first : Option Nat) (stop pos : Nat) {x : UInt8} (rest : Bytes)
    (hx : isBlank x) :
    valueFrom first stop pos 0 (cr :: lf :: x :: rest) = valueFrom first stop (pos + 3) 0 rest := by
  rw [valueFrom.eq_def]
  simp [hx]

theorem valueFrom_end (first : Option Nat) (stop pos : Nat) {x : UInt8} (rest : Bytes)
    (hx : ¬ isBlank x) :
    valueFrom first stop pos 0 (cr :: lf :: x :: rest) =
      .done ⟨first.getD stop, stop - first.getD stop⟩ ⟨pos + 2, x :: rest⟩ := by
  rw [valueFrom.eq_def]
  simp [hx]

theorem valueFrom_bareCr (first : Option Nat) (stop pos : Nat) {x : UInt8} (rest : Bytes)
    (hx : x ≠ lf) :
    valueFrom first stop pos 0 (cr :: x :: rest) = .fail .invalidField := by
  rw [valueFrom.eq_def]
  simp [hx]

theorem valueFrom_quote (first : Option Nat) (stop pos : Nat) {rest : Bytes} {n : Nat}
    (hn : quotedReach? rest = some n) :
    valueFrom first stop pos 0 (dquote :: rest) =
      valueFrom (some (first.getD pos)) (pos + 1 + n) (pos + 1) n rest := by
  have hb : ¬ dquote = cr := by decide
  rw [valueFrom.eq_def]
  simp [hb, hn]

/-- A byte that neither ends a value nor opens a quoted string. -/
theorem valueFrom_plain (first : Option Nat) (stop pos : Nat) {b : UInt8} (rest : Bytes)
    (hc : b ≠ cr) (hq : b ≠ dquote) :
    valueFrom first stop pos 0 (b :: rest) =
      if isBlank b then valueFrom first stop (pos + 1) 0 rest
      else if isControl b then .fail .invalidField
      else valueFrom (some (first.getD pos)) (pos + 1) (pos + 1) 0 rest := by
  rw [valueFrom.eq_def]
  simp [hc, hq]

theorem valueFrom_append {first : Option Nat} {stop pos covered : Nat} {input : Bytes}
    (later : Bytes) (h : valueFrom first stop pos covered input ≠ .more) :
    valueFrom first stop pos covered (input ++ later) =
      (valueFrom first stop pos covered input).append later := by
  fun_induction valueFrom first stop pos covered input with
  | case1 => exact absurd rfl h
  | case2 first stop pos b rest n ih =>
    rw [List.cons_append, valueFrom_covered]
    exact ih h
  | case3 => exact absurd rfl h
  | case4 => exact absurd rfl h
  | case5 first stop pos x rest hx ih =>
    simp only [List.cons_append]
    rw [valueFrom_fold _ _ _ _ hx]
    exact ih h
  | case6 first stop pos x rest hx =>
    simp only [List.cons_append]
    rw [valueFrom_end _ _ _ _ hx]
    rfl
  | case7 first stop pos x rest hx =>
    simp only [List.cons_append]
    rw [valueFrom_bareCr _ _ _ _ hx]
    rfl
  | case8 => exact absurd rfl h
  | case9 first stop pos rest n hn _ ih =>
    rw [List.cons_append, valueFrom_quote _ _ _ (quotedReach?_append later hn)]
    exact ih h
  | case10 first stop pos b rest hc hq hb ih =>
    rw [List.cons_append, valueFrom_plain _ _ _ _ hc hq, if_pos hb]
    exact ih h
  | case11 first stop pos b rest hc hq hb hctl =>
    rw [List.cons_append, valueFrom_plain _ _ _ _ hc hq, if_neg hb, if_pos hctl]
    rfl
  | case12 first stop pos b rest hc hq hb hctl ih =>
    rw [List.cons_append, valueFrom_plain _ _ _ _ hc hq, if_neg hb, if_neg hctl]
    exact ih h

/-- A value is read in the same way before any other input that does not begin with white space. -/
theorem valueFrom_local {first : Option Nat} {stop pos covered : Nat} {input : Bytes} {s : Span}
    {next : Cursor} (h : valueFrom first stop pos covered input = .done s next) :
    ∃ u : Bytes, input = u ++ cr :: lf :: next.rest ∧ next.pos = pos + u.length + 2 ∧
      ∀ tail : Bytes, tail.head? = next.rest.head? →
        valueFrom first stop pos covered (u ++ cr :: lf :: tail) = .done s ⟨next.pos, tail⟩ := by
  fun_induction valueFrom first stop pos covered input with
  | case1 => cases h
  | case2 first stop pos b rest n ih =>
    obtain ⟨u, hu, hp, ht⟩ := ih h
    refine ⟨b :: u, by simp [hu], by simp [hp]; omega, fun tail hh => ?_⟩
    rw [List.cons_append, valueFrom_covered]
    exact ht tail hh
  | case3 => cases h
  | case4 => cases h
  | case5 first stop pos x rest hx ih =>
    obtain ⟨u, hu, hp, ht⟩ := ih h
    refine ⟨cr :: lf :: x :: u, by simp [hu], by simp [hp]; omega, fun tail hh => ?_⟩
    simp only [List.cons_append]
    rw [valueFrom_fold _ _ _ _ hx]
    exact ht tail hh
  | case6 first stop pos x rest hx =>
    cases h
    refine ⟨[], rfl, rfl, fun tail hh => ?_⟩
    obtain ⟨t, rfl⟩ := List.head?_eq_some_iff.1 hh
    exact valueFrom_end _ _ _ _ hx
  | case7 => cases h
  | case8 => cases h
  | case9 first stop pos rest n hn _ ih =>
    obtain ⟨u, hu, hp, ht⟩ := ih h
    refine ⟨dquote :: u, by simp [hu], by simp [hp]; omega, fun tail hh => ?_⟩
    have hn' : quotedReach? (u ++ cr :: lf :: tail) = some n := by
      rw [quotedReach?_of_cr u _ (lf :: next.rest), ← hu, hn]
    rw [List.cons_append, valueFrom_quote _ _ _ hn']
    exact ht tail hh
  | case10 first stop pos b rest hc hq hb ih =>
    obtain ⟨u, hu, hp, ht⟩ := ih h
    refine ⟨b :: u, by simp [hu], by simp [hp]; omega, fun tail hh => ?_⟩
    rw [List.cons_append, valueFrom_plain _ _ _ _ hc hq, if_pos hb]
    exact ht tail hh
  | case11 => cases h
  | case12 first stop pos b rest hc hq hb hctl ih =>
    obtain ⟨u, hu, hp, ht⟩ := ih h
    refine ⟨b :: u, by simp [hu], by simp [hp]; omega, fun tail hh => ?_⟩
    rw [List.cons_append, valueFrom_plain _ _ _ _ hc hq, if_neg hb, if_neg hctl]
    exact ht tail hh

/-- The value lies behind `base` when what was found of it so far does, and the line break does not
belong to it. -/
theorem valueFrom_ended {base : Nat} {first : Option Nat} {stop pos covered : Nat} {input : Bytes}
    {s : Span} {next : Cursor} (hfirst : ∀ f ∈ first, base ≤ f ∧ f ≤ stop) (hbase : base ≤ stop)
    (hstop : stop ≤ pos + covered) (h : valueFrom first stop pos covered input = .done s next) :
    s.ended.Within base next.pos := by
  fun_induction valueFrom first stop pos covered input with
  | case2 first stop pos b rest n ih => exact ih hfirst hbase (by omega) h
  | case5 first stop pos x rest hx ih => exact ih hfirst hbase (by omega) h
  | case6 first stop pos x rest hx =>
    cases h
    cases first with
    | none => exact ⟨hbase, by simp [Span.ended, Span.stop]; omega⟩
    | some f =>
      obtain ⟨h₁, h₂⟩ := hfirst f rfl
      exact ⟨h₁, by simp [Span.ended, Span.stop]; omega⟩
  | case9 first stop pos rest n hn _ ih =>
    refine ih (fun f hf => ?_) (by omega) (by omega) h
    cases hf
    cases first with
    | none => simp; omega
    | some f =>
      obtain ⟨h₁, h₂⟩ := hfirst f rfl
      simp; omega
  | case10 first stop pos b rest hc hq hb ih => exact ih hfirst hbase (by omega) h
  | case12 first stop pos b rest hc hq hb hctl ih =>
    refine ih (fun f hf => ?_) (by omega) (by omega) h
    cases hf
    cases first with
    | none => simp; omega
    | some f =>
      obtain ⟨h₁, h₂⟩ := hfirst f rfl
      simp; omega
  | case1 | case3 | case4 | case7 | case8 | case11 => cases h

theorem steady_fieldValue : fieldValue.Steady := fun _ later h => valueFrom_append later h

theorem local_fieldValue : fieldValue.Local := by
  intro c s next h
  obtain ⟨u, hu, hp, ht⟩ := valueFrom_local h
  refine ⟨u ++ [cr, lf], by simp [hu], by simp [hp]; omega, fun tail hh => ?_⟩
  rw [List.append_assoc]
  exact ht tail hh

theorem fieldValue_ended {c next : Cursor} {s : Span} (h : fieldValue c = .done s next) :
    s.ended.Within c.pos next.pos :=
  valueFrom_ended (by simp) (Nat.le_refl _) (Nat.le_refl _) h

end Value

/-- Both places of a field lie between two places. -/
def Field.Within (f : Field) (first last : Nat) : Prop :=
  f.name.Within first last ∧ f.value.Within first last

theorem Field.Within.mono {f : Field} {first last first' last' : Nat} (h : f.Within first last)
    (hf : first' ≤ first) (hl : last ≤ last') : f.Within first' last' :=
  ⟨h.1.mono hf hl, h.2.mono hf hl⟩

theorem steady_fieldLine : fieldLine.Steady :=
  steady_fieldName.bind fun _ => steady_fieldValue.bind fun _ => steady_pure _

theorem local_fieldLine : fieldLine.Local :=
  local_fieldName.bind fun _ => local_fieldValue.bind fun _ => (closed_pure _).toLocal

/-- The places of a field, in order. -/
def Field.spans (f : Field) : List Span := [f.name, f.value]

theorem fieldLine_apart {c next : Cursor} {f : Field} (h : fieldLine c = .done f next) :
    Span.Apart c.pos next.pos f.spans := by
  obtain ⟨name, m₁, h₁, h⟩ := bind_eq_done h
  obtain ⟨value, m₂, h₂, h⟩ := bind_eq_done h
  obtain ⟨rfl, rfl⟩ := pure_eq_done h
  obtain ⟨hstart, hstop⟩ := fieldName_ended h₁
  obtain ⟨hstart', hstop'⟩ := fieldValue_ended h₂
  exact ⟨hstart, Nat.le_trans hstop hstart', hstop'⟩

section FieldSection

variable {full : Nat → Option ParseError} {count : Nat} {c : Cursor}

theorem fieldSection_cr (h : c.rest.head? = some cr) :
    fieldSection full count c = ([], lineEnd .invalidField c) := by
  obtain ⟨rest, hr⟩ := List.head?_eq_some_iff.1 h
  rw [fieldSection]
  simp [hr]

theorem fieldSection_done {b : UInt8} {field : Field} {next : Cursor}
    (hh : c.rest.head? = some b) (hb : b ≠ cr) (hl : fieldLine c = .done field next)
    (hf : full count = none) :
    fieldSection full count c =
      (field :: (fieldSection full (count + 1) next).1,
        (fieldSection full (count + 1) next).2) := by
  obtain ⟨rest, hr⟩ := List.head?_eq_some_iff.1 hh
  rw [fieldSection]
  simp only [hr, if_neg hb]
  split
  · rename_i field' next' hl'
    cases hl.symm.trans hl'
    simp only [hf]
  · rename_i hl'
    cases hl.symm.trans hl'
  · rename_i hl'
    cases hl.symm.trans hl'

theorem fieldSection_full {b : UInt8} {field : Field} {next : Cursor} {cause : ParseError}
    (hh : c.rest.head? = some b) (hb : b ≠ cr) (hl : fieldLine c = .done field next)
    (hf : full count = some cause) : fieldSection full count c = ([], .fail cause) := by
  obtain ⟨rest, hr⟩ := List.head?_eq_some_iff.1 hh
  rw [fieldSection]
  simp only [hr, if_neg hb]
  split
  · simp only [hf]
  · rename_i hl'
    cases hl.symm.trans hl'
  · rename_i hl'
    cases hl.symm.trans hl'

theorem fieldSection_fail {b : UInt8} {cause : ParseError} (hh : c.rest.head? = some b)
    (hb : b ≠ cr) (hl : fieldLine c = .fail cause) :
    fieldSection full count c = ([], .fail cause) := by
  obtain ⟨rest, hr⟩ := List.head?_eq_some_iff.1 hh
  rw [fieldSection]
  simp only [hr, if_neg hb]
  split
  · rename_i hl'
    cases hl.symm.trans hl'
  · rename_i hl'
    cases hl.symm.trans hl'
  · rename_i hl'
    cases hl.symm.trans hl'
    rfl

theorem fieldSection_append (later : Bytes) (h : (fieldSection full count c).2 ≠ .more) :
    fieldSection full count (c.append later) =
      ((fieldSection full count c).1, (fieldSection full count c).2.append later) := by
  fun_induction fieldSection full count c with
  | case1 => exact absurd rfl h
  | case2 count c rest hr =>
    rw [fieldSection_cr (by simp [hr])]
    exact Prod.ext rfl (steady_lineEnd _ c later h)
  | case3 count c b rest hr hb field next hl cause hf =>
    rw [fieldSection_full (b := b) (by simp [hr]) hb (steady_fieldLine.done later hl) hf]
    rfl
  | case4 count c b rest hr hb field next hl hf fields outcome ho ih =>
    rw [fieldSection_done (b := b) (by simp [hr]) hb (steady_fieldLine.done later hl) hf]
    rw [ho] at ih
    rw [ih h]
  | case5 => exact absurd rfl h
  | case6 count c b rest hr hb cause hl =>
    rw [fieldSection_fail (b := b) (by simp [hr]) hb (steady_fieldLine.fail later hl)]
    rfl

/-- Fields that were read stay when more bytes arrive. -/
theorem fieldSection_prefix (later : Bytes) :
    (fieldSection full count c).1 <+: (fieldSection full count (c.append later)).1 := by
  fun_induction fieldSection full count c with
  | case4 count c b rest hr hb field next hl hf fields outcome ho ih =>
    rw [fieldSection_done (b := b) (by simp [hr]) hb (steady_fieldLine.done later hl) hf]
    rw [ho] at ih
    exact List.cons_prefix_cons.2 ⟨rfl, ih⟩
  | case1 | case2 | case3 | case5 | case6 => exact List.nil_prefix

/-- A field section ends with an empty line. -/
theorem fieldSection_takes {fields : List Field} {next : Cursor}
    (h : fieldSection full count c = (fields, .done () next)) : c.pos + 2 ≤ next.pos := by
  fun_induction fieldSection full count c generalizing fields with
  | case2 => exact (takes_lineEnd _).pos_le (advances_lineEnd _).forward (congrArg Prod.snd h)
  | case4 count c b rest hr hb field mid hl hf found outcome ho ih =>
    cases h
    have hfirst := advances_fieldLine.pos_lt hl
    have hlater := ih ho
    omega
  | case1 | case3 | case5 | case6 => cases h

/-- A field section is read in the same way before any other input. -/
theorem fieldSection_sealed {fields : List Field} {next : Cursor}
    (h : fieldSection full count c = (fields, .done () next)) :
    ∃ taken : Bytes, taken ≠ [] ∧ c.rest = taken ++ next.rest ∧
      next.pos = c.pos + taken.length ∧ ∀ tail : Bytes,
        fieldSection full count ⟨c.pos, taken ++ tail⟩ = (fields, .done () ⟨next.pos, tail⟩) := by
  fun_induction fieldSection full count c generalizing fields with
  | case2 count c rest hr =>
    obtain ⟨hf, hl⟩ := Prod.mk.inj h
    subst hf
    obtain ⟨t, ht, pt, tt⟩ := closed_lineEnd _ _ _ _ hl
    have nt := (advances_lineEnd _).taken_ne_nil hl ht
    refine ⟨t, nt, ht, pt, fun tail => ?_⟩
    have hh : (t ++ tail).head? = some cr := by
      rw [head?_append_of_ne_nil nt tail next.rest, ← ht, hr]
      rfl
    rw [fieldSection_cr hh, tt tail]
  | case4 count c b rest hr hb field mid hl hf found outcome ho ih =>
    cases h
    obtain ⟨t, nt, ht, pt, tt⟩ := ih ho
    obtain ⟨s, hs, ps, ts⟩ := local_fieldLine _ _ _ hl
    have ns := advances_fieldLine.taken_ne_nil hl hs
    refine ⟨s ++ t, by simp [nt], by simp [hs, ht], by simp [ps, pt]; omega, fun tail => ?_⟩
    have hh : (s ++ t ++ tail).head? = some b := by
      rw [List.append_assoc, head?_append_of_ne_nil ns (t ++ tail) mid.rest, ← hs, hr]
      rfl
    have hline : fieldLine ⟨c.pos, s ++ t ++ tail⟩ = .done field ⟨mid.pos, t ++ tail⟩ := by
      rw [List.append_assoc]
      apply ts
      rw [ht]
      exact head?_append_of_ne_nil nt _ _
    rw [fieldSection_done hh hb hline hf, tt tail]
  | case1 | case3 | case5 | case6 => cases h

/-- Names and values of the fields lie in front of what comes next, in order. -/
theorem fieldSection_apart {fields : List Field} {next : Cursor}
    (h : fieldSection full count c = (fields, .done () next)) :
    Span.Apart c.pos next.pos (fields.flatMap Field.spans) := by
  fun_induction fieldSection full count c generalizing fields with
  | case2 count c rest hr =>
    obtain ⟨hf, hl⟩ := Prod.mk.inj h
    subst hf
    exact (advances_lineEnd _).forward.pos_le hl
  | case4 count c b rest hr hb field mid hl hf found outcome ho ih =>
    cases h
    exact (fieldLine_apart hl).append (ih ho)
  | case1 | case3 | case5 | case6 => cases h

theorem fieldSection_within {fields : List Field} {next : Cursor}
    (h : fieldSection full count c = (fields, .done () next)) :
    c.pos ≤ next.pos ∧ ∀ f ∈ fields, f.Within c.pos next.pos := by
  have ha := fieldSection_apart h
  refine ⟨Span.Chain.le ha, fun f hf => ?_⟩
  have hw (s : Span) (hs : s ∈ f.spans) : s.Within c.pos next.pos :=
    ha.within s (List.mem_flatMap.2 ⟨f, hf, hs⟩)
  exact ⟨hw f.name (by simp [Field.spans]), hw f.value (by simp [Field.spans])⟩

/-- The fields that were read lie in the input, in order, also where a later line is refused or
missing. -/
theorem fieldSection_reach :
    Span.Apart c.pos (c.pos + c.rest.length)
      ((fieldSection full count c).1.flatMap Field.spans) := by
  fun_induction fieldSection full count c with
  | case4 count c b rest hr hb field mid hl hf found outcome ho ih =>
    rw [ho, advances_fieldLine.forward.reach hl] at ih
    exact (fieldLine_apart hl).append ih
  | case1 | case2 | case3 | case5 | case6 => exact Nat.le_add_right _ _

/-- No more fields are read than there may be. -/
theorem fieldSection_few {capacity : Nat} (hfull : ∀ n, full n = none → n < capacity)
    (hc : count ≤ capacity) : count + (fieldSection full count c).1.length ≤ capacity := by
  fun_induction fieldSection full count c with
  | case4 count c b rest hr hb field mid hl hf found outcome ho ih =>
    have hlt := hfull count hf
    rw [ho] at ih
    have hfew : count + 1 + found.length ≤ capacity := ih hlt
    simp only [List.length_cons]
    omega
  | case1 | case2 | case3 | case5 | case6 => exact hc

end FieldSection

end OriginServer.Http
