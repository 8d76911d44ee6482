import OriginServer.Proofs.Http.FieldGrammar

namespace OriginServer.Http

open Ascii Scanner FieldList TransferCoding Chunked

/-- A value that is read as it stands: on one line, and without white space at its ends. -/
structure CleanValue (value : Bytes) : Prop where
  plain : ∀ b ∈ value, b = htab ∨ isControl b = false
  head : ∀ b ∈ value.head?, isBlank b = false
  last : ∀ b ∈ value.getLast?, isBlank b = false

section Value

theorem cleanValue_iff {value : Bytes} :
    CleanValue value ↔
      (value.all fun b => b == htab || !isControl b) = true ∧
        (value.head?.all fun b => !isBlank b) = true ∧
        (value.getLast?.all fun b => !isBlank b) = true := by
  simp only [List.all_eq_true, Option.all_eq_true, Bool.or_eq_true, beq_iff_eq,
    Bool.not_eq_true']
  exact ⟨fun h => ⟨h.plain, h.head, h.last⟩, fun h => ⟨h.1, h.2.1, h.2.2⟩⟩

instance (value : Bytes) : Decidable (CleanValue value) := decidable_of_iff _ cleanValue_iff.symm

theorem CleanValue.append {a b : Bytes} (ha : CleanValue a) (hb : CleanValue b) :
    CleanValue (a ++ b) := by
  refine ⟨List.forall_mem_append.2 ⟨ha.plain, hb.plain⟩, fun x hx => ?_, fun x hx => ?_⟩
  · rw [List.head?_append, Option.mem_def, Option.or_eq_some_iff] at hx
    rcases hx with hx | ⟨-, hx⟩
    · exact ha.head x hx
    · exact hb.head x hx
  · rw [List.getLast?_append, Option.mem_def, Option.or_eq_some_iff] at hx
    rcases hx with hx | ⟨-, hx⟩
    · exact hb.last x hx
    · exact ha.last x hx

/-- A blank is clean between other bytes. -/
theorem CleanValue.append_blank {a b : Bytes} (ha : CleanValue a) (hb : CleanValue b)
    (hn : a ≠ []) (hn' : b ≠ []) : CleanValue (a ++ sp :: b) := by
  refine ⟨List.forall_mem_append.2 ⟨ha.plain, List.forall_mem_cons.2 ⟨.inr (by decide), hb.plain⟩⟩,
    ?_, ?_⟩
  · rw [List.head?_append_of_ne_nil _ hn]
    exact ha.head
  · rw [List.getLast?_append_cons, List.getLast?_cons_of_ne_nil hn']
    exact hb.last

theorem cleanValue_of_digits {value : Bytes} (h : ∀ b ∈ value, isDigit b = true) :
    CleanValue value := by
  have hc : ∀ b ∈ value, isControl b = false ∧ isBlank b = false := by
    intro b hb
    have hd := h b hb
    simp only [isDigit, Bool.and_eq_true, decide_eq_true_eq, UInt8.le_iff_toNat_le,
      UInt8.reduceToNat] at hd
    simp only [isControl, isBlank, sp, htab, Bool.or_eq_false_iff, decide_eq_false_iff_not,
      beq_eq_false_iff_ne, UInt8.lt_iff_toNat_lt, ne_eq, ← UInt8.toNat_inj, UInt8.reduceToNat]
    omega
  exact ⟨fun b hb => .inr (hc b hb).1, fun b hb => (hc b (List.mem_of_head? hb)).2,
    fun b hb => (hc b (List.mem_of_getLast? hb)).2⟩

theorem fieldText_of_bytes {bytes : Bytes} (h : ∀ b ∈ bytes, TextByte b) : FieldText bytes := by
  induction bytes with
  | nil => exact .nil
  | cons b bytes ih =>
    obtain ⟨hb, hbytes⟩ := List.forall_mem_cons.1 h
    exact .byte hb (ih hbytes)

theorem CleanValue.fieldText {value : Bytes} (h : CleanValue value) : FieldText (sp :: value) :=
  fieldText_of_bytes (List.forall_mem_cons.2 ⟨.inr (by decide), h.plain⟩)

/-- Behind a space, a clean value is found as it is. -/
theorem CleanValue.trim {value : Bytes} (h : CleanValue value) :
    Bytes.trim isFoldedBlank (sp :: value) = value := by
  have hhead : ∀ b ∈ value.head?, isFoldedBlank b = false := fun b hb =>
    (isFoldedBlank_textByte (h.plain b (List.mem_of_head? hb))).trans (h.head b hb)
  have hlast : ∀ b ∈ value.reverse.head?, isFoldedBlank b = false := by
    rw [List.head?_reverse]
    exact fun b hb =>
      (isFoldedBlank_textByte (h.plain b (List.mem_of_getLast? hb))).trans (h.last b hb)
  have hsp : Blanks [sp] := List.forall_mem_singleton.2 (by decide)
  have hfront : (sp :: value).dropWhile isFoldedBlank = value := dropWhile_blanks hsp hhead
  have hback : value.reverse.dropWhile isFoldedBlank = value.reverse :=
    dropWhile_blanks (List.forall_mem_nil _) hlast
  rw [Bytes.trim, hfront, hback, List.reverse_reverse]

end Value

/-- A field on the wire. -/
def written (f : Bytes × Bytes) : Bytes := f.1 ++ colon :: sp :: (f.2 ++ [cr, lf])

/-- A field that is written is a line of the grammar, and is found as it was written. -/
theorem fieldLine_written {name value : Bytes} {x : UInt8} (hn : isToken name = true)
    (hv : CleanValue value) (hx : isBlank x = false) (front tail : Bytes) :
    ∃ f : Field,
      fieldLine ⟨front.length, written (name, value) ++ x :: tail⟩ =
        .done f ⟨front.length + (written (name, value)).length, x :: tail⟩ ∧
      let input := front ++ (written (name, value) ++ x :: tail)
      (f.name.of input, f.value.of input) = (name, value) := by
  have hblank : Blank [] := List.forall_mem_nil _
  let l : FieldLine := ⟨⟨[], name, [], hblank, hn, hblank⟩, sp :: value, x, hv.fieldText, hx⟩
  have hbytes : l.bytes = written (name, value) := by
    simp only [l, FieldLine.bytes, LineStart.bytes, written, List.nil_append, List.append_assoc,
      List.cons_append]
  have hinput : written (name, value) ++ x :: tail = l.shown ++ tail := by
    rw [FieldLine.shown, hbytes, List.append_assoc, List.singleton_append]
  have hstart : front.length + l.toLineStart.bytes.length =
      (front ++ l.toLineStart.bytes).length := List.length_append.symm
  have hsplit : front ++ (l.shown ++ tail) =
      (front ++ l.toLineStart.bytes) ++ (l.text ++ (cr :: lf :: x :: tail)) := by
    simp only [l, FieldLine.shown, FieldLine.bytes, List.append_assoc, List.cons_append,
      List.nil_append]
  have hdone := fieldLine_complete l front.length tail
  rw [hbytes, ← hinput] at hdone
  refine ⟨_, hdone, Prod.ext ?_ ?_⟩
  · rw [written, List.append_assoc]
    exact Span.of_middle rfl rfl _
  · dsimp only
    rw [hinput, hsplit, hstart, of_valuePlace]
    exact hv.trim

section Fields

variable {full : Nat → Option ParseError}

/-- Behind a field comes another name or the empty line. -/
theorem fields_head {fields : List (Bytes × Bytes)}
    (hf : ∀ f ∈ fields, isToken f.1 = true ∧ CleanValue f.2) (rest : Bytes) :
    ∃ x tail, fields.flatMap written ++ cr :: lf :: rest = x :: tail ∧ isBlank x = false := by
  cases fields with
  | nil => exact ⟨cr, lf :: rest, rfl, by decide⟩
  | cons f fields =>
    obtain ⟨name, value⟩ := f
    have hn : isToken name = true := (hf _ List.mem_cons_self).1
    obtain ⟨hne, hall⟩ := isToken_iff.1 hn
    obtain ⟨b, t, rfl⟩ := List.exists_cons_of_ne_nil hne
    exact ⟨b, _, rfl, isBlank_of_token (hall b List.mem_cons_self)⟩

/-- Fields that are written, up to the empty line behind them, and what they hold. -/
theorem fieldSection_written {fields : List (Bytes × Bytes)}
    (hf : ∀ f ∈ fields, isToken f.1 = true ∧ CleanValue f.2) {count : Nat}
    (hfull : ∀ i < fields.length, full (count + i) = none) (front rest : Bytes) :
    ∃ found : List Field,
      fieldSection full count ⟨front.length, fields.flatMap written ++ cr :: lf :: rest⟩ =
        (found, .done () ⟨front.length + (fields.flatMap written).length + 2, rest⟩) ∧
      found.map (fun f =>
        let input := front ++ (fields.flatMap written ++ cr :: lf :: rest)
        (f.name.of input, f.value.of input)) = fields := by
  -- The front takes in each line that was read, so places stay places in the whole input.
  induction fields generalizing count front with
  | nil =>
    refine ⟨[], ?_, rfl⟩
    rw [fieldSection_cr rfl]
    rfl
  | cons f fields ih =>
    obtain ⟨name, value⟩ := f
    obtain ⟨hnv, hfs⟩ := List.forall_mem_cons.1 hf
    obtain ⟨hn, hv⟩ : isToken name = true ∧ CleanValue value := hnv
    obtain ⟨x, tail, ht, hx⟩ := fields_head hfs rest
    obtain ⟨line, hline, hplaces⟩ := fieldLine_written hn hv hx front tail
    obtain ⟨b, hb, hbcr⟩ : ∃ b, (written (name, value) ++ x :: tail).head? = some b ∧ b ≠ cr := by
      obtain ⟨hne, hall⟩ := isToken_iff.1 hn
      obtain ⟨b, t, rfl⟩ := List.exists_cons_of_ne_nil hne
      refine ⟨b, rfl, ?_⟩
      rintro rfl
      exact absurd (hall cr List.mem_cons_self) (by decide)
    have hfull₀ : full count = none := hfull 0 (by simp)
    have hfull₁ : ∀ i < fields.length, full (count + 1 + i) = none := by
      intro i hi
      rw [Nat.add_assoc, Nat.add_comm 1 i]
      exact hfull (i + 1) (by rw [List.length_cons]; omega)
    obtain ⟨found, hfound, hmap⟩ := ih hfs hfull₁ (front ++ written (name, value))
    rw [List.length_append, ht] at hfound
    have hw : ((name, value) :: fields).flatMap written ++ cr :: lf :: rest =
        written (name, value) ++ x :: tail := by
      rw [List.flatMap_cons, List.append_assoc, ht]
    refine ⟨line :: found, ?_, ?_⟩
    · rw [hw, fieldSection_done hb hbcr hline hfull₀, hfound, List.flatMap_cons, List.length_append,
        Nat.add_assoc front.length]
    · rw [List.append_assoc, ht] at hmap
      rw [List.map_cons]
      dsimp only at hplaces hmap ⊢
      rw [hw, hplaces, hmap]

end Fields

end OriginServer.Http
