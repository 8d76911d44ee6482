import OriginServer.Http.StoredMessage
import OriginServer.Proofs.Http.Respacing

namespace OriginServer.Http

open Ascii

namespace TransferCoding

open FieldList

theorem codingLists_iff {values codings : List Bytes} :
    (∃ names, List.Forall₂ CodingList names values ∧ names.flatten = codings) ↔
      List.Forall₂ Coding codings (values.flatMap contents) := by
  induction values generalizing codings with
  | nil => simp [eq_comm]
  | cons v values ih =>
    rw [List.flatMap_cons]
    constructor
    · rintro ⟨names, hn, rfl⟩
      obtain ⟨front, back, hv, hback, rfl⟩ := List.forall₂_cons_right_iff.1 hn
      exact List.rel_append (codingList_iff.1 hv) (ih.1 ⟨back, hback, rfl⟩)
    · intro hc
      obtain ⟨names, hn, hflat⟩ := ih.2 (List.forall₂_drop_append _ _ _ hc)
      refine ⟨_ :: names, .cons (codingList_iff.2 (List.forall₂_take_append _ _ _ hc)) hn, ?_⟩
      rw [List.flatten_cons, hflat, List.take_append_drop]

end TransferCoding

namespace ContentLength

open FieldList

/-- No quotes and no semicolons stand in a list of lengths. -/
theorem LengthList.plain {n : Nat} {value : Bytes} (h : LengthList n value) :
    ∀ b ∈ value, b ≠ dquote ∧ b ≠ semicolon := by
  obtain ⟨items, hl, hd⟩ := h
  refine hl.forall_mem (fun b hb => ?_) (by decide) fun item hi b hb => ?_
  · constructor <;> rintro rfl <;> exact absurd hb (by decide)
  · have hdigit := (hd item hi).2.1 b hb
    constructor <;> rintro rfl <;> exact absurd hdigit (by decide)

theorem LengthList.settled {n : Nat} {value : Bytes} (h : LengthList n value) : Settled value :=
  settled_of_plain fun b hb => (h.plain b hb).1

theorem lengthList_joined {n : Nat} {values : List Bytes} (hn : values ≠ []) :
    LengthList n (joined values) ↔ ∀ v ∈ values, LengthList n v := by
  have hheld (hs : ∀ v ∈ values, Settled v) : contents (joined values) = values.flatMap contents :=
    cutter_pieces.held_joined hn hs
  constructor
  · intro h v hv
    have hs : ∀ w ∈ values, Settled w := fun w hw =>
      settled_of_plain fun b hb => (h.plain b (mem_joined hw hb)).1
    rw [lengthList_iff, hheld hs] at h
    exact lengthList_iff.2 fun item hi => h item (List.mem_flatMap.2 ⟨v, hv, hi⟩)
  · intro h
    rw [lengthList_iff, hheld fun v hv => (h v hv).settled]
    intro item hi
    obtain ⟨v, hv, hi⟩ := List.mem_flatMap.1 hi
    exact lengthList_iff.1 (h v hv) item hi

theorem lengthList_atEdge {n : Nat} {v v' : Bytes} (h : Respaced AtEdge v v') :
    LengthList n v ↔ LengthList n v' := by
  have hc : contents v = contents v' := cutter_pieces.held_respaced (fun _ => id) h
  rw [lengthList_iff, lengthList_iff, hc]

theorem lengthList_atSemicolon {n : Nat} {v v' : Bytes} (h : Respaced AtSemicolon v v') :
    LengthList n v ↔ LengthList n v' := by
  have hnone {u u' : Bytes} (h : Respaced AtSemicolon u u') : ¬ LengthList n u := fun hl =>
    (hl.plain semicolon h.semicolon_mem).2 rfl
  exact ⟨fun hl => absurd hl (hnone h), fun hl => absurd hl (hnone h.symm)⟩

end ContentLength

namespace Framing

open FieldList TransferCoding ContentLength

variable {fields fields' : List (Bytes × Bytes)}

theorem valuesOf_of_sameLetters {key name : String}
    (h : (Bytes.ofText key).sameLetters (Bytes.ofText name) = true)
    (fields : List (Bytes × Bytes)) :
    valuesOf key fields = valuesOf name fields := by
  have hletters := beq_iff_eq.1 h
  simp only [valuesOf, Bytes.sameLetters, hletters]

/-- The fields of all other names are the same. -/
def SameBut (name : String) (fields fields' : List (Bytes × Bytes)) : Prop :=
  (fields.filter fun f => !f.1.sameLetters (Bytes.ofText name)) =
    fields'.filter fun f => !f.1.sameLetters (Bytes.ofText name)

theorem SameBut.valuesOf_eq {key name : String} (h : SameBut name fields fields')
    (hk : (Bytes.ofText key).sameLetters (Bytes.ofText name) = false) :
    valuesOf key fields = valuesOf key fields' := by
  have hkey (fields : List (Bytes × Bytes)) : valuesOf key fields =
      valuesOf key (fields.filter fun f => !f.1.sameLetters (Bytes.ofText name)) := by
    rw [valuesOf, valuesOf, List.filter_filter]
    congr 1
    refine List.filter_congr fun f _ => ?_
    cases hf : f.1.sameLetters (Bytes.ofText key) with
    | false => rfl
    | true =>
      cases hn : f.1.sameLetters (Bytes.ofText name) with
      | false => rfl
      | true =>
        simp only [Bytes.sameLetters, beq_iff_eq] at hf hn
        rw [Bytes.sameLetters, ← hf, hn, beq_self_eq_true] at hk
        cases hk
  rw [hkey fields, h, ← hkey]

/-- The values together are a list of these codings. -/
def Codes (codings values : List Bytes) : Prop :=
  List.Forall₂ Coding codings (values.flatMap contents)

theorem codings_iff_codes {codings : List Bytes} :
    Framing.codings fields = .ok codings ↔ Codes codings (valuesOf "transfer-encoding" fields) :=
  Framing.codings_iff.trans codingLists_iff

theorem SameBut.decide_eq {name : String} (h : SameBut name fields fields')
    (hc : (Bytes.ofText "transfer-encoding").sameLetters (Bytes.ofText name) = true →
      ∀ codings, Codes codings (valuesOf name fields) ↔ Codes codings (valuesOf name fields'))
    (hn : valuesOf name fields = [] ↔ valuesOf name fields' = [])
    (hl : ∀ n, (∀ v ∈ valuesOf name fields, LengthList n v) ↔
      ∀ v ∈ valuesOf name fields', LengthList n v) :
    Framing.decide fields = Framing.decide fields' := by
  refine decide_congr (fun codings => ?_) fun l => ?_
  · rw [codings_iff_codes, codings_iff_codes]
    cases hk : (Bytes.ofText "transfer-encoding").sameLetters (Bytes.ofText name) with
    | false => rw [h.valuesOf_eq hk]
    | true =>
      rw [valuesOf_of_sameLetters hk, valuesOf_of_sameLetters hk]
      exact hc hk codings
  · cases hk : (Bytes.ofText "content-length").sameLetters (Bytes.ofText name) with
    | false =>
      rw [contentLength, contentLength, h.valuesOf_eq hk]
    | true =>
      cases l with
      | none =>
        rw [contentLength_none, contentLength_none, valuesOf_of_sameLetters hk,
          valuesOf_of_sameLetters hk]
        exact hn
      | some n =>
        rw [contentLength_some, contentLength_some, valuesOf_of_sameLetters hk,
          valuesOf_of_sameLetters hk, ne_eq, ne_eq, hn, hl n]

theorem codes_joined {before run after codings : List Bytes} (hn : run ≠ [])
    (hs : ∀ v ∈ run, Settled v) :
    Codes codings (before ++ run ++ after) ↔ Codes codings (before ++ joined run :: after) := by
  have hc : contents (joined run) = run.flatMap contents := cutter_pieces.held_joined hn hs
  simp only [Codes, List.flatMap_append, List.flatMap_cons, hc, List.append_assoc]

theorem codes_atEdge {before after codings : List Bytes} {v v' : Bytes}
    (h : Respaced AtEdge v v') :
    Codes codings (before ++ v :: after) ↔ Codes codings (before ++ v' :: after) := by
  have hc : contents v = contents v' := cutter_pieces.held_respaced (fun _ => id) h
  simp only [Codes, List.flatMap_append, List.flatMap_cons, hc]

theorem codes_atSemicolon {before after codings : List Bytes} {v v' : Bytes}
    (h : Respaced AtSemicolon v v') (hc : Codes codings (before ++ v :: after)) :
    Codes codings (before ++ v' :: after) := by
  simp only [Codes, List.flatMap_append, List.flatMap_cons] at hc ⊢
  exact forall₂_coding_alike (List.rel_append (forall₂_alike_refl _)
    (List.rel_append (contents_alike h) (forall₂_alike_refl _))) hc

end Framing

namespace StoredMessage

open FieldList Framing

/-- What the values hold when every comma counts. -/
def words (value : Bytes) : List Bytes := held (List.splitOnP (· == comma)) value

theorem hasWord_iff {m : StoredMessage} {name word : String} :
    m.hasWord name word = true ↔ ∃ item ∈ (valuesOf name m.fields).flatMap words,
      item.sameLetters (Bytes.ofText word) = true := by
  have hvalues : m.values name = valuesOf name m.fields := rfl
  simp only [hasWord, hvalues, List.any_eq_true, List.mem_flatMap, words, held, List.mem_map]
  constructor
  · rintro ⟨value, hv, piece, hp, hw⟩
    exact ⟨_, ⟨value, hv, piece, hp, rfl⟩, hw⟩
  · rintro ⟨_, ⟨value, hv, piece, hp, rfl⟩, hw⟩
    exact ⟨value, hv, piece, hp, hw⟩

/-- Messages with these fields have the same words in the fields of each name. -/
def SameWords (fields fields' : List (Bytes × Bytes)) : Prop :=
  ∀ m m' : StoredMessage, m.fields = fields → m'.fields = fields' →
    ∀ key word, m.hasWord key word = m'.hasWord key word

theorem sameWords_of_mem {name : String} {fields fields' : List (Bytes × Bytes)}
    (hothers : SameBut name fields fields')
    (h : ∀ item, item ∈ (valuesOf name fields).flatMap words ↔
      item ∈ (valuesOf name fields').flatMap words) : SameWords fields fields' := by
  rintro m m' rfl rfl key word
  rw [Bool.eq_iff_iff, hasWord_iff, hasWord_iff]
  cases hk : (Bytes.ofText key).sameLetters (Bytes.ofText name) with
  | false => rw [hothers.valuesOf_eq hk]
  | true =>
    rw [valuesOf_of_sameLetters hk, valuesOf_of_sameLetters hk]
    simp only [h]

end StoredMessage

namespace FieldList

open Framing ContentLength StoredMessage

variable {name : String} {fields fields' : List (Bytes × Bytes)}

section Joined

variable {run others : List Bytes}

theorem sameWords_of_perm (hothers : SameBut name fields fields') (hn : run ≠ [])
    (hv : (valuesOf name fields).Perm (run ++ others))
    (hv' : (valuesOf name fields').Perm (joined run :: others)) : SameWords fields fields' := by
  have hw : words (joined run) = run.flatMap words :=
    cutter_splitOnP.held_joined hn fun _ _ => trivial
  refine sameWords_of_mem hothers fun item => ?_
  rw [(hv.flatMap_right words).mem_iff, (hv'.flatMap_right words).mem_iff, List.flatMap_append,
    List.flatMap_cons, hw]

/-- The order of lengths does not count. -/
theorem decide_of_perm (hothers : SameBut name fields fields') (hn : run ≠ [])
    (hv : (valuesOf name fields).Perm (run ++ others))
    (hv' : (valuesOf name fields').Perm (joined run :: others))
    (hk : (Bytes.ofText "transfer-encoding").sameLetters (Bytes.ofText name) = false) :
    Framing.decide fields = Framing.decide fields' := by
  refine hothers.decide_eq (fun h => by rw [hk] at h; cases h) ?_ fun n => ?_
  · have hne : valuesOf name fields ≠ [] := by
      intro he
      rw [he, List.nil_perm] at hv
      exact hn (List.append_eq_nil_iff.1 hv).1
    have hne' : valuesOf name fields' ≠ [] := by
      intro he
      rw [he, List.nil_perm] at hv'
      cases hv'
    exact iff_of_false hne hne'
  · have hmem : (∀ v ∈ valuesOf name fields, LengthList n v) ↔
        ∀ v ∈ run ++ others, LengthList n v :=
      forall_congr' fun v => imp_congr_left hv.mem_iff
    have hmem' : (∀ v ∈ valuesOf name fields', LengthList n v) ↔
        ∀ v ∈ joined run :: others, LengthList n v :=
      forall_congr' fun v => imp_congr_left hv'.mem_iff
    rw [hmem, hmem', List.forall_mem_append, List.forall_mem_cons, lengthList_joined hn]

theorem decide_of_joined {before after : List Bytes} (hothers : SameBut name fields fields')
    (hn : run ≠ []) (hs : ∀ v ∈ run, Settled v)
    (hv : valuesOf name fields = before ++ run ++ after)
    (hv' : valuesOf name fields' = before ++ joined run :: after) :
    Framing.decide fields = Framing.decide fields' := by
  refine hothers.decide_eq (fun _ codings => ?_) ?_ fun n => ?_
  · rw [hv, hv']
    exact codes_joined hn hs
  · rw [hv, hv']
    simp [hn]
  · rw [hv, hv', List.forall_mem_append, List.forall_mem_append, List.forall_mem_append,
      List.forall_mem_cons, lengthList_joined hn, and_assoc]

end Joined

section Respaced

variable {before after : List Bytes} {v v' : Bytes}

/-- Values that are read alike may stand for each other. -/
theorem decide_of_value (hothers : SameBut name fields fields')
    (hv : valuesOf name fields = before ++ v :: after)
    (hv' : valuesOf name fields' = before ++ v' :: after)
    (hc : ∀ codings, Codes codings (before ++ v :: after) ↔ Codes codings (before ++ v' :: after))
    (hl : ∀ n, LengthList n v ↔ LengthList n v') :
    Framing.decide fields = Framing.decide fields' := by
  refine hothers.decide_eq (fun _ => ?_) ?_ fun n => ?_
  · rw [hv, hv']
    exact hc
  · rw [hv, hv']
    simp
  · rw [hv, hv', List.forall_mem_append, List.forall_mem_append, List.forall_mem_cons,
      List.forall_mem_cons, hl n]

theorem sameWords_atEdge (hothers : SameBut name fields fields')
    (hv : valuesOf name fields = before ++ v :: after)
    (hv' : valuesOf name fields' = before ++ v' :: after) (h : Respaced AtEdge v v') :
    SameWords fields fields' := by
  have hw : words v = words v' := cutter_splitOnP.held_respaced (fun _ _ => trivial) h
  refine sameWords_of_mem hothers fun item => ?_
  rw [hv, hv', List.flatMap_append, List.flatMap_append, List.flatMap_cons, List.flatMap_cons, hw]

end Respaced

/-- Fields of one name may be joined, in any place for a length or a word and in their order for
codings whose quoted strings are closed one by one. White space and folds outside quoted strings may
be put in or left out next to commas and at the ends of a value, and next to semicolons for the
framing. The framing stays the same and so does every refusal. -/
theorem layout_immaterial (name : String) (fields fields' : List (Bytes × Bytes))
    (hothers : SameBut name fields fields') :
    (∀ run others, run ≠ [] → (valuesOf name fields).Perm (run ++ others) →
      (valuesOf name fields').Perm (joined run :: others) →
        SameWords fields fields' ∧
          ((Bytes.ofText "transfer-encoding").sameLetters (Bytes.ofText name) = false →
            Framing.decide fields = Framing.decide fields')) ∧
    (∀ before run after, run ≠ [] → (∀ v ∈ run, Settled v) →
      valuesOf name fields = before ++ run ++ after →
      valuesOf name fields' = before ++ joined run :: after →
        Framing.decide fields = Framing.decide fields') ∧
    ∀ before v v' after, valuesOf name fields = before ++ v :: after →
      valuesOf name fields' = before ++ v' :: after →
        (Respaced AtEdge v v' → SameWords fields fields' ∧
          Framing.decide fields = Framing.decide fields') ∧
        (Respaced AtSemicolon v v' → Framing.decide fields = Framing.decide fields') := by
  refine ⟨fun run others hn hv hv' =>
      ⟨sameWords_of_perm hothers hn hv hv', decide_of_perm hothers hn hv hv'⟩,
    fun before run after hn hs hv hv' => decide_of_joined hothers hn hs hv hv',
    fun before v v' after hv hv' => ⟨fun h => ⟨sameWords_atEdge hothers hv hv' h, ?_⟩, fun h => ?_⟩⟩
  · exact decide_of_value hothers hv hv' (fun _ => codes_atEdge h) fun _ => lengthList_atEdge h
  · exact decide_of_value hothers hv hv'
      (fun _ => ⟨codes_atSemicolon h, codes_atSemicolon h.symm⟩) fun _ => lengthList_atSemicolon h

/-- Two codings in two fields or in one, a fold in front of a comma, white space in front of a
semicolon, a quoted string that stays open in a length, and a word of two fields or of one. -/
theorem layout_immaterial_chunked :
    let te := Bytes.ofText "Transfer-Encoding"
    let cl := Bytes.ofText "Content-Length"
    let buffer : Buffer := { store := Bytes.ofText "connectionkeep-alive, Close", length := 27 }
    Framing.decide [(te, Bytes.ofText "gzip;a=\"x,y\""), (te, Bytes.ofText "chunked")] =
        Framing.decide [(te, Bytes.ofText "gzip;a=\"x,y\", chunked")] ∧
      Framing.decide [(te, Bytes.ofText "gzip\r\n\t, chunked")] =
        Framing.decide [(te, Bytes.ofText "gzip, chunked")] ∧
      Framing.decide [(te, Bytes.ofText "gzip ;a=b, chunked")] =
        Framing.decide [(te, Bytes.ofText "gzip;a=b, chunked")] ∧
      Framing.decide [(cl, Bytes.ofText "5"), (cl, Bytes.ofText "\"5")] =
        Framing.decide [(cl, Bytes.ofText "5, \"5")] ∧
      StoredMessage.hasWord
          { config := {}, buffer, parts := { fields := [⟨⟨0, 10⟩, ⟨10, 10⟩⟩, ⟨⟨0, 10⟩, ⟨22, 5⟩⟩] } }
          "Connection" "close" =
        StoredMessage.hasWord
          { config := {}, buffer, parts := { fields := [⟨⟨0, 10⟩, ⟨10, 17⟩⟩] } }
          "Connection" "close" := by
  intro te cl buffer
  refine ⟨?_, ?_, ?_, ?_, ?_⟩
  · exact (layout_immaterial "transfer-encoding" _ _ (by unfold SameBut; decide +kernel)).2.1 []
      [Bytes.ofText "gzip;a=\"x,y\"", Bytes.ofText "chunked"] [] (by decide)
      (List.forall_mem_cons.2 ⟨rfl, List.forall_mem_singleton.2 rfl⟩) (by decide +kernel)
      (by decide +kernel)
  · have hv : Respaced AtEdge (Bytes.ofText "gzip\r\n\t, chunked") (Bytes.ofText "gzip, chunked") :=
      @Respaced.mk AtEdge (Bytes.ofText "gzip") (Bytes.ofText "\r\n\t") []
        (Bytes.ofText ", chunked") rfl (by unfold Blanks; decide +kernel) (List.forall_mem_nil _)
        (.inr (.inr (.inr rfl)))
    exact (((layout_immaterial "transfer-encoding" _ _ (by unfold SameBut; decide +kernel)).2.2 []
      _ _ [] (by decide +kernel) (by decide +kernel)).1 hv).2
  · have hv : Respaced AtSemicolon (Bytes.ofText "gzip ;a=b, chunked")
        (Bytes.ofText "gzip;a=b, chunked") :=
      @Respaced.mk AtSemicolon (Bytes.ofText "gzip") [sp] [] (Bytes.ofText ";a=b, chunked") rfl
        blanks_sp (List.forall_mem_nil _) (.inr rfl)
    exact ((layout_immaterial "transfer-encoding" _ _ (by unfold SameBut; decide +kernel)).2.2 []
      _ _ [] (by decide +kernel) (by decide +kernel)).2 hv
  · exact ((layout_immaterial "content-length" _ _ (by unfold SameBut; decide +kernel)).1
      [Bytes.ofText "5", Bytes.ofText "\"5"] [] (by decide) (by decide +kernel)
      (by decide +kernel)).2 (by decide +kernel)
  · exact ((layout_immaterial "Connection" _ _ (by unfold SameBut; decide +kernel)).1
      [Bytes.ofText "keep-alive", Bytes.ofText "Close"] [] (by decide) (by decide +kernel)
      (by decide +kernel)).1 _ _ rfl rfl "Connection" "close"

end FieldList

end OriginServer.Http
