import Mathlib.Algebra.Order.BigOperators.Group.List
import Mathlib.Algebra.Order.Group.Nat
import OriginServer.Http.Response
import OriginServer.Proofs.Http.Framing
import OriginServer.Proofs.Http.Message
import OriginServer.Proofs.Http.WrittenField
import OriginServer.Proofs.Text.Numeral

namespace OriginServer.Http

open Ascii Scanner

/-- Name and value of every field, as they are written. -/
def Response.pairs (r : Response) : List (Bytes × Bytes) :=
  r.fields.map fun f => (Bytes.ofText f.1, Bytes.ofText f.2)

/-- What was understood of a message is a response with a body. -/
structure Parts.Tells (p : Parts) (input : Bytes) (r : Response) (body : Bytes) : Prop where
  version : p.version = ⟨1, 1⟩
  start : ∃ phrase, p.start = some (.status r.status.code phrase) ∧
    phrase.of input = Bytes.ofText r.status.reason
  fields : p.pairs input = r.pairs
  body : p.body.of input = body

namespace Response

section Building

@[simp] theorem status_withField (r : Response) (name value : String) :
    (r.withField name value).status = r.status := by
  unfold withField
  split <;> rfl

@[simp] theorem body_withField (r : Response) (name value : String) :
    (r.withField name value).body = r.body := by
  unfold withField
  split <;> rfl

@[simp] theorem status_withLength (r : Response) : r.withLength.status = r.status := by
  unfold withLength
  split
  · rfl
  · exact status_withField ..

@[simp] theorem body_withLength (r : Response) : r.withLength.body = r.body := by
  unfold withLength
  split
  · rfl
  · exact body_withField ..

theorem status_foldl_withField (fields : List (String × String)) (r : Response) :
    (fields.foldl (fun r f => r.withField f.1 f.2) r).status = r.status := by
  induction fields generalizing r with
  | nil => rfl
  | cons f fields ih => rw [List.foldl_cons, ih, status_withField]

@[simp] theorem status_make (status : Status) (fields : List (String × String)) (body : Bytes) :
    (make status fields body).status = status := by
  simp only [make, status_withLength, status_foldl_withField]

@[simp] theorem body_make (status : Status) (fields : List (String × String)) (body : Bytes) :
    (make status fields body).body = body := by
  simp only [make, body_withLength]

/-- A field of a new name goes behind the others. -/
theorem withField_of_new {r : Response} {name : String} (value : String)
    (h : ∀ f ∈ r.fields, sameLetters f.1 name = false) :
    r.withField name value = { r with fields := r.fields ++ [(name, value)] } := by
  have hn : r.field? name = none := by
    rw [field?, Option.map_eq_none_iff, List.find?_eq_none]
    exact fun f hf => by simp [h f hf]
  rw [withField, hn]
  rfl

/-- No name comes twice. -/
def Distinct (names : List String) : Prop := names.Pairwise fun a b => sameLetters a b = false

instance : DecidablePred Distinct := fun names =>
  inferInstanceAs (Decidable (names.Pairwise fun a b => sameLetters a b = false))

/-- Where no name comes twice, every field is found by its name. -/
theorem field?_of_distinct {r : Response} (h : Distinct (r.fields.map (·.1)))
    {f : String × String} (hf : f ∈ r.fields) : r.field? f.1 = some f.2 := by
  obtain ⟨before, after, hs⟩ := List.append_of_mem hf
  have hself : sameLetters f.1 f.1 = true := beq_self_eq_true _
  have hnone : before.find? (fun g => sameLetters g.1 f.1) = none := by
    rw [hs, List.map_append, List.map_cons] at h
    refine List.find?_eq_none.2 fun g hg => Bool.eq_false_iff.1 ?_
    exact (List.pairwise_append.1 h).2.2 g.1 (List.mem_map_of_mem hg) f.1 List.mem_cons_self
  simp only [field?, hs, List.find?_append, hnone, Option.none_or, List.find?_cons, hself,
    Option.map_some]

theorem Distinct.last_new {names : List String} {name : String} (h : Distinct (names ++ [name])) :
    ∀ n ∈ names, sameLetters n name = false := fun n hn =>
  (List.pairwise_append.1 h).2.2 n hn name List.mem_cons_self

theorem foldl_withField {r : Response} {fields : List (String × String)}
    (h : Distinct ((r.fields ++ fields).map (·.1))) :
    fields.foldl (fun r f => r.withField f.1 f.2) r = { r with fields := r.fields ++ fields } := by
  induction fields generalizing r with
  | nil => rw [List.append_nil, List.foldl_nil]
  | cons f fields ih =>
    rw [List.append_cons] at h
    have hnew : ∀ g ∈ r.fields, sameLetters g.1 f.1 = false := by
      rw [List.map_append, List.map_append] at h
      exact List.forall_mem_map.1 (Distinct.last_new (List.pairwise_append.1 h).1)
    rw [List.foldl_cons, withField_of_new f.2 hnew, ih h, ← List.append_cons]

theorem make_eq {fields : List (String × String)} (h : Distinct (fields.map (·.1)))
    (status : Status) (body : Bytes) :
    make status fields body = withLength { status, fields, body } := by
  rw [make, foldl_withField (r := { status }) h]
  rfl

/-- The length of the body goes behind the fields, if it is not among them. -/
theorem fields_make {fields : List (String × String)} {status : Status}
    (hs : status ≠ .switchingProtocols)
    (h : Distinct (fields.map (·.1) ++ ["Content-Length"])) (body : Bytes) :
    (make status fields body).fields = fields ++ [("Content-Length", toString body.length)] := by
  have hnew : ∀ f ∈ fields, sameLetters f.1 "Content-Length" = false :=
    List.forall_mem_map.1 h.last_new
  have hn : ¬ (field? { status, fields, body } "Content-Length").isSome = true := by
    simp only [field?, Option.isSome_map, List.find?_isSome, not_exists, not_and]
    exact fun f hf => by simp [hnew f hf]
  rw [make_eq (List.pairwise_append.1 h).1, withLength, if_neg (not_or.2 ⟨hs, hn⟩),
    withField_of_new _ hnew]

/-- A length that is among the fields stays. -/
theorem fields_make_of_length {fields : List (String × String)} (status : Status)
    (h : Distinct (fields.map (·.1))) {f : String × String} (hf : f ∈ fields)
    (hl : sameLetters f.1 "Content-Length" = true) (body : Bytes) :
    (make status fields body).fields = fields := by
  have hn : (field? { status, fields, body } "Content-Length").isSome = true := by
    simp only [field?, Option.isSome_map, List.find?_isSome]
    exact ⟨f, hf, hl⟩
  rw [make_eq h, withLength, if_pos (.inr hn)]

end Building

section Reading

variable {r : Response} {limits : Limits}

/-- The fields of the response can be read from its lines. -/
def Readable (r : Response) : Prop := ∀ f ∈ r.pairs, isToken f.1 = true ∧ CleanValue f.2

theorem fieldText_eq (f : String × String) :
    fieldText f = written (Bytes.ofText f.1, Bytes.ofText f.2) := by
  have hc : Bytes.ofText ": " = [colon, sp] := by decide
  have he : Bytes.ofText "\r\n" = [cr, lf] := by decide
  simp only [fieldText, written, hc, he, List.append_assoc, List.cons_append, List.nil_append]

theorem head_eq (r : Response) : r.head = r.startText ++ (r.pairs.flatMap written ++ [cr, lf]) := by
  have he : Bytes.ofText "\r\n" = [cr, lf] := by decide
  have hf : r.fields.flatMap fieldText = r.pairs.flatMap written := by
    rw [pairs, List.flatMap_map]
    exact List.flatMap_congr fun f _ => fieldText_eq f
  rw [head, he, hf, List.append_assoc]

/-- The place of the reason on the first line. -/
def phrase (r : Response) : Span := ⟨13, (Bytes.ofText r.status.reason).length⟩

/-- The first line of a response is read for itself. -/
theorem startLine_startText (limits : Limits) (r : Response) :
    startLine limits ⟨0, r.startText⟩ =
      .done (⟨1, 1⟩, .status r.status.code r.phrase) ⟨r.startText.length, []⟩ := by
  have hm : looksLikeStatus r.startText = true ∧ ¬ r.startText.length < Version.mark.length := by
    unfold startText
    cases r.status <;> decide
  rw [startLine_eq, if_pos hm.1, if_neg hm.2]
  unfold startText phrase
  cases r.status <;> decide

theorem phrase_of_startText (r : Response) :
    r.phrase.of r.startText = Bytes.ofText r.status.reason := by
  unfold startText phrase
  cases r.status <;> decide

/-- The first line tells the status. -/
theorem status_of_startText {status : Status} {rest : Bytes}
    (h : startText { status } <+: r.head ++ rest) : r.status = status := by
  obtain ⟨more, hm⟩ := h
  -- The code of the status stands in the first twelve bytes.
  have long (s : Status) : 12 ≤ (startText { status := s }).length := by
    cases s <;> decide
  have ht : (startText { status }).take 12 = (startText { status := r.status }).take 12 := by
    have hc := congrArg (List.take 12) hm
    rw [head, List.append_assoc, List.append_assoc, List.take_append_of_le_length (long _)] at hc
    exact hc.trans (List.take_append_of_le_length (long r.status))
  revert ht
  cases status <;> cases r.status <;> decide

/-- The head of a response is read for itself, whatever follows it. -/
theorem readHead_head (hr : r.Readable) (hn : r.fields.length ≤ limits.fieldCapacity)
    (rest : Bytes) :
    ∃ parts, readHead limits (r.head ++ rest) = (parts, .done () ⟨r.head.length, rest⟩) ∧
      parts.version = ⟨1, 1⟩ ∧
      (∃ phrase, parts.start = some (.status r.status.code phrase) ∧
        phrase.of (r.head ++ rest) = Bytes.ofText r.status.reason) ∧
      parts.pairs (r.head ++ rest) = r.pairs := by
  -- The first line is settled by its own bytes, so the fields behind it do not count for it.
  have hs := startLine_startText limits r
  obtain ⟨taken, ht, -, hclosed⟩ := (sealed_startLine limits).closed _ _ _ hs
  obtain rfl : r.startText = taken := ht.trans (List.append_nil taken)
  have hphrase : r.phrase.Within 0 r.startText.length :=
    startLine_within hs _ (by simp [StartLine.spans])
  have hi : r.head ++ rest = r.startText ++ (r.pairs.flatMap written ++ cr :: lf :: rest) := by
    simp only [head_eq, List.append_assoc, List.cons_append, List.nil_append]
  have hfull : ∀ i < r.pairs.length, limits.full (0 + i) = none := by
    intro i hi
    rw [pairs, List.length_map] at hi
    exact if_neg (by omega)
  obtain ⟨found, hfound, hmap⟩ := fieldSection_written hr hfull r.startText rest
  have hlen : r.startText.length + (r.pairs.flatMap written).length + 2 = r.head.length := by
    simp only [head_eq, List.length_append, List.length_cons, List.length_nil]
    omega
  rw [hlen] at hfound
  rw [hi, readHead_of_done (hclosed _)]
  dsimp only
  rw [hfound]
  refine ⟨_, rfl, rfl, ⟨r.phrase, rfl, ?_⟩, hmap⟩
  rw [Span.of_append hphrase.2]
  exact phrase_of_startText r

end Reading

section Framing

variable {r : Response} {limits : Limits}

/-- A response that can be read again, with a body of `n` bytes. -/
structure SelfDelimiting (r : Response) (n : Nat) : Prop where
  readable : r.Readable
  codings : Framing.valuesOf "transfer-encoding" r.pairs = []
  length : Framing.valuesOf "content-length" r.pairs = [Numeral.digits n]
  few : r.fields.length ≤ 4
  -- The place behind the body is still a word.
  small : r.head.length + n < 2 ^ 64

theorem lengthList_digits {n : Nat} (hn : n < 2 ^ 64) :
    ContentLength.LengthList n (Numeral.digits n) := by
  have hd : ContentLength.Denotes n (Numeral.digits n) :=
    ⟨Numeral.digits_ne_nil n, fun b => Numeral.isDigit_digits, Numeral.ofDecimal_digits n, hn⟩
  have hl : FieldList.Listed [Numeral.digits n] ([] ++ Numeral.digits n ++ []) :=
    .single (List.forall_mem_nil _) (List.forall_mem_nil _)
  rw [List.nil_append, List.append_nil] at hl
  exact ⟨_, hl, List.forall_mem_singleton.2 hd⟩

/-- One length among the fields, and no coding, announces that many bytes. -/
theorem decide_of_length {n : Nat} (hcodings : Framing.valuesOf "transfer-encoding" r.pairs = [])
    (hlength : Framing.valuesOf "content-length" r.pairs = [Numeral.digits n])
    (hn : n < 2 ^ 64) : Framing.decide r.pairs = .ok (.length n) := by
  refine Framing.decide_iff_announced.2 ⟨hcodings, ?_, ?_⟩
  · rw [hlength]
    exact List.cons_ne_nil _ _
  · rw [hlength]
    exact List.forall_mem_singleton.2 (lengthList_digits hn)

theorem SelfDelimiting.framing {n : Nat} (h : r.SelfDelimiting n) :
    Framing.decide r.pairs = .ok (.length n) := by
  have hn := h.small
  exact decide_of_length h.codings h.length (by omega)

/-- A response whose fields announce the length of its body is read for itself, whatever follows
it. -/
theorem readMessage_announced {body : Bytes} (hr : r.Readable)
    (hn : r.fields.length ≤ limits.fieldCapacity)
    (hf : Framing.decide r.pairs = .ok (.length body.length))
    (hsmall : r.head.length + body.length < 2 ^ 64) (rest : Bytes) :
    ∃ parts, readMessage limits (r.head ++ (body ++ rest)) =
        (parts, .done () ⟨r.head.length + body.length, rest⟩) ∧
      parts.Tells (r.head ++ (body ++ rest)) r body := by
  obtain ⟨parts, hp, hv, hs, hpairs⟩ := readHead_head hr hn (body ++ rest)
  have hw : ¬ Numeral.wordLimit ≤ r.head.length + body.length := Nat.not_le.2 hsmall
  have hl : ¬ (body ++ rest).length < body.length := by
    rw [List.length_append]
    omega
  have hbody : Span.of ⟨r.head.length, body.length⟩ (r.head ++ (body ++ rest)) = body :=
    Span.of_middle rfl rfl rest
  rw [readMessage_of_head hp (hpairs ▸ hf)]
  simp only [readBody, if_neg hw, if_neg hl, List.drop_left]
  exact ⟨_, rfl, hv, hs, hpairs, hbody⟩

/-- A response whose fields announce no body ends with its head. -/
theorem readMessage_bodiless (hr : r.Readable) (hn : r.fields.length ≤ limits.fieldCapacity)
    (hf : Framing.decide r.pairs = .ok .empty) (rest : Bytes) :
    ∃ parts, readMessage limits (r.head ++ rest) = (parts, .done () ⟨r.head.length, rest⟩) ∧
      parts.Tells (r.head ++ rest) r [] := by
  obtain ⟨parts, hp, hv, hs, hpairs⟩ := readHead_head hr hn rest
  rw [readMessage_of_head hp (hpairs ▸ hf)]
  exact ⟨_, rfl, hv, hs, hpairs, rfl⟩

/-- A response with its body is read for itself, whatever follows it. -/
theorem readMessage_response {body : Bytes} (h : r.SelfDelimiting body.length)
    (hc : 4 ≤ limits.fieldCapacity) (rest : Bytes) :
    ∃ parts, readMessage limits (r.head ++ (body ++ rest)) =
        (parts, .done () ⟨r.head.length + body.length, rest⟩) ∧
      parts.Tells (r.head ++ (body ++ rest)) r body :=
  readMessage_announced h.readable (Nat.le_trans h.few hc) h.framing h.small rest

/-- A field that can be read again, and that has no say in where the body ends. -/
structure PlainField (f : String × String) : Prop where
  token : isToken (Bytes.ofText f.1) = true
  clean : CleanValue (Bytes.ofText f.2)
  noCoding : (Bytes.ofText f.1).sameLetters (Bytes.ofText "transfer-encoding") = false
  noLength : (Bytes.ofText f.1).sameLetters (Bytes.ofText "content-length") = false
  short : (fieldText f).length ≤ 128

theorem length_head_le {k : Nat} (h : ∀ f ∈ r.fields, (fieldText f).length ≤ k) :
    r.head.length ≤ 64 + r.fields.length * k + 2 := by
  have hs : r.startText.length ≤ 64 := by
    unfold startText
    cases r.status <;> decide
  have hf : (r.fields.flatMap fieldText).length ≤ r.fields.length * k := by
    rw [List.length_flatMap]
    have hsum := List.sum_le_card_nsmul (r.fields.map fun f => (fieldText f).length) k
      (List.forall_mem_map.2 h)
    rwa [List.length_map] at hsum
  have he : (Bytes.ofText "\r\n").length = 2 := by decide
  rw [head, List.length_append, List.length_append, he]
  omega

theorem short_length {n : Nat} (hn : n < 2 ^ 63) :
    (fieldText ("Content-Length", toString n)).length ≤ 128 := by
  have hd : (Bytes.ofText (toString n)).length ≤ 20 :=
    Numeral.length_digits_le (by decide) (by omega)
  have hl : (Bytes.ofText "Content-Length").length = 14 := by decide
  simp only [fieldText_eq, written, List.length_append, List.length_cons, List.length_nil, hl]
  omega

theorem valuesOf_append (name : String) (a b : List (Bytes × Bytes)) :
    Framing.valuesOf name (a ++ b) = Framing.valuesOf name a ++ Framing.valuesOf name b := by
  rw [Framing.valuesOf, List.filter_append, List.map_append]
  rfl

/-- Plain fields do not count for the values of a name that none of them has. -/
theorem valuesOf_eq_nil {fields : List (String × String)} {name : String}
    (h : ∀ f ∈ fields, (Bytes.ofText f.1).sameLetters (Bytes.ofText name) = false) :
    Framing.valuesOf name (fields.map fun f => (Bytes.ofText f.1, Bytes.ofText f.2)) = [] := by
  rw [Framing.valuesOf, List.map_eq_nil_iff, List.filter_eq_nil_iff]
  exact List.forall_mem_map.2 fun f hf => by simp [h f hf]

/-- Only the length counts for the values of a name that no other field has. -/
theorem valuesOf_pairs {n : Nat} {front back : List (String × String)} {name : String}
    (h : r.fields = front ++ ("Content-Length", toString n) :: back)
    (hf : ∀ f ∈ front ++ back, (Bytes.ofText f.1).sameLetters (Bytes.ofText name) = false) :
    Framing.valuesOf name r.pairs =
      Framing.valuesOf name [(Bytes.ofText "Content-Length", Numeral.digits n)] := by
  obtain ⟨hfront, hback⟩ := List.forall_mem_append.1 hf
  rw [pairs, h, List.append_cons, List.map_append, List.map_append, valuesOf_append,
    valuesOf_append, valuesOf_eq_nil hfront, valuesOf_eq_nil hback, List.nil_append,
    List.append_nil]
  rfl

/-- One length among plain fields says where the body ends. -/
theorem selfDelimiting_of_fields {n : Nat} {front back : List (String × String)}
    (h : r.fields = front ++ ("Content-Length", toString n) :: back)
    (hf : ∀ f ∈ front ++ back, PlainField f) (hl : (front ++ back).length ≤ 3)
    (hn : n < 2 ^ 63) : r.SelfDelimiting n := by
  have hlen : r.fields.length ≤ 4 := by
    rw [List.length_append] at hl
    rw [h, List.length_append, List.length_cons]
    omega
  -- Every field is plain but the length.
  have hfields {P : String × String → Prop} (hp : ∀ f, PlainField f → P f)
      (hc : P ("Content-Length", toString n)) : ∀ f ∈ r.fields, P f := by
    intro f hm
    rw [h] at hm
    rcases List.mem_append.1 hm with hm | hm
    · exact hp f (hf f (List.mem_append_left _ hm))
    · rcases List.mem_cons.1 hm with rfl | hm
      · exact hc
      · exact hp f (hf f (List.mem_append_right _ hm))
  have hname : isToken (Bytes.ofText "Content-Length") = true ∧
      (Bytes.ofText "Content-Length").sameLetters (Bytes.ofText "transfer-encoding") = false ∧
      (Bytes.ofText "Content-Length").sameLetters (Bytes.ofText "content-length") = true := by
    decide
  refine ⟨?_, ?_, ?_, hlen, ?_⟩
  · exact List.forall_mem_map.2 <| hfields (fun f hp => ⟨hp.token, hp.clean⟩)
      ⟨hname.1, cleanValue_of_digits fun b => Numeral.isDigit_digits⟩
  · rw [valuesOf_pairs h fun f hm => (hf f hm).noCoding]
    simp only [Framing.valuesOf, List.filter_cons, hname.2.1, List.filter_nil]
    rfl
  · rw [valuesOf_pairs h fun f hm => (hf f hm).noLength]
    simp only [Framing.valuesOf, List.filter_cons, hname.2.2, List.filter_nil]
    rfl
  · have hh := length_head_le (hfields (fun f => PlainField.short) (short_length hn))
    omega

/-- The length of the body goes behind plain fields. -/
theorem selfDelimiting_make {fields : List (String × String)} {status : Status} {body : Bytes}
    (hs : status ≠ .switchingProtocols) (hd : Distinct (fields.map (·.1) ++ ["Content-Length"]))
    (hf : ∀ f ∈ fields, PlainField f) (hl : fields.length ≤ 3) (hb : body.length < 2 ^ 63) :
    (make status fields body).SelfDelimiting (make status fields body).body.length := by
  have hfields : ∀ f ∈ fields ++ [], PlainField f := by
    rw [List.append_nil]
    exact hf
  rw [body_make]
  exact selfDelimiting_of_fields (fields_make hs hd body) hfields (by simpa using hl) hb

end Framing

end Response

end OriginServer.Http
