import OriginServer.Proofs.Http.Response
import OriginServer.Proofs.Text.Letters

namespace OriginServer.Http.Response

open Ascii

section Fields

/-- The value that a list of settings gives to a field: that of the last setting. -/
def lastSet? (settings : List (String × String)) (name : String) : Option String :=
  (settings.reverse.find? fun f => sameLetters f.1 name).map (·.2)

theorem lastSet?_cons (f : String × String) (settings : List (String × String)) (name : String) :
    lastSet? (f :: settings) name =
      (lastSet? settings name).or (if sameLetters f.1 name then some f.2 else none) := by
  rw [lastSet?, lastSet?, List.reverse_cons, List.find?_append]
  cases settings.reverse.find? fun f => sameLetters f.1 name with
  | some g => rfl
  | none =>
    simp only [Option.none_or, List.find?_cons, List.find?_nil, Option.map_none]
    cases sameLetters f.1 name <;> rfl

theorem find?_setFirst {fields : List (String × String)} {name : String} (value other : String)
    (h : (fields.find? fun f => sameLetters f.1 name).isSome = true) :
    ((setFirst name value fields).find? fun f => sameLetters f.1 other).map (·.2) =
      if sameLetters name other then some value
      else (fields.find? fun f => sameLetters f.1 other).map (·.2) := by
  induction fields with
  | nil => cases h
  | cons f fields ih =>
    by_cases hf : sameLetters f.1 name = true
    · rw [setFirst, if_pos hf, ← sameLetters_congr hf other]
      simp only [List.find?_cons]
      cases sameLetters f.1 other <;> rfl
    · have hrest : (fields.find? fun f => sameLetters f.1 name).isSome = true := by
        rw [List.find?_cons, Bool.eq_false_iff.2 hf] at h
        exact h
      rw [setFirst, if_neg hf]
      simp only [List.find?_cons]
      by_cases ho : sameLetters f.1 other = true
      · -- The first field is not the one that is set, so what is looked up is not either.
        have hn : ¬ sameLetters name other = true := by
          intro hn
          rw [sameLetters_comm] at hn
          rw [sameLetters_comm, ← sameLetters_congr hn, sameLetters_comm] at hf
          exact hf ho
        rw [ho, if_neg hn]
      · rw [Bool.eq_false_iff.2 ho]
        exact ih hrest

/-- Setting a field gives it the value and leaves the others. -/
theorem field?_withField (r : Response) (name value other : String) :
    (r.withField name value).field? other =
      if sameLetters name other then some value else r.field? other := by
  unfold withField
  split
  · rename_i h
    rw [field?, Option.isSome_map] at h
    exact find?_setFirst value other h
  · rename_i h
    have hnone : r.fields.find? (fun f => sameLetters f.1 name) = none := by
      simpa [field?] using h
    simp only [field?, List.find?_append, List.find?_cons, List.find?_nil]
    by_cases hn : sameLetters name other = true
    · have hother : r.fields.find? (fun f => sameLetters f.1 other) = none := by
        rw [List.find?_eq_none] at hnone ⊢
        intro f hf
        rw [sameLetters_comm, ← sameLetters_congr hn, sameLetters_comm]
        exact hnone f hf
      rw [if_pos hn, hn, hother]
      rfl
    · rw [if_neg hn, Bool.eq_false_iff.2 hn]
      cases r.fields.find? fun f => sameLetters f.1 other <;> rfl

theorem field?_foldl (settings : List (String × String)) (r : Response) (name : String) :
    (settings.foldl (fun r f => r.withField f.1 f.2) r).field? name =
      (lastSet? settings name).or (r.field? name) := by
  induction settings generalizing r with
  | nil => rfl
  | cons f settings ih =>
    rw [List.foldl_cons, ih, field?_withField, lastSet?_cons, Option.or_assoc]
    cases sameLetters f.1 name <;> rfl

/-- What holds of the names and of the values that are set holds of the fields. -/
theorem forall_withField {P Q : String → Prop} {r : Response} {name value : String}
    (h : ∀ f ∈ r.fields, P f.1 ∧ Q f.2) (hn : P name) (hv : Q value) :
    ∀ f ∈ (r.withField name value).fields, P f.1 ∧ Q f.2 := by
  have replaced {fields : List (String × String)} (h : ∀ f ∈ fields, P f.1 ∧ Q f.2) :
      ∀ f ∈ setFirst name value fields, P f.1 ∧ Q f.2 := by
    induction fields with
    | nil => exact h
    | cons f fields ih =>
      obtain ⟨hf, hfs⟩ := List.forall_mem_cons.1 h
      unfold setFirst
      split
      · exact List.forall_mem_cons.2 ⟨⟨hf.1, hv⟩, hfs⟩
      · exact List.forall_mem_cons.2 ⟨hf, ih hfs⟩
  unfold withField
  split
  · exact replaced h
  · exact List.forall_mem_append.2 ⟨h, List.forall_mem_singleton.2 ⟨hn, hv⟩⟩

theorem forall_foldl {P Q : String → Prop} {settings : List (String × String)} {r : Response}
    (h : ∀ f ∈ r.fields, P f.1 ∧ Q f.2) (hs : ∀ f ∈ settings, P f.1 ∧ Q f.2) :
    ∀ f ∈ (settings.foldl (fun r f => r.withField f.1 f.2) r).fields, P f.1 ∧ Q f.2 := by
  induction settings generalizing r with
  | nil => exact h
  | cons f settings ih =>
    obtain ⟨⟨hn, hv⟩, hs⟩ := List.forall_mem_cons.1 hs
    rw [List.foldl_cons]
    exact ih (forall_withField h hn hv) hs

end Fields

section Make

variable {status : Status} {settings : List (String × String)} {body : Bytes} {limits : Limits}

/-- A field that a sender may set: it is read as it stands, and has no say in where the body
ends. -/
structure Settable (f : String × String) : Prop where
  token : isToken (Bytes.ofText f.1) = true
  noLength : sameLetters f.1 "Content-Length" = false
  noCoding : sameLetters f.1 "Transfer-Encoding" = false
  clean : CleanValue (Bytes.ofText f.2)

/-- The length that comes behind the fields. A change of protocols has none. -/
def lengthField (status : Status) (body : Bytes) : List (String × String) :=
  if status = .switchingProtocols then [] else [("Content-Length", toString body.length)]

/-- The fields as they are set one after the other. -/
def built (status : Status) (settings : List (String × String)) : Response :=
  settings.foldl (fun r f => r.withField f.1 f.2) { status }

theorem built_settable (h : ∀ f ∈ settings, Settable f) :
    ∀ f ∈ (built status settings).fields, Settable f := by
  have hsplit : ∀ f ∈ (built status settings).fields,
      (isToken (Bytes.ofText f.1) = true ∧ sameLetters f.1 "Content-Length" = false ∧
        sameLetters f.1 "Transfer-Encoding" = false) ∧ CleanValue (Bytes.ofText f.2) :=
    forall_foldl (P := fun name => isToken (Bytes.ofText name) = true ∧
        sameLetters name "Content-Length" = false ∧ sameLetters name "Transfer-Encoding" = false)
      (Q := fun value => CleanValue (Bytes.ofText value)) (List.forall_mem_nil _)
      fun f hf => ⟨⟨(h f hf).token, (h f hf).noLength, (h f hf).noCoding⟩, (h f hf).clean⟩
  intro f hf
  obtain ⟨⟨htoken, hlength, hcoding⟩, hclean⟩ := hsplit f hf
  exact ⟨htoken, hlength, hcoding, hclean⟩

theorem fields_of_settable (h : ∀ f ∈ settings, Settable f) (body : Bytes) :
    (make status settings body).fields =
      (built status settings).fields ++ lengthField status body := by
  have hnew : ∀ f ∈ (built status settings).fields, sameLetters f.1 "Content-Length" = false :=
    fun f hf => (built_settable h f hf).noLength
  have hnone : ¬ (field? { built status settings with body } "Content-Length").isSome = true := by
    simp only [field?, Option.isSome_map, List.find?_isSome, not_exists, not_and]
    exact fun f hf => by simp [hnew f hf]
  have hstatus : (built status settings).status = status := status_foldl_withField ..
  rw [make, ← built, withLength, lengthField]
  by_cases hs : status = .switchingProtocols
  · rw [if_pos (.inl (hstatus.trans hs)), if_pos hs, List.append_nil]
  · rw [if_neg (not_or.2 ⟨fun hb => hs (hstatus ▸ hb), hnone⟩), if_neg hs]
    have hadd :=
      withField_of_new (r := { built status settings with body }) (toString body.length) hnew
    exact congrArg Response.fields hadd

/-- A field of a response has the value it was last given. -/
theorem field?_make (h : ∀ f ∈ settings, Settable f) (body : Bytes) (name : String) :
    (make status settings body).field? name =
      lastSet? (settings ++ lengthField status body) name := by
  have hbuilt : (built status settings).field? name = lastSet? settings name := by
    rw [built, field?_foldl]
    exact Option.or_none
  have hfield : (make status settings body).field? name =
      (lastSet? settings name).or
        (((lengthField status body).find? fun f => sameLetters f.1 name).map (·.2)) := by
    rw [field?, fields_of_settable h, List.find?_append, Option.map_or, ← hbuilt]
    rfl
  rw [hfield, lastSet?, lastSet?, List.reverse_append, List.find?_append, Option.map_or, ← lastSet?]
  unfold lengthField
  split
  · exact Option.or_none
  · rw [List.reverse_singleton, List.find?_singleton]
    split
    · rename_i hname
      -- Nothing that was set is called as the length is.
      have hnone : lastSet? settings name = none := by
        rw [lastSet?, Option.map_eq_none_iff, List.find?_eq_none]
        intro f hf
        rw [sameLetters_comm, ← sameLetters_congr hname, sameLetters_comm,
          (h f (List.mem_reverse.1 hf)).noLength]
        exact Bool.false_ne_true
      rw [hnone]
      rfl
    · exact Option.or_none

theorem head?_valuesOf (r : Response) (name : String) :
    (Framing.valuesOf name r.pairs).head? = (r.field? name).map Bytes.ofText := by
  rw [Framing.valuesOf, List.head?_map, List.head?_filter, pairs, List.find?_map, field?]
  simp only [Option.map_map, Function.comp_def, Bytes.sameLetters_ofText]

/-- The values of a name that only the length can have. -/
theorem valuesOf_make (status : Status) (h : ∀ f ∈ settings, Settable f) (body : Bytes)
    {name : String} (hname : ∀ f, Settable f → sameLetters f.1 name = false) :
    Framing.valuesOf name (make status settings body).pairs =
      Framing.valuesOf name
        ((lengthField status body).map fun f => (Bytes.ofText f.1, Bytes.ofText f.2)) := by
  have hnil : Framing.valuesOf name
      ((built status settings).fields.map fun f => (Bytes.ofText f.1, Bytes.ofText f.2)) = [] := by
    refine valuesOf_eq_nil fun f hf => ?_
    rw [Bytes.sameLetters_ofText]
    exact hname f (built_settable h f hf)
  rw [pairs, fields_of_settable h, List.map_append, valuesOf_append, hnil, List.nil_append]

/-- The fields of a response that was built announce its body. -/
theorem decide_make (status : Status) (h : ∀ f ∈ settings, Settable f)
    (hbody : body.length < 2 ^ 64) :
    Framing.decide (make status settings body).pairs =
      .ok (if status = .switchingProtocols then .empty else .length body.length) := by
  have hcoding : ∀ f, Settable f → sameLetters f.1 "transfer-encoding" = false := by
    intro f hf
    have hsame : sameLetters "transfer-encoding" "Transfer-Encoding" = true := by decide
    rw [sameLetters_comm, sameLetters_congr hsame, sameLetters_comm]
    exact hf.noCoding
  have hlength : ∀ f, Settable f → sameLetters f.1 "content-length" = false := by
    intro f hf
    have hsame : sameLetters "content-length" "Content-Length" = true := by decide
    rw [sameLetters_comm, sameLetters_congr hsame, sameLetters_comm]
    exact hf.noLength
  have hcodings := valuesOf_make status h body hcoding
  have hlengths := valuesOf_make status h body hlength
  have hname :
      (Bytes.ofText "Content-Length").sameLetters (Bytes.ofText "transfer-encoding") = false ∧
        (Bytes.ofText "Content-Length").sameLetters (Bytes.ofText "content-length") = true := by
    decide
  unfold lengthField at hcodings hlengths
  split
  · rename_i hs
    rw [if_pos hs] at hcodings hlengths
    exact Framing.decide_iff_announced.2 ⟨hcodings, hlengths⟩
  · rename_i hs
    rw [if_neg hs] at hcodings hlengths
    refine decide_of_length ?_ ?_ hbody
    · rw [hcodings]
      simp only [Framing.valuesOf, List.map_cons, List.map_nil, List.filter_cons, hname.1,
        List.filter_nil]
      rfl
    · rw [hlengths]
      simp only [Framing.valuesOf, List.map_cons, List.map_nil, List.filter_cons, hname.2,
        List.filter_nil]
      rfl

theorem readable_make (status : Status) (h : ∀ f ∈ settings, Settable f) (body : Bytes) :
    (make status settings body).Readable := by
  have hlength : ∀ f ∈ lengthField status body,
      isToken (Bytes.ofText f.1) = true ∧ CleanValue (Bytes.ofText f.2) := by
    have hname : isToken (Bytes.ofText "Content-Length") = true := by decide
    unfold lengthField
    split
    · exact List.forall_mem_nil _
    · exact List.forall_mem_singleton.2
        ⟨hname, cleanValue_of_digits fun b => Numeral.isDigit_digits⟩
  rw [Readable, pairs, fields_of_settable h]
  refine List.forall_mem_map.2 (List.forall_mem_append.2 ⟨fun f hf => ?_, hlength⟩)
  have hf := built_settable h f hf
  exact ⟨hf.token, hf.clean⟩

/-- What a sender builds is what a reader reads: a response that was built from any settings of
fields is taken from the wire with all its fields and its body, whatever follows it, and the first
value of every name is the one that was set last. Its length on the wire is a word, as that of any
run of bytes. -/
theorem readMessage_wire (h : ∀ f ∈ settings, Settable f)
    (hbody : status = .switchingProtocols → body = [])
    (hn : (make status settings body).fields.length ≤ limits.fieldCapacity)
    (hsmall : (make status settings body).wire.length < 2 ^ 64) (rest : Bytes) :
    ∃ parts, readMessage limits ((make status settings body).wire ++ rest) =
        (parts, .done () ⟨(make status settings body).wire.length, rest⟩) ∧
      parts.Tells ((make status settings body).wire ++ rest) (make status settings body) body ∧
      ∀ name,
        (parts.values ((make status settings body).wire ++ rest) name).head? =
            ((make status settings body).field? name).map Bytes.ofText ∧
          (make status settings body).field? name =
            lastSet? (settings ++ lengthField status body) name := by
  have hwire : (make status settings body).wire = (make status settings body).head ++ body := by
    rw [wire, body_make]
  have hlen : (make status settings body).head.length + body.length < 2 ^ 64 := by
    rwa [hwire, List.length_append] at hsmall
  have hread := readable_make status h body
  have hsize : body.length < 2 ^ 64 := by omega
  have hdecide := decide_make status h hsize
  obtain ⟨parts, hparts, htells⟩ : ∃ parts,
      readMessage limits ((make status settings body).wire ++ rest) =
        (parts, .done () ⟨(make status settings body).wire.length, rest⟩) ∧
      parts.Tells ((make status settings body).wire ++ rest) (make status settings body) body := by
    rw [hwire, List.length_append, List.append_assoc]
    by_cases hs : status = .switchingProtocols
    · obtain rfl := hbody hs
      rw [if_pos hs] at hdecide
      exact readMessage_bodiless hread hn hdecide rest
    · rw [if_neg hs] at hdecide
      exact readMessage_announced hread hn hdecide hlen rest
  refine ⟨parts, hparts, htells, fun name => ⟨?_, field?_make h body name⟩⟩
  rw [Parts.values, htells.fields, head?_valuesOf]

/-- A field that is set again in other letters keeps its place and its name, and takes the new
value. -/
theorem readMessage_wire_again :
    (make .ok [("X-Id", "1"), ("Vary", "a \"b,"), ("x-id", "2")] [0x68, 0x69]).fields =
        [("X-Id", "2"), ("Vary", "a \"b,"), ("Content-Length", "2")] ∧
      ∃ parts, readMessage ⟨3, 16⟩
          ((make .ok [("X-Id", "1"), ("Vary", "a \"b,"), ("x-id", "2")] [0x68, 0x69]).wire ++
            Bytes.ofText "HTTP/1.1 404") = (parts, .done () ⟨62, Bytes.ofText "HTTP/1.1 404"⟩) := by
  have settable {f : String × String} (h : isToken (Bytes.ofText f.1) = true ∧
      sameLetters f.1 "Content-Length" = false ∧ sameLetters f.1 "Transfer-Encoding" = false ∧
      CleanValue (Bytes.ofText f.2)) : Settable f := ⟨h.1, h.2.1, h.2.2.1, h.2.2.2⟩
  have h : ∀ f ∈ [("X-Id", "1"), ("Vary", "a \"b,"), ("x-id", "2")], Settable f :=
    List.forall_mem_cons.2 ⟨settable (by decide), List.forall_mem_cons.2
      ⟨settable (by decide), List.forall_mem_singleton.2 (settable (by decide))⟩⟩
  have hn : (make .ok [("X-Id", "1"), ("Vary", "a \"b,"), ("x-id", "2")]
      [0x68, 0x69]).fields.length ≤ (⟨3, 16⟩ : Limits).fieldCapacity := by decide +kernel
  have hbody : Status.ok = .switchingProtocols → ([0x68, 0x69] : Bytes) = [] := nofun
  obtain ⟨parts, hparts, -⟩ :=
    readMessage_wire h hbody hn (by decide +kernel) (Bytes.ofText "HTTP/1.1 404")
  have hlen : (make .ok [("X-Id", "1"), ("Vary", "a \"b,"), ("x-id", "2")]
      [0x68, 0x69]).wire.length = 62 := by decide +kernel
  rw [hlen] at hparts
  exact ⟨by decide +kernel, parts, hparts⟩

end Make

end OriginServer.Http.Response
