import OriginServer.Proofs.Connection.Reply
import OriginServer.Proofs.Http.Response
import OriginServer.Proofs.Site.FileBody

namespace OriginServer

open OriginServer.Http OriginServer.Http.Response OriginServer.Site OriginServer.WebSocket Ascii

section Values

/-- Names of fields that have no say in where a body ends. -/
def plainNames : List String :=
  ["Accept-Ranges", "Allow", "Content-Range", "Content-Type", "Sec-WebSocket-Version"]

theorem plainField {name value : String} (hn : name ∈ plainNames)
    (hc : CleanValue (Bytes.ofText value)) (hl : (Bytes.ofText value).length ≤ 100) :
    PlainField (name, value) := by
  have h : ∀ name ∈ plainNames, isToken (Bytes.ofText name) = true ∧
      (Bytes.ofText name).sameLetters (Bytes.ofText "transfer-encoding") = false ∧
      (Bytes.ofText name).sameLetters (Bytes.ofText "content-length") = false ∧
      (Bytes.ofText name).length ≤ 24 := by
    decide
  obtain ⟨ht, hcoding, hlength, hshort⟩ := h name hn
  refine ⟨ht, hc, hcoding, hlength, ?_⟩
  simp only [fieldText_eq, written, List.length_append, List.length_cons, List.length_nil]
  omega

theorem MediaType.ofPath_clean (path : String) :
    CleanValue (Bytes.ofText (MediaType.ofPath path)) ∧
      (Bytes.ofText (MediaType.ofPath path)).length ≤ 100 := by
  unfold MediaType.ofPath
  split
  · unfold MediaType.ofExtension
    split <;> decide
  · decide

theorem cleanValue_digits (n : Nat) : CleanValue (Numeral.digits n) :=
  cleanValue_of_digits fun _ => Numeral.isDigit_digits

theorem length_digits {n : Nat} (hn : n < 2 ^ 63) : (Numeral.digits n).length ≤ 20 :=
  Numeral.length_digits_le (by decide) (by omega)

/-- The unit in front of a range. -/
theorem CleanValue.behind_unit {range : Bytes} (h : CleanValue range) (hn : range ≠ []) :
    CleanValue (Bytes.ofText "bytes " ++ range) := by
  have hb : Bytes.ofText "bytes " = Bytes.ofText "bytes" ++ [sp] := by decide
  have hu : CleanValue (Bytes.ofText "bytes") ∧ Bytes.ofText "bytes" ≠ [] := by decide
  rw [hb, List.append_assoc]
  exact hu.1.append_blank h hu.2 hn

/-- The value that tells which part of a file is sent. -/
theorem contentRange_clean {first last total : Nat} (hf : first ≤ last) (hl : last < total)
    (ht : total < 2 ^ 63) :
    CleanValue (Bytes.ofText s!"bytes {first}-{last}/{total}") ∧
      (Bytes.ofText s!"bytes {first}-{last}/{total}").length ≤ 100 := by
  have he : Bytes.ofText s!"bytes {first}-{last}/{total}" =
      Bytes.ofText "bytes " ++ (Numeral.digits first ++ (Bytes.ofText "-" ++
        (Numeral.digits last ++ (Bytes.ofText "/" ++ Numeral.digits total)))) := by
    simp only [Bytes.ofText_append, List.append_assoc]
    rfl
  have hd : CleanValue (Bytes.ofText "-") ∧ CleanValue (Bytes.ofText "/") ∧
      (Bytes.ofText "bytes ").length = 6 ∧ (Bytes.ofText "-").length = 1 ∧
      (Bytes.ofText "/").length = 1 := by
    decide
  have h₁ := length_digits (n := first) (by omega)
  have h₂ := length_digits (n := last) (by omega)
  have h₃ := length_digits ht
  rw [he]
  refine ⟨CleanValue.behind_unit ?_ (by simp [Numeral.digits_ne_nil]), ?_⟩
  · exact (cleanValue_digits first).append <| hd.1.append <| (cleanValue_digits last).append <|
      hd.2.1.append (cleanValue_digits total)
  · simp only [List.length_append, hd.2.2]
    omega

/-- The value that tells the size of a file none of which is sent. -/
theorem contentRange_outside_clean {total : Nat} (ht : total < 2 ^ 63) :
    CleanValue (Bytes.ofText s!"bytes */{total}") ∧
      (Bytes.ofText s!"bytes */{total}").length ≤ 100 := by
  have he : Bytes.ofText s!"bytes */{total}" =
      Bytes.ofText "bytes " ++ (Bytes.ofText "*/" ++ Numeral.digits total) := by
    have hu : Bytes.ofText "bytes */" = Bytes.ofText "bytes " ++ Bytes.ofText "*/" := by
      decide
    rw [← List.append_assoc, ← hu]
    exact Bytes.ofText_append _ _
  have hd : CleanValue (Bytes.ofText "*/") ∧ (Bytes.ofText "bytes ").length = 6 ∧
      (Bytes.ofText "*/").length = 2 := by
    decide
  have h := length_digits ht
  rw [he]
  refine ⟨CleanValue.behind_unit (hd.1.append (cleanValue_digits total)) ?_, ?_⟩
  · simp [Numeral.digits_ne_nil]
  · simp only [List.length_append, hd.2]
    omega

end Values

section Heads

variable {fs : FileSystem} {chunkSize : Nat} {s : Served}

/-- The bytes behind the head of an answer: the body of the response, or the part of the file that
is served. -/
def Site.Served.payload (s : Served) : Bytes :=
  match s.body with
  | some body => body.file.slice body.offset body.remaining
  | none => s.head.body

theorem Site.Served.payload_make (head : Response) (file : Bytes)
    (offset remaining chunkSize : Nat) :
    Served.payload ⟨head, some (.make file offset remaining chunkSize)⟩ =
      file.slice offset remaining :=
  rfl

/-- One field in front of the length. -/
theorem selfDelimiting_single {status : Status} {name value : String} {body : Bytes}
    (hs : status ≠ .switchingProtocols) (hn : name ∈ plainNames)
    (hc : CleanValue (Bytes.ofText value)) (hl : (Bytes.ofText value).length ≤ 100)
    (hb : body.length < 2 ^ 63) :
    (make status [(name, value)] body).SelfDelimiting
      (make status [(name, value)] body).body.length := by
  have hd : ∀ name ∈ plainNames, Distinct [name, "Content-Length"] := by decide
  have hp : ∀ f ∈ [(name, value)], PlainField f :=
    List.forall_mem_singleton.2 (plainField hn hc hl)
  exact selfDelimiting_make hs (hd name hn) hp (by simp) hb

theorem selfDelimiting_plain (status : Status) (hs : status ≠ .switchingProtocols) :
    (plain status).SelfDelimiting (plain status).body.length := by
  have hb : (Bytes.ofText s!"{status.code} {status.reason}").length < 2 ^ 63 := by
    cases status <;> decide
  exact selfDelimiting_single hs (by decide) (by decide) (by decide) hb

/-- A length that is announced in place of that of the body. -/
theorem selfDelimiting_announce {fields : List (String × String)} {status : Status} {length : Nat}
    (place : String) (hd : NewNames fields) (hf : ∀ f ∈ fields, PlainField f)
    (hl : fields.length ≤ 1) (hn : length < 2 ^ 63) :
    (announce status fields place length).SelfDelimiting length := by
  have hfields : (announce status fields place length).fields =
      (fields ++ [("Content-Type", MediaType.ofPath place)]) ++
        ("Content-Length", toString length) :: [("Accept-Ranges", "bytes")] := by
    rw [fields_announce status place length hd, List.append_assoc]
    rfl
  obtain ⟨hc, hs⟩ := MediaType.ofPath_clean place
  have htype : PlainField ("Content-Type", MediaType.ofPath place) := plainField (by decide) hc hs
  have hranges : PlainField ("Accept-Ranges", "bytes") :=
    plainField (by decide) (by decide) (by decide)
  refine selfDelimiting_of_fields hfields ?_ (by simpa using hl) hn
  exact List.forall_mem_append.2 ⟨List.forall_mem_append.2 ⟨hf, List.forall_mem_singleton.2 htype⟩,
    List.forall_mem_singleton.2 hranges⟩

theorem Site.FileAnswer.selfDelimiting (h : FileAnswer fs chunkSize s)
    (hfs : ∀ content, fs.Holds content → content.length ≤ Buffer.maxStore) :
    s.head.SelfDelimiting s.payload.length := by
  have small {content : Bytes} (hc : fs.Holds content) : content.length < 2 ^ 63 :=
    Nat.lt_of_le_of_lt (hfs content hc) (by decide)
  cases h with
  | missing => exact selfDelimiting_plain .notFound nofun
  | locked => exact selfDelimiting_plain .internalServerError nofun
  | @outside content hc =>
    obtain ⟨hclean, hshort⟩ := contentRange_outside_clean (small hc)
    exact selfDelimiting_single nofun (by decide) hclean hshort (by decide)
  | @whole content place hc =>
    have hl : (content.slice 0 content.length).length = content.length :=
      FileBody.length_slice (Nat.le_of_eq (Nat.zero_add _))
    rw [Served.payload_make, hl]
    dsimp only
    exact selfDelimiting_announce place newNames_nil (List.forall_mem_nil _) (by simp) (small hc)
  | @part content first last place hc hf hl =>
    obtain ⟨hclean, hshort⟩ := contentRange_clean hf hl (small hc)
    have hp : PlainField ("Content-Range", s!"bytes {first}-{last}/{content.length}") :=
      plainField (by decide) hclean hshort
    have hn := small hc
    have hlen : (content.slice first (last - first + 1)).length = last - first + 1 :=
      FileBody.length_slice (by omega)
    rw [Served.payload_make, hlen]
    dsimp only
    exact selfDelimiting_announce place (newNames_range _) (List.forall_mem_singleton.2 hp)
      (by simp) (by omega)

theorem HttpAnswer.selfDelimiting (h : HttpAnswer fs chunkSize s)
    (hfs : ∀ content, fs.Holds content → content.length ≤ Buffer.maxStore) :
    s.head.SelfDelimiting s.payload.length := by
  cases h with
  | file h => exact h.selfDelimiting hfs
  | badRequest => exact selfDelimiting_plain .badRequest nofun
  | methodNotAllowed =>
    show (make .methodNotAllowed [("Allow", "GET")] _).SelfDelimiting _
    exact selfDelimiting_single nofun (by decide) (by decide) (by decide)
      (by decide)
  | upgradeRequired =>
    show (make .upgradeRequired [("Sec-WebSocket-Version", "13")] []).SelfDelimiting _
    exact selfDelimiting_single nofun (by decide) (by decide) (by decide)
      (by decide)

/-- A file that is served has all of the part that is served. -/
theorem HttpAnswer.body_inside (h : HttpAnswer fs chunkSize s) {body : FileBody}
    (hb : s.body = some body) : body.offset + body.remaining ≤ body.file.length := by
  cases h with
  | file h =>
    cases h with
    | whole place hc =>
      cases hb
      exact Nat.le_of_eq (Nat.zero_add _)
    | part place hc hf hl =>
      cases hb
      simp only [FileBody.make]
      omega
    | missing => cases hb
    | locked => cases hb
    | outside => cases hb
  | methodNotAllowed => cases hb
  | badRequest => cases hb
  | upgradeRequired => cases hb

theorem HttpAnswer.chunkSize_eq (h : HttpAnswer fs chunkSize s) {body : FileBody}
    (hb : s.body = some body) : body.chunkSize = max chunkSize 1 := by
  cases h with
  | file h => cases h <;> cases hb <;> rfl
  | methodNotAllowed => cases hb
  | badRequest => cases hb
  | upgradeRequired => cases hb

/-- What leaves the connection for an answer, with its file read to the end. -/
theorem HttpAnswer.content (h : HttpAnswer fs chunkSize s) :
    (Reply.ofServed s).output.flatMap Output.content = s.head.head ++ s.payload := by
  unfold Reply.ofServed Served.payload
  cases hb : s.body with
  | none => simp only [Reply.ofResponse, List.flatMap_singleton, Output.content, wire]
  | some body =>
    obtain ⟨hp, -⟩ := FileBody.pieces_complete (h.body_inside hb)
    simp only [List.flatMap_cons, List.flatMap_nil, List.append_nil, Output.content, hp]

end Heads

end OriginServer
