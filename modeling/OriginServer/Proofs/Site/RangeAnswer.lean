import Mathlib.Logic.Relation
import OriginServer.Proofs.Site.FileBody
import OriginServer.Proofs.Site.Serve

namespace OriginServer

open OriginServer.Http OriginServer.Site

namespace Http.ByteRange

theorem numeral?_lt {digits : List Char} {n : Nat} (h : numeral? digits = some n) :
    n < Numeral.wordLimit := by
  unfold numeral? Numeral.decimal? at h
  split at h
  · cases h
  · exact of_decide_eq_true (Option.filter_eq_some_iff.1 h).2

theorem last?_words {digits : List Char} {last : Option Nat} (h : last? digits = some last) :
    ∀ n ∈ last, 0 < n ∧ n < Numeral.wordLimit := by
  intro n hn
  obtain rfl := hn
  unfold last? at h
  split at h
  · cases h
  · obtain ⟨m, hm, he⟩ := Option.map_eq_some_iff.1 h
    split at he
    · cases he
    · rename_i hz
      cases he
      exact ⟨Nat.pos_of_ne_zero hz, numeral?_lt hm⟩

/-- The indices of a range are words, and zero is never its last one. -/
theorem read?_words {value : Bytes} {range : ByteRange} (h : read? value = some range) :
    range.first < Numeral.wordLimit ∧ ∀ n ∈ range.last, 0 < n ∧ n < Numeral.wordLimit := by
  simp only [read?, Option.bind_eq_bind, Option.bind_eq_some_iff] at h
  obtain ⟨text, -, h⟩ := h
  split at h
  · cases h
  · split at h
    · cases h
    · unfold ofRange? at h
      split at h
      · cases h
      · simp only [Option.bind_eq_bind, Option.bind_eq_some_iff] at h
        obtain ⟨first, hf, last, hl, he⟩ := h
        cases he
        exact ⟨numeral?_lt hf, last?_words hl⟩

/-- The range has bytes in a file of `total` bytes. -/
def Satisfiable (range : ByteRange) (total : Nat) : Prop :=
  range.first < total ∧ ∀ n ∈ range.last, range.first ≤ n

instance (range : ByteRange) (total : Nat) : Decidable (range.Satisfiable total) :=
  inferInstanceAs (Decidable (_ ∧ ∀ n ∈ range.last, range.first ≤ n))

/-- The last index of the range in a file that is not empty. -/
def lastIn (range : ByteRange) (total : Nat) : Nat :=
  range.last.elim (total - 1) (min · (total - 1))

variable {range : ByteRange} {total : Nat}

theorem resolve?_satisfiable (h : range.Satisfiable total) :
    range.resolve? total = some (range.first, range.lastIn total) := by
  obtain ⟨first, last⟩ := range
  obtain ⟨hf, hl⟩ := h
  rw [resolve?, if_neg (Nat.not_le.2 hf)]
  cases last with
  | none => rfl
  | some n => exact if_neg (Nat.not_lt.2 (hl n rfl))

theorem resolve?_unsatisfiable (h : ¬ range.Satisfiable total) : range.resolve? total = none := by
  refine Option.eq_none_iff_forall_ne_some.2 fun found hr => h ?_
  unfold resolve? at hr
  split at hr
  · cases hr
  · rename_i ht
    refine ⟨Nat.not_le.1 ht, fun n hn => ?_⟩
    split at hr
    · rename_i hnone
      cases hnone.symm.trans hn
    · rename_i m hm
      cases hm.symm.trans hn
      split at hr
      · cases hr
      · omega

end Http.ByteRange

namespace Site

namespace FileBody

/-- One more piece is taken. -/
def Step (b next : FileBody) : Prop := ∃ piece, b.next? = some (some piece, next)

/-- The pieces that are taken one by one make up the bytes: none is missing, none is empty, and each
has the size of a chunk but the last, which may be shorter. Where the part ends is a word at every
stage, so that no sum on the way there leaves the words. -/
structure Yields (b : FileBody) (bytes : Bytes) (chunkSize : Nat) : Prop where
  complete : b.pieces.2 = true
  joined : b.pieces.1.flatten = bytes
  nonempty : ∀ piece ∈ b.pieces.1, piece ≠ []
  bounded : ∀ piece ∈ b.pieces.1, piece.length ≤ max chunkSize 1
  full : ∀ piece ∈ b.pieces.1.dropLast, piece.length = max chunkSize 1
  words : ∀ left, Relation.ReflTransGen Step b left →
    left.offset + left.remaining < Numeral.wordLimit

variable {b : FileBody}

/-- However many pieces were taken, the part lies in the file and ends where it ended. -/
theorem end_of_steps {left : FileBody} (hr : Relation.ReflTransGen Step b left)
    (h : b.offset + b.remaining ≤ b.file.length) :
    left.file = b.file ∧ left.offset + left.remaining = b.offset + b.remaining := by
  induction hr with
  | refl => exact ⟨rfl, rfl⟩
  | @tail mid left _ hstep ih =>
    obtain ⟨hfile, hend⟩ := ih
    obtain ⟨piece, hp⟩ := hstep
    rcases next?_cases (b := mid) (by rw [hfile, hend]; exact h) with ⟨hs, -⟩ | ⟨hs, -⟩
    · cases hp.symm.trans hs
    · cases hp.symm.trans hs
      exact ⟨hfile, mid.behind_end.trans hend⟩

theorem make_yields {file : Bytes} {offset size : Nat} (h : offset + size ≤ file.length)
    (hw : file.length < Numeral.wordLimit) (chunkSize : Nat) :
    (make file offset size chunkSize).Yields (file.slice offset size) chunkSize := by
  obtain ⟨hjoined, hcomplete⟩ := pieces_complete (b := make file offset size chunkSize) h
  obtain ⟨hsizes, hfull⟩ := pieces_sizes (b := make file offset size chunkSize) h
  refine ⟨hcomplete, hjoined, fun piece hp => ?_, fun piece hp => (hsizes piece hp).2, hfull,
    fun left hr => ?_⟩
  · exact List.ne_nil_of_length_pos (hsizes piece hp).1
  · rw [(end_of_steps hr h).2]
    exact Nat.lt_of_le_of_lt h hw

end FileBody

/-- The answer sends these bytes from a file, behind a head that tells how many they are. -/
structure Served.Sends (s : Served) (bytes : Bytes) (chunkSize : Nat) : Prop where
  length : s.head.field? "Content-Length" = some (toString bytes.length)
  headOnly : s.head.body = []
  streamed : ∃ body, s.body = some body ∧ body.Yields bytes chunkSize

variable {fields : List (String × String)} {status : Status} {place : String}

/-- Every field of an announcement is found by its name. -/
theorem field?_announce (hd : NewNames fields) {length : Nat} {name value : String}
    (hf : (name, value) ∈ ("Content-Length", toString length) :: fields) :
    (announce status fields place length).field? name = some value := by
  have hall := fields_announce status place length hd
  refine Response.field?_of_distinct (f := (name, value)) ?_ ?_
  · rw [hall, List.map_append]
    exact hd
  · rw [hall]
    rcases List.mem_cons.1 hf with hf | hf
    · rw [hf]
      simp
    · exact List.mem_append_left _ hf

/-- The field that tells which part of a file is sent. -/
theorem field?_part (value place : String) (length : Nat) :
    (announce .partialContent [("Content-Range", value)] place length).field? "Content-Range" =
      some value :=
  field?_announce (newNames_range value) (List.mem_cons_of_mem _ List.mem_cons_self)

/-- The two fields of the answer to a range outside a file. -/
theorem field?_rangeNotSatisfiable (total : Nat) :
    (Response.rangeNotSatisfiable total).field? "Content-Range" = some s!"bytes */{total}" ∧
      (Response.rangeNotSatisfiable total).field? "Content-Length" = some "0" := by
  have hd : Response.Distinct ["Content-Range", "Content-Length"] := by decide
  have hall : (Response.make .rangeNotSatisfiable
      [("Content-Range", s!"bytes */{total}")] []).fields =
        [("Content-Range", s!"bytes */{total}"), ("Content-Length", "0")] := by
    refine Response.fields_make ?_ ?_ []
    · exact nofun
    · exact hd
  have hfield {f : String × String}
      (hf : f ∈ [("Content-Range", s!"bytes */{total}"), ("Content-Length", "0")]) :
      (Response.rangeNotSatisfiable total).field? f.1 = some f.2 := by
    unfold Response.rangeNotSatisfiable
    exact Response.field?_of_distinct (hall.symm ▸ hd) (hall.symm ▸ hf)
  exact ⟨hfield (f := ("Content-Range", _)) (by simp),
    hfield (f := ("Content-Length", _)) (by simp)⟩

/-- What is announced is sent. -/
theorem sends_announce {content : Bytes} {first length : Nat}
    (hd : NewNames fields) (h : first + length ≤ content.length)
    (hw : content.length < Numeral.wordLimit) (chunkSize : Nat) :
    Served.Sends ⟨announce status fields place length, some (.make content first length chunkSize)⟩
      (content.slice first length) chunkSize := by
  refine ⟨?_, Response.body_make .., _, rfl, FileBody.make_yields h hw chunkSize⟩
  rw [FileBody.length_slice h]
  exact field?_announce hd List.mem_cons_self

variable {fs : FileSystem} {root path : String} {content : Bytes} {range : Option Bytes}

/-- What is answered where no range can be read. -/
theorem serveFile_whole (hn : range.bind ByteRange.read? = none) (place : String)
    (chunkSize : Nat) :
    serveFile place content range chunkSize =
      ⟨announce .ok [] place content.length, some (.make content 0 content.length chunkSize)⟩ := by
  simp only [serveFile, hn]

/-- What is answered to a range that the file has bytes of. -/
theorem serveFile_part {asked : ByteRange} (ha : range.bind ByteRange.read? = some asked)
    (hs : asked.Satisfiable content.length) (place : String) (chunkSize : Nat) :
    serveFile place content range chunkSize =
      ⟨announce .partialContent [("Content-Range",
          s!"bytes {asked.first}-{asked.lastIn content.length}/{content.length}")] place
          (asked.lastIn content.length - asked.first + 1),
        some (.make content asked.first (asked.lastIn content.length - asked.first + 1)
          chunkSize)⟩ := by
  simp only [serveFile, ha, ByteRange.resolve?_satisfiable hs]

/-- What is answered to a range outside the file. -/
theorem serveFile_outside {asked : ByteRange} (ha : range.bind ByteRange.read? = some asked)
    (hs : ¬ asked.Satisfiable content.length) (place : String) (chunkSize : Nat) :
    serveFile place content range chunkSize = ⟨.rangeNotSatisfiable content.length, none⟩ := by
  simp only [serveFile, ha, ByteRange.resolve?_unsatisfiable hs]

/-- The answer for a file that is there. Without a range that can be read, all of the file is sent.
A range that can be read is made of words. Where it has bytes in the file, these are sent, and
nothing that is computed from them leaves the words. Where it has none, nothing of the file is. -/
theorem serve_located (hl : locate fs root path = .ok (place, content))
    (hw : content.length < Numeral.wordLimit) (range : Option Bytes) (chunkSize : Nat) :
    let total := content.length
    let served := serve fs root path range chunkSize
    (range.bind ByteRange.read? = none →
      served.head.status = .ok ∧ served.Sends content chunkSize) ∧
    ∀ asked, range.bind ByteRange.read? = some asked →
      (asked.first < Numeral.wordLimit ∧ ∀ n ∈ asked.last, 0 < n ∧ n < Numeral.wordLimit) ∧
      (asked.Satisfiable total →
        let first := asked.first
        let last := asked.lastIn total
        (1 ≤ total ∧ first ≤ last ∧ last < total ∧ last - first + 1 < Numeral.wordLimit) ∧
        served.head.status = .partialContent ∧
        served.head.field? "Content-Range" = some s!"bytes {first}-{last}/{total}" ∧
        served.Sends (content.slice first (last - first + 1)) chunkSize) ∧
      (¬ asked.Satisfiable total →
        served.head.status = .rangeNotSatisfiable ∧
        served.head.field? "Content-Range" = some s!"bytes */{total}" ∧
        served.head.field? "Content-Length" = some "0" ∧
        served.head.body = [] ∧ served.body = none) := by
  have hserved : serve fs root path range chunkSize =
      serveFile place content range chunkSize := by
    simp only [serve, hl]
  dsimp only
  rw [hserved]
  refine ⟨fun hnone => ?_, fun asked ha => ⟨?_, fun hs => ?_, fun hs => ?_⟩⟩
  · have hsends : Served.Sends
        ⟨announce .ok [] place content.length, some (.make content 0 content.length chunkSize)⟩
        (content.slice 0 content.length) chunkSize :=
      sends_announce newNames_nil (Nat.le_of_eq (Nat.zero_add _)) hw chunkSize
    rw [Bytes.slice, List.drop_zero, List.take_length] at hsends
    rw [serveFile_whole hnone]
    exact ⟨Response.status_make .., hsends⟩
  · obtain ⟨value, -, hread⟩ := Option.bind_eq_some_iff.1 ha
    exact ByteRange.read?_words hread
  · obtain ⟨hfl, hlt⟩ := ByteRange.resolve?_eq_some (ByteRange.resolve?_satisfiable hs)
    have hin : asked.first + (asked.lastIn content.length - asked.first + 1) ≤ content.length := by
      omega
    rw [serveFile_part ha hs]
    dsimp only
    refine ⟨⟨by omega, hfl, hlt, by omega⟩, Response.status_make .., ?_, ?_⟩
    · exact field?_part _ place _
    · exact sends_announce (newNames_range _) hin hw chunkSize
  · obtain ⟨hrange, hlength⟩ := field?_rangeNotSatisfiable content.length
    rw [serveFile_outside ha hs]
    exact ⟨Response.status_make .., hrange, hlength, Response.body_make .., rfl⟩

/-- A range that ends behind the file, sent in pieces of two bytes. -/
theorem serve_located_hello :
    let fs : FileSystem := { entries := [(["srv", "a.txt"], .file (Bytes.ofText "hello"))] }
    let range := Bytes.ofText "bytes=2-9"
    let served := serve fs "srv" "/a.txt" (some range) 2
    locate fs "srv" "/a.txt" = .ok ("srv/a.txt", Bytes.ofText "hello") ∧
      (Bytes.ofText "hello").length < Numeral.wordLimit ∧
      ByteRange.read? range = some ⟨2, some 9⟩ ∧
      served.head.status = .partialContent ∧
      served.head.field? "Content-Range" = some "bytes 2-4/5" ∧
      served.Sends (Bytes.ofText "llo") 2 := by
  have hl : locate { entries := [(["srv", "a.txt"], .file (Bytes.ofText "hello"))] } "srv"
      "/a.txt" = .ok ("srv/a.txt", Bytes.ofText "hello") := by decide +kernel
  have hw : (Bytes.ofText "hello").length < Numeral.wordLimit := by decide +kernel
  have ha : (some (Bytes.ofText "bytes=2-9")).bind ByteRange.read? = some ⟨2, some 9⟩ := by
    decide +kernel
  have hs : ByteRange.Satisfiable ⟨2, some 9⟩ (Bytes.ofText "hello").length := by
    decide +kernel
  obtain ⟨-, hpart⟩ := serve_located hl hw (some (Bytes.ofText "bytes=2-9")) 2
  obtain ⟨-, hstatus, hrange, hsends⟩ := (hpart _ ha).2.1 hs
  exact ⟨hl, hw, ha, hstatus, hrange, hsends⟩

end Site

end OriginServer
