import OriginServer.Proofs.Http.Response
import OriginServer.Site.Serve

namespace OriginServer

open OriginServer.Http OriginServer.Site

theorem Http.ByteRange.resolve?_eq_some {range : ByteRange} {total first last : Nat}
    (h : range.resolve? total = some (first, last)) : first ≤ last ∧ last < total := by
  unfold resolve? at h
  split at h
  · cases h
  · rename_i ht
    split at h
    · cases h
      omega
    · split at h
      · cases h
      · cases h
        omega

namespace Site

/-- Some path leads to a file with this content. -/
def FileSystem.Holds (fs : FileSystem) (content : Bytes) : Prop :=
  ∃ path, fs.find? path = some (.file content)

theorem FileSystem.mem_of_follow {fs : FileSystem} {place segments : List String}
    {content : Bytes} (h : fs.follow place segments = some (.file content)) :
    ∃ place, (place, Entry.file content) ∈ fs.entries := by
  fun_induction follow fs place segments with
  | case1 place =>
    unfold entry? at h
    split at h
    · rename_i e he
      refine ⟨e.1, ?_⟩
      rw [← Option.some.inj h]
      exact List.mem_of_find?_eq_some he
    · split at h <;> cases h
  | case2 => cases h
  | case3 _ _ _ _ _ ih => exact ih h
  | case4 _ _ _ _ ih => exact ih h
  | case5 _ _ _ _ _ _ ih => exact ih h

/-- Every file that a path leads to is an entry. -/
theorem FileSystem.Holds.mem {fs : FileSystem} {content : Bytes} (h : fs.Holds content) :
    ∃ place, (place, Entry.file content) ∈ fs.entries := by
  obtain ⟨path, hf⟩ := h
  unfold find? at hf
  split at hf
  · cases hf
  · exact mem_of_follow hf

/-- The names of the fields in front are new to an announcement. -/
def NewNames (fields : List (String × String)) : Prop :=
  Response.Distinct (fields.map (·.1) ++ ["Content-Type", "Content-Length", "Accept-Ranges"])

theorem newNames_nil : NewNames [] := by
  show Response.Distinct ["Content-Type", "Content-Length", "Accept-Ranges"]
  decide

theorem newNames_range (value : String) : NewNames [("Content-Range", value)] := by
  show Response.Distinct ["Content-Range", "Content-Type", "Content-Length", "Accept-Ranges"]
  decide

/-- A length that is announced takes the place of that of the body. -/
theorem fields_announce {fields : List (String × String)} (status : Status) (place : String)
    (length : Nat) (hd : NewNames fields) :
    (announce status fields place length).fields =
      fields ++ [("Content-Type", MediaType.ofPath place), ("Content-Length", toString length),
        ("Accept-Ranges", "bytes")] := by
  have hl : sameLetters "Content-Length" "Content-Length" = true := by decide
  refine Response.fields_make_of_length status ?_ (f := ("Content-Length", toString length)) ?_
    hl []
  · rw [List.map_append]
    exact hd
  · simp

/-- The answers to a request for a file below the root. -/
inductive FileAnswer (fs : FileSystem) (chunkSize : Nat) : Served → Prop
  | missing : FileAnswer fs chunkSize ⟨.notFound, none⟩
  | locked : FileAnswer fs chunkSize ⟨.internalError, none⟩
  | outside {content : Bytes} (hc : fs.Holds content) :
    FileAnswer fs chunkSize ⟨.rangeNotSatisfiable content.length, none⟩
  | whole {content : Bytes} (place : String) (hc : fs.Holds content) :
    FileAnswer fs chunkSize
      ⟨announce .ok [] place content.length, some (.make content 0 content.length chunkSize)⟩
  | part {content : Bytes} {first last : Nat} (place : String) (hc : fs.Holds content)
      (hf : first ≤ last) (hl : last < content.length) :
    FileAnswer fs chunkSize
      ⟨announce .partialContent
          [("Content-Range", s!"bytes {first}-{last}/{content.length}")] place (last - first + 1),
        some (.make content first (last - first + 1) chunkSize)⟩

variable {fs : FileSystem} {root path place : String}

theorem serveFile_answer {content : Bytes} (hc : fs.Holds content) (place : String)
    (range : Option Bytes) (chunkSize : Nat) :
    FileAnswer fs chunkSize (serveFile place content range chunkSize) := by
  unfold serveFile
  dsimp only
  split
  · exact .whole place hc
  · split
    · exact .outside hc
    · rename_i hr
      obtain ⟨hf, hl⟩ := ByteRange.resolve?_eq_some hr
      exact .part place hc hf hl

theorem locate_below (fs : FileSystem) (hb : below? root path = some place) :
    (∃ r, locate fs root path = .error r ∧ (r = .notFound ∨ r = .internalError)) ∨
      ∃ file content, fs.Holds content ∧ locate fs root path = .ok (file, content) := by
  unfold locate
  simp only [hb]
  rcases hf : fs.find? place with _ | (content | _ | _)
  · exact .inl ⟨_, rfl, .inl rfl⟩
  · exact .inr ⟨place, content, ⟨place, hf⟩, rfl⟩
  · exact .inl ⟨_, rfl, .inr rfl⟩
  · rcases hi : fs.find? (join place indexName) with _ | (content | _ | _)
    · exact .inl ⟨_, rfl, .inl rfl⟩
    · exact .inr ⟨join place indexName, content, ⟨_, hi⟩, rfl⟩
    · exact .inl ⟨_, rfl, .inr rfl⟩
    · exact .inl ⟨_, rfl, .inl rfl⟩

theorem serve_answer (hb : below? root path = some place) (range : Option Bytes)
    (chunkSize : Nat) : FileAnswer fs chunkSize (serve fs root path range chunkSize) := by
  unfold serve
  obtain ⟨r, h, rfl | rfl⟩ | ⟨file, content, hc, h⟩ := locate_below fs hb
  · rw [h]
    exact .missing
  · rw [h]
    exact .locked
  · rw [h]
    exact serveFile_answer hc file range chunkSize

end Site

end OriginServer
