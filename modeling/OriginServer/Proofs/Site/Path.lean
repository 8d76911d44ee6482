import OriginServer.Http.Target
import OriginServer.Proofs.Http.DotSegments
import OriginServer.Proofs.Http.Response
import OriginServer.Proofs.Site.Serve

namespace OriginServer

open OriginServer.Http OriginServer.Site

namespace Http.Target

/-- The path of a target, whatever path a URL has and whatever text an escaped path stands for. -/
def pathBy? (urlPath? decode? : String → Option String) (target : String) : Option String :=
  let raw? :=
    if target.toList.head? = some '/' then
      some (String.ofList (target.toList.takeWhile fun c => c != '?' && c != '#'))
    else urlPath? target
  (raw?.bind decode?).map DotSegments.remove

theorem path?_eq_pathBy? (target : String) :
    path? target =
      pathBy? (fun t => (url? t).map fun url => String.ofList url.path) Percent.decodeText?
        target :=
  rfl

theorem eq_remove_of_pathBy? {urlPath? decode? : String → Option String} {target path : String}
    (h : pathBy? urlPath? decode? target = some path) : ∃ t, path = DotSegments.remove t := by
  obtain ⟨t, -, ht⟩ := Option.map_eq_some_iff.1 h
  exact ⟨t, ht.symm⟩

end Http.Target

namespace Site

/-- The segments of a path that are not empty. -/
def names (path : String) : List String := (FileSystem.segments path).filter (· != "")

theorem plain_of_mem_segments {path s : String}
    (h : s ∈ FileSystem.segments (DotSegments.remove path)) : DotSegments.Plain s.toList := by
  obtain ⟨segment, hs, rfl⟩ := List.mem_map.1 h
  rw [String.toList_ofList]
  exact DotSegments.plain_remove hs

theorem names_remove {path s : String} (h : s ∈ names (DotSegments.remove path)) :
    s ≠ "." ∧ s ≠ ".." ∧ '/' ∉ s.toList := by
  have hs := plain_of_mem_segments (List.mem_filter.1 h).1
  exact ⟨fun he => hs.ne_dot (he ▸ rfl), fun he => hs.ne_dots (he ▸ rfl), hs.no_slash⟩

theorem segments_remove (path : String) :
    segments (DotSegments.remove path) = names (DotSegments.remove path) := by
  refine List.filter_congr fun s hs => ?_
  have hd : s ≠ "." := fun he => (plain_of_mem_segments hs).ne_dot (he ▸ rfl)
  rw [bne_iff_ne.2 hd, Bool.and_true]

/-- A path without dot segments is found below every root. -/
theorem below?_remove (root path : String) :
    below? root (DotSegments.remove path) =
      some ((names (DotSegments.remove path)).foldl join root) := by
  unfold below?
  rw [segments_remove]
  have hn : (names (DotSegments.remove path)).contains ".." = false :=
    eq_false_of_ne_true fun hc => (names_remove (List.contains_iff_mem.1 hc)).2.1 rfl
  simp only [hn, Bool.false_eq_true, if_false]

theorem FileAnswer.status_ne {fs : FileSystem} {chunkSize : Nat} {s : Served}
    (h : FileAnswer fs chunkSize s) : s.head.status ≠ .forbidden := by
  cases h <;> simp [announce, Response.notFound, Response.internalError, Response.plain,
    Response.rangeNotSatisfiable]

end Site

end OriginServer
