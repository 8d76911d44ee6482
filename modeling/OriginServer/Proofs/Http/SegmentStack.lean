import Mathlib.Data.List.Flatten
import OriginServer.Proofs.Http.DotSegments
import OriginServer.Proofs.Text.Letters

namespace OriginServer.Http.DotSegments

section Stack

/-- Whether a segment leads nowhere or up. -/
def isDots (segment : List Char) : Bool := segment == ['.'] || segment == ['.', '.']

/-- Follows a segment from where the segments of the stack lead. -/
def follow (stack : List (List Char)) (segment : List Char) : List (List Char) :=
  if segment = ['.'] then stack
  else if segment = ['.', '.'] then stack.tail
  else segment :: stack

/-- Follows segments one by one. A dot segment at the end leaves an empty one behind, since the
path still ends at a directory. -/
def followAll (stack segments : List (List Char)) : List (List Char) :=
  let reached := segments.foldl follow stack
  if segments.getLast?.any isDots then [] :: reached else reached

/-- The path of a stack, with a slash in front of each segment. -/
def joined (stack : List (List Char)) : String :=
  String.ofList (stack.reverse.flatMap ('/' :: ·))

theorem followAll_single (stack : List (List Char)) (s : List Char) :
    followAll stack [s] = if isDots s then [] :: follow stack s else follow stack s :=
  rfl

theorem followAll_cons (stack : List (List Char)) (s : List Char) {segments : List (List Char)}
    (h : segments ≠ []) :
    followAll stack (s :: segments) = followAll (follow stack s) segments := by
  obtain ⟨t, later, rfl⟩ := List.exists_cons_of_ne_nil h
  simp only [followAll, List.foldl_cons, List.getLast?_cons_cons]

/-- A segment is one of the two dot segments, or it is plain. -/
theorem segment_cases {s : List Char} (hs : '/' ∉ s) : s = ['.'] ∨ s = ['.', '.'] ∨ Plain s := by
  by_cases hd : s = ['.']
  · exact .inl hd
  · by_cases hu : s = ['.', '.']
    · exact .inr (.inl hu)
    · exact .inr (.inr ⟨hs, hd, hu⟩)

theorem Plain.follow {s : List Char} (hs : Plain s) (stack : List (List Char)) :
    DotSegments.follow stack s = s :: stack := by
  rw [DotSegments.follow, if_neg hs.ne_dot, if_neg hs.ne_dots]

theorem Plain.isDots {s : List Char} (hs : Plain s) : DotSegments.isDots s = false := by
  simp [DotSegments.isDots, hs.ne_dot, hs.ne_dots]

end Stack

section Pieces

variable {kept : List (List Char)} {s rest : List Char}

/-- What may stand behind a segment: nothing, or a slash. -/
def Behind (rest : List Char) : Prop := rest = [] ∨ ∃ later, rest = '/' :: later

theorem Behind.cut (hs : '/' ∉ s) (hr : Behind rest) :
    (s ++ rest).takeWhile (· != '/') = s ∧ (s ++ rest).dropWhile (· != '/') = rest := by
  have hpass : ∀ c ∈ s, (c != '/') = true := by
    intro c hc
    exact bne_iff_ne.2 fun he => hs (he ▸ hc)
  rw [List.takeWhile_append_of_pos hpass, List.dropWhile_append_of_pos hpass]
  obtain rfl | ⟨later, rfl⟩ := hr
  · simp
  · simp

/-- Before a plain segment no rule for dots applies. -/
theorem Plain.append_ne (hs : Plain s) (hr : Behind rest) :
    s ++ rest ≠ ['.'] ∧ s ++ rest ≠ ['.', '.'] ∧
      (∀ later, s ++ rest ≠ '.' :: '/' :: later) ∧
      ∀ later, s ++ rest ≠ '.' :: '.' :: '/' :: later := by
  have hcut := (hr.cut hs.no_slash).1
  refine ⟨?_, ?_, ?_, ?_⟩
  · intro he
    rw [he] at hcut
    exact hs.ne_dot hcut.symm
  · intro he
    rw [he] at hcut
    exact hs.ne_dots hcut.symm
  · intro later he
    rw [he] at hcut
    exact hs.ne_dot hcut.symm
  · intro later he
    rw [he] at hcut
    exact hs.ne_dots hcut.symm

/-- A plain segment is kept with the slash in front of it. -/
theorem resolve_plain (hs : Plain s) (hr : Behind rest) :
    resolve kept ('/' :: (s ++ rest)) = resolve (('/' :: s) :: kept) rest := by
  obtain ⟨htake, hdrop⟩ := hr.cut hs.no_slash
  obtain ⟨hhere, hup, hhere', hup'⟩ := hs.append_ne hr
  rw [resolve, htake, hdrop]
  -- It remains that none of the rules for dots comes first.
  all_goals simp_all

/-- A plain segment at the front of a path is kept without a slash. -/
theorem resolve_lowest (hs : Plain s) (hne : s ≠ []) (hr : Behind rest) :
    resolve kept (s ++ rest) = resolve (s :: kept) rest := by
  obtain ⟨c, t, rfl⟩ := List.exists_cons_of_ne_nil hne
  have hc : c ≠ '/' := fun he => hs.no_slash (he ▸ List.mem_cons_self)
  have ht : '/' ∉ t := fun hm => hs.no_slash (List.mem_cons_of_mem _ hm)
  obtain ⟨htake, hdrop⟩ := hr.cut ht
  obtain ⟨hhere, hup, hhere', hup'⟩ := hs.append_ne hr
  rw [List.cons_append] at hhere hup hhere' hup' ⊢
  rw [resolve, htake, hdrop]
  all_goals simp_all

end Pieces

section Walk

/-- The pieces of a stack: its segments, each behind a slash. -/
def pieces (stack : List (List Char)) : List (List Char) := stack.map ('/' :: ·)

theorem flatten_pieces (stack : List (List Char)) :
    String.ofList (pieces stack).reverse.flatten = joined stack := by
  rw [joined, pieces, ← List.map_reverse, List.flatMap_def]

variable {s rest : List Char}

/-- The last segment of a path is followed, and a dot segment leaves an empty one behind. -/
theorem resolve_last (stack : List (List Char)) (hs : '/' ∉ s) :
    resolve (pieces stack) ('/' :: s) = pieces (followAll stack [s]) := by
  rw [followAll_single]
  obtain rfl | rfl | hp := segment_cases hs
  · rw [resolve]
    rfl
  · rw [resolve, pieces, ← List.map_tail]
    rfl
  · have hstep : resolve (pieces stack) ('/' :: (s ++ [])) = _ := resolve_plain hp (.inl rfl)
    rw [List.append_nil] at hstep
    rw [hstep, hp.isDots, hp.follow, resolve]
    rfl

/-- A segment with another one behind it is followed. -/
theorem resolve_step (stack : List (List Char)) (hs : '/' ∉ s) :
    resolve (pieces stack) ('/' :: (s ++ '/' :: rest)) =
      resolve (pieces (follow stack s)) ('/' :: rest) := by
  obtain rfl | rfl | hp := segment_cases hs
  · rw [List.singleton_append, resolve]
    rfl
  · rw [List.cons_append, List.singleton_append, resolve, pieces, ← List.map_tail]
    rfl
  · rw [resolve_plain hp (.inr ⟨rest, rfl⟩), hp.follow]
    rfl

/-- The segments of an absolute path are followed one by one. -/
theorem resolve_walk (stack : List (List Char)) (path : List Char) :
    resolve (pieces stack) ('/' :: path) =
      pieces (followAll stack (path.splitOnP (· == '/'))) := by
  induction hn : path.length using Nat.strongRecOn generalizing stack path with
  | ind n ih =>
    subst hn
    have hpath : path.takeWhile (· != '/') ++ path.dropWhile (· != '/') = path :=
      List.takeWhile_append_dropWhile
    have hs := not_mem_takeWhile path
    have hone : (path.takeWhile (· != '/')).splitOnP (· == '/') = [path.takeWhile (· != '/')] :=
      List.splitOnP_eq_singleton fun _ hc => beq_false_of_ne fun he => hs (he ▸ hc)
    obtain hd | ⟨rest, hd⟩ := dropWhile_cases path
    · rw [hd, List.append_nil] at hpath
      rw [hpath] at hs hone
      rw [resolve_last stack hs, hone]
    · rw [hd] at hpath
      have hlt : rest.length < path.length := by
        rw [← hpath, List.length_append, List.length_cons]
        omega
      have hsplit : path.splitOnP (· == '/') =
          path.takeWhile (· != '/') :: rest.splitOnP (· == '/') := by
        have hcut := List.splitOnP_append_cons (p := fun c : Char => c == '/')
          (path.takeWhile (· != '/')) rest (beq_self_eq_true '/')
        rwa [hpath, hone, List.singleton_append] at hcut
      have hstep : resolve (pieces stack) ('/' :: (path.takeWhile (· != '/') ++ '/' :: rest)) = _ :=
        resolve_step stack hs
      rw [hpath] at hstep
      rw [hstep, ih rest.length hlt _ rest rfl, hsplit,
        followAll_cons _ _ (List.splitOnP_ne_nil _ _)]

end Walk

section NormalForm

/-- What is kept of a path is found in it, in order. -/
theorem resolve_sublist (kept : List (List Char)) (path : List Char) :
    (resolve kept path).reverse.flatten.Sublist (kept.reverse.flatten ++ path) := by
  have below (k : List (List Char)) : k.tail.reverse.flatten.Sublist k.reverse.flatten :=
    (List.tail_sublist k).reverse.flatten
  have skip (front p : List Char) : p.Sublist (front ++ p) := List.sublist_append_right front p
  fun_induction resolve kept path with
  | case1 kept => simp
  | case2 kept rest ih => exact ih.trans ((skip ['.', '.', '/'] rest).append_left _)
  | case3 kept rest ih => exact ih.trans ((skip ['.', '/'] rest).append_left _)
  | case4 kept rest ih => exact ih.trans ((skip ['/', '.'] ('/' :: rest)).append_left _)
  | case5 kept => simp
  | case6 kept rest ih => exact ih.trans ((below kept).append (skip ['/', '.', '.'] _))
  | case7 kept =>
    have hslash := List.sublist_append_left ['/'] ['.', '.']
    simpa using (below kept).append hslash
  | case8 kept => simp
  | case9 kept => simp
  | case10 kept c rest _ _ _ _ _ _ _ _ ih => simpa using ih

/-- No piece is empty. -/
theorem nil_not_mem_resolve {kept : List (List Char)} {path : List Char} (h : [] ∉ kept) :
    [] ∉ resolve kept path := by
  have below (k : List (List Char)) (hk : [] ∉ k) : [] ∉ k.tail :=
    fun hm => hk (List.mem_of_mem_tail hm)
  fun_induction resolve kept path with
  | case1 kept => exact h
  | case2 kept rest ih => exact ih h
  | case3 kept rest ih => exact ih h
  | case4 kept rest ih => exact ih h
  | case5 kept => simpa using h
  | case6 kept rest ih => exact ih (below kept h)
  | case7 kept => simpa using below kept h
  | case8 kept => exact h
  | case9 kept => exact h
  | case10 kept c rest _ _ _ _ _ _ _ _ ih => exact ih (by simpa using h)

/-- Pieces that were kept are kept again when their path is read. -/
theorem Kept.resolve_again {kept : List (List Char)} {rest : List Char} (hk : Kept kept)
    (hne : [] ∉ kept) (hr : Behind rest) :
    resolve [] (kept.reverse.flatten ++ rest) = resolve kept rest := by
  induction hk generalizing rest with
  | nil => rfl
  | lowest hs =>
    rw [List.reverse_singleton, List.flatten_singleton]
    exact resolve_lowest hs (fun he => hne (he ▸ List.mem_singleton_self _)) hr
  | @push segment below hk hs ih =>
    have hbelow : resolve [] (below.reverse.flatten ++ '/' :: (segment ++ rest)) = _ :=
      ih (fun hm => hne (List.mem_cons_of_mem _ hm)) (.inr ⟨_, rfl⟩)
    rw [List.reverse_cons, List.flatten_append, List.flatten_singleton, List.append_assoc,
      List.cons_append, hbelow, resolve_plain hs hr]

/-- An absolute path without its dot segments has the segments that its own lead to when they are
followed one by one on a stack. What is left of any path has no dot segment, is no longer than the
path, in characters and in bytes, and stays as it is. -/
theorem remove_normal_form (path : String) :
    (∀ rest, path.toList = '/' :: rest →
      remove path = joined (followAll [] (rest.splitOnP (· == '/')))) ∧
    (∀ s ∈ (remove path).toList.splitOnP (· == '/'), s ≠ ['.'] ∧ s ≠ ['.', '.']) ∧
    ((remove path).length ≤ path.length ∧
      (Bytes.ofText (remove path)).length ≤ (Bytes.ofText path).length) ∧
    remove (remove path) = remove path := by
  have hkept : Kept (resolve [] path.toList) := kept_resolve path.toList
  have hpart : (remove path).toList.Sublist path.toList := by
    rw [remove_eq, String.toList_ofList]
    exact resolve_sublist [] path.toList
  refine ⟨?_, ?_, ⟨?_, ?_⟩, ?_⟩
  · intro rest hpath
    have hwalk : resolve [] ('/' :: rest) = _ := resolve_walk [] rest
    rw [remove_eq, hpath, hwalk, flatten_pieces]
  · intro s hs
    have hplain := plain_remove hs
    exact ⟨hplain.ne_dot, hplain.ne_dots⟩
  · rw [← String.length_toList, ← String.length_toList]
    exact hpart.length_le
  · rw [Bytes.ofText_eq, Bytes.ofText_eq]
    exact (hpart.flatMap _).length_le
  · have hagain := hkept.resolve_again (nil_not_mem_resolve List.not_mem_nil) (.inl rfl)
    rw [List.append_nil, resolve] at hagain
    conv_lhs => rw [remove_eq (remove path), remove_eq path, String.toList_ofList, hagain]
    exact (remove_eq path).symm

/-- A relative path without its dot segments. -/
example : remove "mid/content=5/../6" = "mid/6" := by cbv

end NormalForm

end OriginServer.Http.DotSegments
