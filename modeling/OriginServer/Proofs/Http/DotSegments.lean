import OriginServer.Http.DotSegments

namespace OriginServer.Http.DotSegments

/-- The same walk with the output in its pieces, each a segment with the slash in front of it, as a
stack with the last one on top. -/
def resolve (kept : List (List Char)) : List Char → List (List Char)
  | [] => kept
  | '.' :: '.' :: '/' :: rest => resolve kept rest
  | '.' :: '/' :: rest => resolve kept rest
  | '/' :: '.' :: '/' :: rest => resolve kept ('/' :: rest)
  | ['/', '.'] => ['/'] :: kept
  | '/' :: '.' :: '.' :: '/' :: rest => resolve kept.tail ('/' :: rest)
  | ['/', '.', '.'] => ['/'] :: kept.tail
  | ['.'] => kept
  | ['.', '.'] => kept
  | c :: rest =>
    resolve ((c :: rest.takeWhile (· != '/')) :: kept) (rest.dropWhile (· != '/'))
  termination_by path => path.length
  decreasing_by
    all_goals simp only [List.length_cons]
    all_goals try omega
    exact Nat.lt_succ_of_le (List.dropWhile_sublist _).length_le

/-- A segment without slashes that leads nowhere but down. -/
structure Plain (segment : List Char) : Prop where
  no_slash : '/' ∉ segment
  ne_dot : segment ≠ ['.']
  ne_dots : segment ≠ ['.', '.']

/-- Pieces that were kept: plain segments, each behind a slash, which the lowest may lack. -/
inductive Kept : List (List Char) → Prop
  | nil : Kept []
  | lowest {segment : List Char} (hs : Plain segment) : Kept [segment]
  | push {segment : List Char} {kept : List (List Char)} (hk : Kept kept) (hs : Plain segment) :
    Kept (('/' :: segment) :: kept)

theorem plain_nil : Plain [] := ⟨nofun, nofun, nofun⟩

theorem Plain.splitOnP {segment : List Char} (hs : Plain segment) :
    segment.splitOnP (· == '/') = [segment] :=
  List.splitOnP_eq_singleton fun _ hc => beq_false_of_ne fun he => hs.no_slash (he ▸ hc)

theorem Kept.tail {kept : List (List Char)} (h : Kept kept) : Kept kept.tail := by
  cases h with
  | nil => exact .nil
  | lowest hs => exact .nil
  | push hk hs => exact hk

/-- The kept pieces, joined in order, have plain segments only. -/
theorem Kept.plain {kept : List (List Char)} (h : Kept kept) :
    ∀ s ∈ kept.reverse.flatten.splitOnP (· == '/'), Plain s := by
  induction h with
  | nil =>
    intro s hs
    rw [List.mem_singleton.1 hs]
    exact plain_nil
  | lowest hs =>
    intro s hm
    rw [List.reverse_singleton, List.flatten_singleton, hs.splitOnP] at hm
    rw [List.mem_singleton.1 hm]
    exact hs
  | @push segment kept hk hs ih =>
    intro s hm
    have hp := List.splitOnP_append_cons (p := fun c : Char => c == '/') kept.reverse.flatten
      segment (beq_self_eq_true '/')
    rw [List.reverse_cons, List.flatten_append, List.flatten_singleton, hp, hs.splitOnP] at hm
    obtain hm | hm := List.mem_append.1 hm
    · exact ih s hm
    · rw [List.mem_singleton.1 hm]
      exact hs

theorem not_mem_takeWhile (path : List Char) : '/' ∉ path.takeWhile (· != '/') := by
  intro hm
  have := List.all_eq_true.1 List.all_takeWhile _ hm
  simp at this

/-- Behind the next segment the path ends or a slash follows. -/
theorem dropWhile_cases (path : List Char) :
    path.dropWhile (· != '/') = [] ∨ ∃ rest, path.dropWhile (· != '/') = '/' :: rest := by
  induction path with
  | nil => exact .inl rfl
  | cons c path ih =>
    by_cases hc : c = '/'
    · exact .inr ⟨path, by simp [hc]⟩
    · simpa [hc] using ih

/-- The next segment is plain where no rule for dots applies. -/
theorem plain_takeWhile {path : List Char} (h₁ : path ≠ ['.']) (h₂ : path ≠ ['.', '.'])
    (h₃ : ∀ rest, path ≠ '.' :: '/' :: rest) (h₄ : ∀ rest, path ≠ '.' :: '.' :: '/' :: rest) :
    Plain (path.takeWhile (· != '/')) := by
  have hd : path.takeWhile (· != '/') ++ path.dropWhile (· != '/') = path :=
    List.takeWhile_append_dropWhile
  refine ⟨not_mem_takeWhile path, fun he => ?_, fun he => ?_⟩
  · obtain hr | ⟨rest, hr⟩ := dropWhile_cases path
    · exact h₁ (by rw [← hd, he, hr, List.append_nil])
    · exact h₃ rest (by rw [← hd, he, hr]; rfl)
  · obtain hr | ⟨rest, hr⟩ := dropWhile_cases path
    · exact h₂ (by rw [← hd, he, hr, List.append_nil])
    · exact h₄ rest (by rw [← hd, he, hr]; rfl)

/-- Where a path may begin without a slash, nothing was kept yet. -/
def Opens (kept : List (List Char)) (path : List Char) : Prop :=
  kept = [] ∨ path = [] ∨ ∃ rest, path = '/' :: rest

theorem Opens.eq_nil {kept : List (List Char)} {c : Char} {rest : List Char} (hc : c ≠ '/')
    (h : Opens kept (c :: rest)) : kept = [] :=
  h.resolve_right fun | .inr ⟨_, he⟩ => hc (List.cons.inj he).1

theorem opens_slash (kept : List (List Char)) (rest : List Char) : Opens kept ('/' :: rest) :=
  .inr (.inr ⟨rest, rfl⟩)

section Output

theorem findIdx?_of_not_mem {s : List Char} (hs : '/' ∉ s) :
    s.reverse.findIdx? (· == '/') = none := by
  rw [List.findIdx?_eq_none_iff]
  intro c hc
  exact beq_false_of_ne fun he => hs (he ▸ List.mem_reverse.1 hc)

theorem lastSlash?_cons {front s : List Char} (hs : '/' ∉ s) :
    lastSlash? (front ++ '/' :: s) = some front.length := by
  have hback : (front ++ '/' :: s).reverse = s.reverse ++ '/' :: front.reverse := by simp
  have hfirst : ('/' :: front.reverse).findIdx? (· == '/') = some 0 := by
    rw [List.findIdx?_cons, if_pos (beq_self_eq_true '/')]
  rw [lastSlash?, hback, List.findIdx?_append, findIdx?_of_not_mem hs, hfirst]
  simp

theorem lastSlash?_of_not_mem {s : List Char} (hs : '/' ∉ s) : lastSlash? s = none := by
  rw [lastSlash?, findIdx?_of_not_mem hs]
  rfl

/-- What is cut off the output is the piece on top of the stack. -/
theorem Kept.popSegment {kept : List (List Char)} (h : Kept kept) :
    DotSegments.popSegment kept.reverse.flatten = kept.tail.reverse.flatten := by
  cases h with
  | nil => rfl
  | lowest hs =>
    rw [List.reverse_singleton, List.flatten_singleton, DotSegments.popSegment,
      lastSlash?_of_not_mem hs.no_slash]
    rfl
  | @push segment kept hk hs =>
    rw [List.reverse_cons, List.flatten_append, List.flatten_singleton, DotSegments.popSegment,
      lastSlash?_cons hs.no_slash]
    exact List.take_left

theorem loop_slash (output : List Char) : loop output ['/'] = output ++ ['/'] := by
  rw [loop]
  · exact loop.eq_1 _
  all_goals simp

end Output

/-- On every iteration the output is the pieces of the stack, joined in order, and these are in
order themselves. -/
theorem loop_resolve {kept : List (List Char)} {path : List Char} (hk : Kept kept)
    (ho : Opens kept path) :
    loop kept.reverse.flatten path = (resolve kept path).reverse.flatten ∧
      Kept (resolve kept path) := by
  fun_induction resolve kept path with
  | case1 kept =>
    rw [loop]
    exact ⟨rfl, hk⟩
  | case2 kept rest ih =>
    rw [loop]
    exact ih hk (.inl (ho.eq_nil (by decide)))
  | case3 kept rest ih =>
    rw [loop]
    exact ih hk (.inl (ho.eq_nil (by decide)))
  | case4 kept rest ih =>
    rw [loop]
    exact ih hk (opens_slash _ _)
  | case5 kept =>
    rw [loop, loop_slash, List.reverse_cons, List.flatten_append, List.flatten_singleton]
    exact ⟨rfl, .push hk plain_nil⟩
  | case6 kept rest ih =>
    rw [loop, hk.popSegment]
    exact ih hk.tail (opens_slash _ _)
  | case7 kept =>
    rw [loop, hk.popSegment, loop_slash, List.reverse_cons, List.flatten_append,
      List.flatten_singleton]
    exact ⟨rfl, .push hk.tail plain_nil⟩
  | case8 kept =>
    rw [loop, loop]
    exact ⟨rfl, hk⟩
  | case9 kept =>
    rw [loop, loop]
    exact ⟨rfl, hk⟩
  | case10 kept c rest up here slashHere lastHere slashUp lastUp onlyHere onlyUp ih =>
    have hnext : Kept ((c :: rest.takeWhile (· != '/')) :: kept) := by
      by_cases hc : c = '/'
      · subst hc
        exact .push hk
          (plain_takeWhile (lastHere rfl) (lastUp rfl) (slashHere · rfl) (slashUp · rfl))
      · obtain rfl := ho.eq_nil hc
        have hp : Plain ((c :: rest).takeWhile (· != '/')) := plain_takeWhile
          (fun he => onlyHere (List.cons.inj he).1 (List.cons.inj he).2)
          (fun he => onlyUp (List.cons.inj he).1 (List.cons.inj he).2)
          (fun r he => here r (List.cons.inj he).1 (List.cons.inj he).2)
          (fun r he => up r (List.cons.inj he).1 (List.cons.inj he).2)
        rw [List.takeWhile_cons_of_pos (by simpa using hc)] at hp
        exact .lowest hp
    obtain ⟨hjoined, hkept⟩ := ih hnext (.inr (dropWhile_cases rest))
    rw [List.reverse_cons, List.flatten_append, List.flatten_singleton] at hjoined
    refine ⟨?_, hkept⟩
    rw [loop, hjoined]
    all_goals assumption

/-- What is left of a path are the pieces that the walk keeps. -/
theorem remove_eq (path : String) :
    remove path = String.ofList (resolve [] path.toList).reverse.flatten := by
  have hloop : loop [] path.toList = _ := (loop_resolve .nil (.inl rfl)).1
  rw [remove, hloop]

theorem kept_resolve (path : List Char) : Kept (resolve [] path) :=
  (loop_resolve .nil (.inl rfl)).2

/-- No segment of a path is a dot segment once these were removed. -/
theorem plain_remove {path : String} {s : List Char}
    (hs : s ∈ (remove path).toList.splitOnP (· == '/')) : Plain s := by
  rw [remove_eq, String.toList_ofList] at hs
  exact (kept_resolve path.toList).plain s hs

end OriginServer.Http.DotSegments
