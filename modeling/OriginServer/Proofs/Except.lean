import Mathlib.Data.List.Forall2

namespace OriginServer

variable {ε α β : Type}

theorem bind_eq_ok {x : Except ε α} {f : α → Except ε β} {b : β} :
    (x >>= f) = .ok b ↔ ∃ a, x = .ok a ∧ f a = .ok b := by
  constructor
  · intro h
    cases x with
    | error e => cases h
    | ok a => exact ⟨a, rfl, h⟩
  · rintro ⟨a, rfl, h⟩
    exact h

theorem bind_eq_error {x : Except ε α} {f : α → Except ε β} {e : ε} :
    (x >>= f) = .error e ↔ x = .error e ∨ ∃ a, x = .ok a ∧ f a = .error e := by
  cases x with
  | error e' =>
    refine ⟨fun h => .inl (by cases h; rfl), ?_⟩
    rintro (h | ⟨_, h, -⟩)
    · cases h
      rfl
    · cases h
  | ok a =>
    refine ⟨fun h => .inr ⟨a, rfl, h⟩, ?_⟩
    rintro (h | ⟨_, h, hf⟩)
    · cases h
    · cases h
      exact hf

/-- Computations that are refused for one cause only are told apart by what they complete with. -/
theorem eq_of_ok_iff {x y : Except ε α} {e : ε} (hx : ∀ e', x = .error e' → e' = e)
    (hy : ∀ e', y = .error e' → e' = e) (h : ∀ a, x = .ok a ↔ y = .ok a) : x = y := by
  cases x with
  | ok a => exact ((h a).1 rfl).symm
  | error e' =>
    cases y with
    | ok a => cases (h a).2 rfl
    | error e'' => rw [hx e' rfl, hy e'' rfl]

theorem pure_eq_ok {a b : α} : (pure a : Except ε α) = .ok b ↔ a = b := by
  constructor
  · intro h
    cases h
    rfl
  · rintro rfl
    rfl

/-- A check in front of a computation. -/
theorem guarded_eq_ok {p : Prop} [Decidable p] {e : ε} {f : Unit → Except ε β} {b : β} :
    (if p then (throw e : Except ε Unit) >>= f else f ()) = .ok b ↔ ¬p ∧ f () = .ok b := by
  by_cases hp : p
  · simp only [hp, if_true, not_true_eq_false, false_and, iff_false]
    exact nofun
  · simp only [hp, if_false, not_false_eq_true, true_and]

theorem mapM_eq_ok {f : α → Except ε β} {l : List α} {l' : List β} :
    l.mapM f = .ok l' ↔ List.Forall₂ (fun b a => f a = .ok b) l' l := by
  induction l generalizing l' with
  | nil =>
    rw [List.mapM_nil, pure_eq_ok, List.forall₂_nil_right_iff, eq_comm]
  | cons a l ih =>
    rw [List.mapM_cons, bind_eq_ok, List.forall₂_cons_right_iff]
    constructor
    · rintro ⟨b, hb, h⟩
      obtain ⟨bs, hbs, h⟩ := bind_eq_ok.1 h
      exact ⟨b, bs, hb, ih.1 hbs, (pure_eq_ok.1 h).symm⟩
    · rintro ⟨b, bs, hb, hbs, rfl⟩
      exact ⟨b, hb, bind_eq_ok.2 ⟨bs, ih.2 hbs, rfl⟩⟩

theorem mapM_eq_error {f : α → Except ε β} {l : List α} {e : ε} (h : l.mapM f = .error e) :
    ∃ a ∈ l, f a = .error e := by
  induction l with
  | nil => cases h
  | cons a l ih =>
    rw [List.mapM_cons] at h
    obtain h | ⟨b, -, h⟩ := bind_eq_error.1 h
    · exact ⟨a, List.mem_cons_self, h⟩
    obtain h | ⟨bs, -, h⟩ := bind_eq_error.1 h
    · obtain ⟨a', ha', h⟩ := ih h
      exact ⟨a', List.mem_cons_of_mem _ ha', h⟩
    · cases h

theorem foldlM_eq_error {step : β → α → Except ε β} {l : List α} {b : β} {e : ε}
    (h : l.foldlM step b = .error e) : ∃ b' a, step b' a = .error e := by
  induction l generalizing b with
  | nil => cases h
  | cons a l ih =>
    rw [List.foldlM_cons] at h
    obtain h | ⟨b', -, h⟩ := bind_eq_error.1 h
    · exact ⟨b, a, h⟩
    · exact ih h

/-- A fold that only goes on while every element agrees on one value. -/
theorem foldlM_agree {step : Option β → α → Except ε (Option β)} {P : β → α → Prop}
    (h : ∀ known a l, step known a = .ok l ↔ ∃ b, l = some b ∧ (∀ k ∈ known, k = b) ∧ P b a)
    {as : List α} (hn : as ≠ []) {known l : Option β} :
    as.foldlM step known = .ok l ↔
      ∃ b, l = some b ∧ (∀ k ∈ known, k = b) ∧ ∀ a ∈ as, P b a := by
  induction as generalizing known with
  | nil => exact absurd rfl hn
  | cons a as ih =>
    rw [List.foldlM_cons, bind_eq_ok]
    by_cases ha : as = []
    · subst ha
      simp only [List.foldlM_nil, pure_eq_ok, exists_eq_right, h, List.mem_singleton, forall_eq]
    · constructor
      · rintro ⟨mid, hm, hl⟩
        obtain ⟨b, rfl, hk, hp⟩ := (h _ _ _).1 hm
        obtain ⟨b', hb, hk', hp'⟩ := (ih ha).1 hl
        obtain rfl := hk' b rfl
        exact ⟨b, hb, hk, List.forall_mem_cons.2 ⟨hp, hp'⟩⟩
      · rintro ⟨b, rfl, hk, hp⟩
        obtain ⟨hp, hp'⟩ := List.forall_mem_cons.1 hp
        refine ⟨some b, (h _ _ _).2 ⟨b, rfl, hk, hp⟩, (ih ha).2 ⟨b, rfl, fun k hk => ?_, hp'⟩⟩
        exact (Option.some.inj hk).symm

end OriginServer
