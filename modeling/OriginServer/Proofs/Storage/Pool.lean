import OriginServer.Storage.Pool

namespace OriginServer.Pool

variable {κ α : Type} [DecidableEq κ] [Recyclable κ α] {p : Pool κ α} {a : α} {k : κ}

/-- Every idle object stands under its own key. -/
def Keyed (p : Pool κ α) : Prop := ∀ k, ∀ a ∈ p.stack k, Recyclable.key a = k

theorem keyed_empty (n : Nat) : Keyed (⟨n, []⟩ : Pool κ α) := by
  intro k a ha
  cases ha

omit [Recyclable κ α] in
theorem stack_insert_self (p : Pool κ α) (k : κ) (as : List α) :
    stack { p with slots := p.slots.insert k as } k = as := by
  simp only [stack, Table.get?_insert_self, Option.getD_some]

omit [Recyclable κ α] in
theorem stack_insert_of_ne (p : Pool κ α) {k j : κ} (as : List α) (h : j ≠ k) :
    stack { p with slots := p.slots.insert k as } j = p.stack j := by
  simp only [stack, Table.get?_insert_of_ne _ _ h]

omit [Recyclable κ α] in
/-- Objects of one key take the place of those that stood there. -/
theorem mem_stack_insert {as : List α} {j : κ}
    (h : a ∈ stack { p with slots := p.slots.insert k as } j) :
    (j = k ∧ a ∈ as) ∨ a ∈ p.stack j := by
  by_cases hj : j = k
  · subst hj
    rw [stack_insert_self] at h
    exact .inl ⟨rfl, h⟩
  · rw [stack_insert_of_ne p as hj] at h
    exact .inr h

/-- Idle after a put are the object, under its own key, and what was idle before. -/
theorem mem_stack_put {b : α} {j : κ} (h : b ∈ (p.put a).stack j) :
    (j = Recyclable.key (Recyclable.reset a) ∧ b = Recyclable.reset a) ∨ b ∈ p.stack j := by
  unfold Pool.put at h
  split at h
  · obtain ⟨rfl, hm⟩ | hm := mem_stack_insert h
    · obtain rfl | hm := List.mem_cons.1 (List.mem_of_mem_take hm)
      · exact .inl ⟨rfl, rfl⟩
      · exact .inr hm
    · exact .inr hm
  · exact .inr h

/-- What is idle after an object was handed out was idle before. -/
theorem mem_stack_get {j : κ} (h : a ∈ (p.get k).2.stack j) : a ∈ p.stack j := by
  unfold Pool.get at h
  split at h
  · rename_i b rest _ hs
    obtain ⟨rfl, hm⟩ | hm := mem_stack_insert h
    · rw [hs]
      exact List.mem_cons_of_mem _ hm
    · exact hm
  · exact h

theorem Keyed.put (h : p.Keyed) (a : α) : (p.put a).Keyed := by
  intro j b hm
  obtain ⟨rfl, rfl⟩ | hm := mem_stack_put hm
  · rfl
  · exact h j b hm

theorem Keyed.get (h : p.Keyed) (k : κ) : (p.get k).2.Keyed := by
  intro j a hm
  exact h j a (mem_stack_get hm)

/-- An object is handed out where one can be made, and it has the key that was asked for. -/
theorem Keyed.get_complete (h : p.Keyed) {new : α} (hc : Recyclable.create k = some new)
    (hk : Recyclable.key new = k) :
    ∃ a rest, p.get k = (some a, rest) ∧ Recyclable.key a = k ∧ rest.Keyed := by
  have hr := h.get k
  unfold Pool.get at hr ⊢
  split at hr
  · rename_i a rest _ hs
    exact ⟨a, _, rfl, h k a (hs ▸ List.mem_cons_self ..), hr⟩
  · exact ⟨new, p, by rw [hc], hk, h⟩

section All

variable {n : Nat} {P : κ → α → Prop}

/-- Every idle object fits the key that it stands under, and no key has more than `n` of them. -/
structure All (n : Nat) (P : κ → α → Prop) (p : Pool κ α) : Prop where
  fits : ∀ k, ∀ a ∈ p.stack k, P k a
  perKey_eq : p.perKey = n
  idle_le : ∀ k, p.idle k ≤ n

omit [Recyclable κ α] in
theorem all_empty (n : Nat) (P : κ → α → Prop) : All n P ⟨n, []⟩ :=
  ⟨nofun, rfl, fun _ => Nat.zero_le _⟩

omit [Recyclable κ α] in
theorem All.insert (h : p.All n P) {as : List α} (ha : ∀ a ∈ as, P k a) (hl : as.length ≤ n) :
    All n P { p with slots := p.slots.insert k as } := by
  refine ⟨fun j a hm => ?_, h.perKey_eq, fun j => ?_⟩
  · obtain ⟨rfl, hin⟩ | hin := mem_stack_insert hm
    · exact ha a hin
    · exact h.fits j a hin
  · by_cases hj : j = k
    · subst hj
      rw [idle, stack_insert_self]
      exact hl
    · rw [idle, stack_insert_of_ne p as hj]
      exact h.idle_le j

theorem All.put (h : p.All n P)
    (ha : P (Recyclable.key (Recyclable.reset a)) (Recyclable.reset a)) : (p.put a).All n P := by
  unfold Pool.put
  split
  · refine h.insert (fun b hb => ?_) (h.perKey_eq ▸ List.length_take_le _ _)
    obtain rfl | hb := List.mem_cons.1 (List.mem_of_mem_take hb)
    · exact ha
    · exact h.fits _ b hb
  · exact h

/-- An object that is handed out fits its key, where a new one does. -/
theorem All.get (h : p.All n P) (hnew : ∀ a, Recyclable.create k = some a → P k a) :
    (∀ a, (p.get k).1 = some a → P k a) ∧ (p.get k).2.All n P := by
  unfold Pool.get
  split
  · rename_i b rest _ hs
    have hidle := h.idle_le k
    rw [idle, hs, List.length_cons] at hidle
    refine ⟨fun a ha => ?_, h.insert (fun c hc => h.fits k c ?_) (Nat.le_of_succ_le hidle)⟩
    · cases ha
      exact h.fits k b (hs ▸ List.mem_cons_self)
    · rw [hs]
      exact List.mem_cons_of_mem _ hc
  · exact ⟨hnew, h⟩

end All

end OriginServer.Pool
