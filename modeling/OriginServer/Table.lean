namespace OriginServer

abbrev Table (κ α : Type) := List (κ × α)

namespace Table

variable {κ α : Type} [DecidableEq κ]

def get? (t : Table κ α) (k : κ) : Option α := (t.find? (·.1 == k)).map (·.2)

def erase (t : Table κ α) (k : κ) : Table κ α := t.filter (·.1 != k)

def insert (t : Table κ α) (k : κ) (a : α) : Table κ α := (k, a) :: t.erase k

def modify (t : Table κ α) (k : κ) (f : α → α) : Table κ α :=
  t.map fun e => if e.1 = k then (e.1, f e.2) else e

theorem get?_insert_self (t : Table κ α) (k : κ) (a : α) : (t.insert k a).get? k = some a := by
  simp [insert, get?]

theorem get?_erase_self (t : Table κ α) (k : κ) : (t.erase k).get? k = none := by
  simp [erase, get?]

theorem get?_erase_of_ne (t : Table κ α) {k j : κ} (h : j ≠ k) :
    (t.erase k).get? j = t.get? j := by
  simp only [get?, erase, List.find?_filter]
  congr 2
  funext e
  by_cases he : e.1 = j <;> simp [he, h]

theorem get?_insert_of_ne (t : Table κ α) {k j : κ} (a : α) (h : j ≠ k) :
    (t.insert k a).get? j = t.get? j := by
  rw [← get?_erase_of_ne t h]
  simp [insert, get?, h.symm]

theorem get?_cons (t : Table κ α) (e : κ × α) (k : κ) :
    get? (e :: t) k = if e.1 = k then some e.2 else t.get? k := by
  by_cases he : e.1 = k <;> simp [get?, he]

theorem get?_modify_self (t : Table κ α) (k : κ) (f : α → α) :
    (t.modify k f).get? k = (t.get? k).map f := by
  induction t with
  | nil => rfl
  | cons e t ih =>
    rw [modify, List.map_cons, get?_cons, get?_cons]
    by_cases he : e.1 = k
    · simp only [he, if_true, Option.map_some]
    · simp only [he, if_false]
      exact ih

theorem get?_modify_of_ne (t : Table κ α) {k j : κ} (f : α → α) (h : j ≠ k) :
    (t.modify k f).get? j = t.get? j := by
  induction t with
  | nil => rfl
  | cons e t ih =>
    have hf : (if e.1 = k then (e.1, f e.2) else e).1 = e.1 := by split <;> rfl
    rw [modify, List.map_cons, get?_cons, get?_cons, hf]
    by_cases he : e.1 = j
    · simp only [he, h, if_true, if_false]
    · simp only [he, if_false]
      exact ih

section Entries

variable {t : Table κ α} {k j : κ} {a b : α}

theorem of_get?_insert (h : (t.insert k a).get? j = some b) :
    (j = k ∧ b = a) ∨ (j ≠ k ∧ t.get? j = some b) := by
  by_cases hj : j = k
  · subst hj
    rw [get?_insert_self] at h
    exact .inl ⟨rfl, (Option.some.inj h).symm⟩
  · rw [get?_insert_of_ne t a hj] at h
    exact .inr ⟨hj, h⟩

theorem of_get?_erase (h : (t.erase k).get? j = some b) : j ≠ k ∧ t.get? j = some b := by
  by_cases hj : j = k
  · subst hj
    rw [get?_erase_self] at h
    cases h
  · rw [get?_erase_of_ne t hj] at h
    exact ⟨hj, h⟩

theorem of_get?_modify {f : α → α} (h : (t.modify k f).get? j = some b) :
    ∃ a, t.get? j = some a ∧ b = if j = k then f a else a := by
  by_cases hj : j = k
  · subst hj
    rw [get?_modify_self] at h
    obtain ⟨a, ha, rfl⟩ := Option.map_eq_some_iff.1 h
    exact ⟨a, ha, (if_pos rfl).symm⟩
  · rw [get?_modify_of_ne t f hj] at h
    exact ⟨b, h, (if_neg hj).symm⟩

end Entries

end Table

end OriginServer
