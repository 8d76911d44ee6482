import Mathlib.Data.List.Induction
import Mathlib.Data.List.Infix
import Mathlib.Tactic.MkIffOfInductiveProp
import OriginServer.Proofs.Storage.Pool

namespace OriginServer.Pool

variable {κ α : Type} [DecidableEq κ] [Recyclable κ α]

/-- A use of a pool: an object is asked for, or one is put back. -/
inductive Use (κ α : Type) where
  | get (k : κ)
  | put (a : α)
  deriving Repr, DecidableEq

namespace Use

omit [DecidableEq κ] in
/-- The key that a use is about. An object is put back under the key that it has after its reset. -/
def key : Use κ α → κ
  | get k => k
  | put a => Recyclable.key (Recyclable.reset a)

def isPut : Use κ α → Bool
  | get _ => false
  | put _ => true

/-- The pool behind a use. -/
def apply (p : Pool κ α) : Use κ α → Pool κ α
  | get k => (p.get k).2
  | put a => p.put a

end Use

section Step

variable {p : Pool κ α} {n : Nat} {P : κ → α → Prop}

omit [Recyclable κ α] in
theorem All.stack_eq_nil (h : p.All n P) (hn : ¬ p.isEnabled = true) (k : κ) : p.stack k = [] := by
  have hz : p.perKey = 0 := by simpa [isEnabled] using hn
  exact List.eq_nil_of_length_eq_zero (Nat.le_zero.1 (h.perKey_eq.symm.trans hz ▸ h.idle_le k))

theorem All.stack_put (h : p.All n P) (a : α) (k : κ) :
    (p.put a).stack k =
      if (Use.put a).key = k then (Recyclable.reset a :: p.stack k).take n else p.stack k := by
  unfold Pool.put
  split
  · split
    · rename_i hk
      subst hk
      exact (stack_insert_self ..).trans (by rw [h.perKey_eq]; rfl)
    · rename_i hk
      exact stack_insert_of_ne p _ (Ne.symm hk)
  · rename_i hn
    have hz : n = 0 := by simpa [isEnabled, h.perKey_eq] using hn
    rw [h.stack_eq_nil hn, hz, List.take_zero, ite_self]

theorem All.stack_get (h : p.All n P) (j k : κ) :
    (p.get j).2.stack k = if j = k then (p.stack k).tail else p.stack k := by
  unfold Pool.get
  split
  · rename_i a rest _ hs
    split
    · rename_i hk
      subst hk
      rw [stack_insert_self, hs, List.tail_cons]
    · rename_i hk
      exact stack_insert_of_ne p _ (Ne.symm hk)
  · rename_i hnone
    split
    · rename_i hk
      subst hk
      by_cases hn : p.isEnabled = true
      · cases hs : p.stack j with
        | nil => rfl
        | cons a rest => exact absurd hs (hnone a rest hn)
      · rw [h.stack_eq_nil hn]
        rfl
    · rfl

theorem All.get_fst (h : p.All n P) (k : κ) :
    (p.get k).1 = match p.stack k with
      | a :: _ => some a
      | [] => Recyclable.create k := by
  by_cases hn : p.isEnabled = true
  · cases hs : p.stack k <;> simp [Pool.get, hn, hs]
  · simp [Pool.get, hn, h.stack_eq_nil hn]

/-- A use changes the stack of its own key, and no other. -/
theorem All.stack_apply (h : p.All n P) (u : Use κ α) (k : κ) :
    (u.apply p).stack k =
      if u.key = k then
        match u with
        | .get _ => (p.stack k).tail
        | .put a => (Recyclable.reset a :: p.stack k).take n
      else p.stack k := by
  cases u with
  | get j => exact h.stack_get j k
  | put a => exact h.stack_put a k

end Step

section History

/-- The pool behind a history, empty before it and with room for `n` objects of each key. -/
def behind (n : Nat) (history : List (Use κ α)) : Pool κ α := history.foldl Use.apply ⟨n, []⟩

theorem behind_concat (n : Nat) (history : List (Use κ α)) (u : Use κ α) :
    behind n (history ++ [u]) = u.apply (behind n history) := by
  rw [behind, List.foldl_append]
  rfl

theorem all_behind (n : Nat) (history : List (Use κ α)) :
    (behind n history).All n fun _ _ => True := by
  induction history using List.reverseRecOn with
  | nil => exact all_empty n _
  | append_singleton history u ih =>
    rw [behind_concat]
    cases u with
    | get k => exact (ih.get fun _ _ => trivial).2
    | put a => exact ih.put trivial

/-- What the use with a number has put back. -/
def returned? (history : List (Use κ α)) (t : Nat) : Option α :=
  match history[t]? with
  | some (.put a) => some (Recyclable.reset a)
  | _ => none

/-- A bounded stack of numbers behind the use with the number `t`. -/
def stacked (n t : Nat) (s : List Nat) : Use κ α → List Nat
  | .get _ => s.tail
  | .put _ => (t :: s).take n

/-- The bounded stack of a key: the numbers of the uses whose objects are on it, the top first. -/
def shelf (n : Nat) (k : κ) (history : List (Use κ α)) : List Nat :=
  history.zipIdx.foldl (fun s e => if e.1.key = k then stacked n e.2 s e.1 else s) []

theorem shelf_concat (n : Nat) (k : κ) (history : List (Use κ α)) (u : Use κ α) :
    shelf n k (history ++ [u]) =
      if u.key = k then stacked n history.length (shelf n k history) u
      else shelf n k history := by
  rw [shelf, List.zipIdx_append, List.foldl_append]
  simp [shelf]

theorem shelf_lt (n : Nat) (k : κ) (history : List (Use κ α)) :
    ∀ t ∈ shelf n k history, t < history.length := by
  induction history using List.reverseRecOn with
  | nil => exact List.forall_mem_nil _
  | append_singleton history u ih =>
    intro t ht
    rw [shelf_concat] at ht
    rw [List.length_append, List.length_singleton]
    split at ht
    · cases u with
      | get j => exact Nat.lt_succ_of_lt (ih t (List.mem_of_mem_tail ht))
      | put a =>
        obtain rfl | ht := List.mem_cons.1 (List.mem_of_mem_take ht)
        · exact Nat.lt_succ_self _
        · exact Nat.lt_succ_of_lt (ih t ht)
    · exact Nat.lt_succ_of_lt (ih t ht)

/-- The later an object was put back, the higher it stands. -/
theorem shelf_descending (n : Nat) (k : κ) (history : List (Use κ α)) :
    (shelf n k history).Pairwise (· > ·) := by
  induction history using List.reverseRecOn with
  | nil => exact List.Pairwise.nil
  | append_singleton history u ih =>
    rw [shelf_concat]
    split
    · cases u with
      | get j => exact ih.tail
      | put a => exact (List.pairwise_cons.2 ⟨shelf_lt n k history, ih⟩).take
    · exact ih

omit [DecidableEq κ] in
theorem returned?_concat {history : List (Use κ α)} {t : Nat} (h : t < history.length)
    (u : Use κ α) : returned? (history ++ [u]) t = returned? history t := by
  rw [returned?, List.getElem?_append_left h, returned?]

/-- What is idle under a key are the objects on its shelf, as their resets have left them. -/
theorem stack_behind (n : Nat) (k : κ) (history : List (Use κ α)) :
    ((behind n history).stack k).map some = (shelf n k history).map (returned? history) := by
  induction history using List.reverseRecOn with
  | nil => rfl
  | append_singleton history u ih =>
    have hold : (shelf n k history).map (returned? (history ++ [u])) =
        ((behind n history).stack k).map some := by
      rw [ih]
      exact List.map_congr_left fun t ht => returned?_concat (shelf_lt n k history t ht) u
    rw [behind_concat, (all_behind n history).stack_apply, shelf_concat]
    split
    · cases u with
      | get j => rw [stacked, List.map_tail, List.map_tail, hold]
      | put a =>
        have hnew : returned? (history ++ [.put a]) history.length = some (Recyclable.reset a) := by
          rw [returned?, List.getElem?_concat_length]
        rw [stacked, List.map_take, List.map_take, List.map_cons, List.map_cons, hold, hnew]
    · exact hold.symm

end History

section Counting

/-- How many objects were put back under a key. -/
def puts (k : κ) (uses : List (Use κ α)) : Nat := uses.countP fun u => u.isPut && u.key = k

/-- How often an object was asked for under a key. -/
def gets (k : κ) (uses : List (Use κ α)) : Nat := uses.countP fun u => !u.isPut && u.key = k

/-- An object of the key is still idle behind these later uses: at no time were more objects taken
than put back since its own return, and at no time were there `n` more put back than taken. -/
def Stays (n : Nat) (k : κ) (later : List (Use κ α)) : Prop :=
  ∀ uses, uses <+: later → gets k uses ≤ puts k uses ∧ puts k uses < gets k uses + n

/-- The object that the use with the number `t` put back under the key is idle, and `above` others
were put back later and are idle, too. -/
@[mk_iff lies_iff]
structure Lies (n : Nat) (k : κ) (history : List (Use κ α)) (t above : Nat) : Prop where
  put : ∃ a, history[t]? = some (.put a) ∧ (Use.put a).key = k
  stays : Stays n k (history.drop (t + 1))
  balance : puts k (history.drop (t + 1)) = gets k (history.drop (t + 1)) + above

variable {n : Nat} {k : κ} {history : List (Use κ α)} {u : Use κ α} {t above : Nat}

theorem stays_concat : Stays n k (history ++ [u]) ↔ Stays n k history ∧
    gets k (history ++ [u]) ≤ puts k (history ++ [u]) ∧
    puts k (history ++ [u]) < gets k (history ++ [u]) + n := by
  constructor
  · exact fun h => ⟨fun uses hp => h uses (hp.trans (List.prefix_append _ _)),
      h _ List.prefix_rfl⟩
  · rintro ⟨h, hlast⟩ uses hp
    obtain rfl | hp := List.prefix_concat_iff.1 hp
    · exact hlast
    · exact h uses hp

theorem counts_put (uses : List (Use κ α)) {a : α} (hk : (Use.put a).key = k) :
    puts k (uses ++ [.put a]) = puts k uses + 1 ∧ gets k (uses ++ [.put a]) = gets k uses := by
  simp [puts, gets, Use.isPut, hk]

theorem counts_get (uses : List (Use κ α)) {j : κ} (hk : (Use.get j : Use κ α).key = k) :
    puts k (uses ++ [.get j]) = puts k uses ∧ gets k (uses ++ [.get j]) = gets k uses + 1 := by
  simp [puts, gets, Use.isPut, hk]

theorem counts_of_ne (uses : List (Use κ α)) (hk : ¬ u.key = k) :
    puts k (uses ++ [u]) = puts k uses ∧ gets k (uses ++ [u]) = gets k uses := by
  simp [puts, gets, hk]

theorem Lies.lt (h : Lies n k history t above) : t < history.length := by
  obtain ⟨a, ha, -⟩ := h.put
  exact (List.getElem?_eq_some_iff.1 ha).1

/-- One more use, seen from an object that was there before: a get of its key takes the top object,
a put of its key covers it or, where there are `n` of them, makes the lowest give way. -/
theorem lies_concat (ht : t < history.length) (u : Use κ α) :
    Lies n k (history ++ [u]) t above ↔
      if u.key = k then
        match u with
        | .get _ => Lies n k history t (above + 1)
        | .put _ => ∃ b, above = b + 1 ∧ above < n ∧ Lies n k history t b
      else Lies n k history t above := by
  have hget : (history ++ [u])[t]? = history[t]? := List.getElem?_append_left ht
  have hdrop : (history ++ [u]).drop (t + 1) = history.drop (t + 1) ++ [u] :=
    List.drop_append_of_le_length ht
  have hlast (h : Stays n k (history.drop (t + 1))) := h _ List.prefix_rfl
  simp only [lies_iff, hget, hdrop, stays_concat]
  by_cases hk : u.key = k
  · cases u with
    | get j =>
      obtain ⟨hp, hg⟩ := counts_get (history.drop (t + 1)) hk
      rw [hp, hg, if_pos hk]
      constructor
      · rintro ⟨hput, ⟨hstays, -⟩, hb⟩
        exact ⟨hput, hstays, by omega⟩
      · rintro ⟨hput, hstays, hb⟩
        have hl := hlast hstays
        exact ⟨hput, ⟨hstays, by omega⟩, by omega⟩
    | put a =>
      obtain ⟨hp, hg⟩ := counts_put (history.drop (t + 1)) hk
      rw [hp, hg, if_pos hk]
      constructor
      · rintro ⟨hput, ⟨hstays, hroom⟩, hb⟩
        have hl := hlast hstays
        exact ⟨above - 1, by omega, by omega, hput, hstays, by omega⟩
      · rintro ⟨b, rfl, hn, hput, hstays, hb⟩
        exact ⟨hput, ⟨hstays, by omega⟩, by omega⟩
  · obtain ⟨hp, hg⟩ := counts_of_ne (history.drop (t + 1)) hk
    rw [hp, hg, if_neg hk]
    exact ⟨fun ⟨hput, hs, hb⟩ => ⟨hput, hs.1, hb⟩,
      fun ⟨hput, hs, hb⟩ => ⟨hput, ⟨hs, hlast hs⟩, hb⟩⟩

/-- The last use puts its object on top of all others of its key. -/
theorem lies_last (u : Use κ α) :
    Lies n k (history ++ [u]) history.length above ↔
      (u.isPut = true ∧ u.key = k) ∧ 0 < n ∧ above = 0 := by
  have hdrop : (history ++ [u]).drop (history.length + 1) = [] :=
    List.drop_eq_nil_of_le (by simp)
  have hstays : Stays n k ([] : List (Use κ α)) ↔ 0 < n := by
    simp [Stays, puts, gets]
  rw [lies_iff, hdrop, hstays, List.getElem?_concat_length]
  constructor
  · rintro ⟨⟨a, ha, hk⟩, hn, hb⟩
    cases ha
    exact ⟨⟨rfl, hk⟩, hn, by simpa [puts, gets] using hb.symm⟩
  · rintro ⟨⟨hput, hk⟩, hn, rfl⟩
    cases u with
    | get j => cases hput
    | put a => exact ⟨⟨a, rfl, hk⟩, hn, rfl⟩

/-- The shelf of a key holds what still lies there, at its place from the top. -/
theorem shelf_iff : (shelf n k history)[above]? = some t ↔ Lies n k history t above := by
  induction history using List.reverseRecOn generalizing above with
  | nil => exact ⟨nofun, fun h => nomatch h.lt⟩
  | append_singleton history u ih =>
    have hold {i : Nat} : (shelf n k history)[i]? ≠ some history.length := fun h =>
      Nat.lt_irrefl _ (shelf_lt n k history _ (List.mem_of_getElem? h))
    obtain ht | rfl | ht := Nat.lt_trichotomy t history.length
    · rw [shelf_concat, lies_concat ht]
      split
      · cases u with
        | get j => rw [stacked, List.getElem?_tail, ih]
        | put a =>
          rw [stacked, List.getElem?_take]
          cases above with
          | zero => simp [Nat.ne_of_gt ht]
          | succ b => simp [ih]
      · exact ih
    · rw [shelf_concat, lies_last]
      split
      · rename_i hk
        cases u with
        | get j =>
          rw [stacked, List.getElem?_tail]
          exact ⟨fun h => absurd h hold, fun h => nomatch h.1.1⟩
        | put a =>
          rw [stacked, List.getElem?_take]
          cases above with
          | zero => simp [Use.isPut, hk, Nat.pos_iff_ne_zero]
          | succ b => simp [hold]
      · rename_i hk
        exact ⟨fun h => absurd h hold, fun h => absurd h.1.2 hk⟩
    · have hlen : (history ++ [u]).length = history.length + 1 := by simp
      refine ⟨fun h => ?_, fun h => ?_⟩
      · have := shelf_lt n k _ t (List.mem_of_getElem? h)
        omega
      · have := h.lt
        omega

end Counting

section Handing

variable {n : Nat} {k : κ} {history : List (Use κ α)} {t g g' : Nat}

/-- The object that a get with a number is handed, by the number of the use that put it back. There
is none where a new object is made. -/
def handed? (n : Nat) (history : List (Use κ α)) (g : Nat) : Option Nat :=
  match history[g]? with
  | some (.get k) => (shelf n k (history.take g)).head?
  | _ => none

theorem lies_of_handed? (h : handed? n history g = some t) :
    ∃ k, history[g]? = some (.get k) ∧ Lies n k (history.take g) t 0 := by
  unfold handed? at h
  split at h
  · rename_i k hg
    rw [List.head?_eq_getElem?] at h
    exact ⟨k, hg, shelf_iff.1 h⟩
  · cases h

/-- What a get was handed is not there for any later one. -/
theorem handed?_ne (hlt : g < g') (h : handed? n history g = some t) :
    handed? n history g' ≠ some t := by
  intro h'
  obtain ⟨k, hg, hl⟩ := lies_of_handed? h
  obtain ⟨k', -, hl'⟩ := lies_of_handed? h'
  obtain ⟨a, ha, hk⟩ := hl.put
  obtain ⟨a', ha', hk'⟩ := hl'.put
  have ht := hl.lt
  rw [List.length_take] at ht
  rw [List.getElem?_take_of_lt (by omega)] at ha ha'
  cases ha.symm.trans ha'
  obtain rfl : k = k' := hk.symm.trans hk'
  -- Between the return and the later get lie all uses up to the earlier one.
  have hpre : (history.take g).drop (t + 1) ++ [.get k] <+: (history.take g').drop (t + 1) := by
    have htake : history.take (g + 1) = history.take g ++ [.get k] := by
      rw [List.take_add_one, hg, Option.toList_some]
    rw [← List.drop_append_of_le_length (by rw [List.length_take]; omega), ← htake]
    have hle : history.take (g + 1) <+: history.take g' := List.take_prefix_take_left hlt
    exact hle.drop _
  obtain ⟨hp, hc⟩ := counts_get ((history.take g).drop (t + 1)) (j := k) (k := k) rfl
  have hstays := (hl'.stays _ hpre).1
  have hb := hl.balance
  omega

/-- What is idle under a key depends on the uses of that key alone. -/
theorem stack_behind_filter (n : Nat) (k : κ) (history : List (Use κ α)) :
    (behind n (history.filter fun u => u.key = k)).stack k = (behind n history).stack k := by
  induction history using List.reverseRecOn with
  | nil => rfl
  | append_singleton history u ih =>
    rw [List.filter_append, behind_concat, (all_behind n history).stack_apply]
    by_cases hk : u.key = k
    · have hu : [u].filter (fun u => u.key = k) = [u] := by simp [hk]
      rw [hu, behind_concat, (all_behind n _).stack_apply, ih]
    · have hu : [u].filter (fun u => u.key = k) = [] := by simp [hk]
      rw [hu, List.append_nil, if_neg hk, ih]

end Handing

section Stacks

/-- A key of a pool is one bounded stack. -/
structure Stacked (n : Nat) (k : κ) (history : List (Use κ α)) : Prop where
  /-- The objects that are idle are those on the shelf. -/
  idle_eq : ((behind n history).stack k).map some = (shelf n k history).map (returned? history)
  /-- On the shelf is what still lies there: what was put back under the key, was not taken, and has
  not given way to `n` later ones. -/
  shelf_eq (above t : Nat) : (shelf n k history)[above]? = some t ↔ Lies n k history t above
  /-- Later returns stand above earlier ones. -/
  latest_first : (shelf n k history).Pairwise (· > ·)
  idle_le : (behind n history).idle k ≤ n
  /-- Each of them was reset on its return, and has the key. -/
  clean : ∀ t ∈ shelf n k history, ∃ a, history[t]? = some (.put a) ∧
    returned? history t = some (Recyclable.reset a) ∧ Recyclable.key (Recyclable.reset a) = k
  /-- The object put back last is handed out, or a new one exactly where there is none. -/
  get_eq : ((behind n history).get k).1 =
    match (shelf n k history).head? with
    | some t => returned? history t
    | none => Recyclable.create k
  get_disabled : n = 0 → ((behind n history).get k).1 = Recyclable.create k
  /-- Uses of other keys make no difference, neither to what is idle nor to what is handed out. -/
  apart : (behind n (history.filter fun u => u.key = k)).stack k = (behind n history).stack k
  apart_get : ((behind n (history.filter fun u => u.key = k)).get k).1 =
    ((behind n history).get k).1

theorem returned?_of_lies {n : Nat} {k : κ} {history : List (Use κ α)} {t above : Nat}
    (h : Lies n k history t above) : ∃ a, history[t]? = some (.put a) ∧
      returned? history t = some (Recyclable.reset a) ∧
      Recyclable.key (Recyclable.reset a) = k := by
  obtain ⟨a, ha, hk⟩ := h.put
  exact ⟨a, ha, by rw [returned?, ha], hk⟩

theorem get_behind (n : Nat) (k : κ) (history : List (Use κ α)) :
    ((behind n history).get k).1 =
      match (shelf n k history).head? with
      | some t => returned? history t
      | none => Recyclable.create k := by
  have hidle := stack_behind n k history
  rw [(all_behind n history).get_fst]
  cases hs : (behind n history).stack k with
  | nil =>
    rw [hs, List.map_nil, eq_comm, List.map_eq_nil_iff] at hidle
    rw [hidle]
    rfl
  | cons a rest =>
    rw [hs, List.map_cons, eq_comm, List.map_eq_cons_iff] at hidle
    obtain ⟨t, others, ht, ha, -⟩ := hidle
    rw [ht]
    exact ha.symm

/-- A pool is one bounded stack for each key, whatever it is used for, and no object that was put
back is handed out twice. -/
theorem bounded_stacks (n : Nat) (history : List (Use κ α)) :
    (∀ k, Stacked n k history) ∧
    ∀ g g' t, handed? n history g = some t → handed? n history g' = some t → g = g' := by
  refine ⟨fun k => ?_, fun g g' t h h' => ?_⟩
  · have hidle := stack_behind n k history
    constructor
    · exact hidle
    · exact fun above t => shelf_iff
    · exact shelf_descending n k history
    · exact (all_behind n history).idle_le k
    · intro t ht
      obtain ⟨above, ht⟩ := List.mem_iff_getElem?.1 ht
      exact returned?_of_lies (shelf_iff.1 ht)
    · exact get_behind n k history
    · rintro rfl
      have hall := all_behind 0 history
      have hn : ¬ (behind 0 history).isEnabled = true := by simp [isEnabled, hall.perKey_eq]
      rw [hall.get_fst, hall.stack_eq_nil hn]
    · exact stack_behind_filter n k history
    · rw [(all_behind n _).get_fst, (all_behind n history).get_fst, stack_behind_filter]
  · obtain hlt | rfl | hlt := Nat.lt_trichotomy g g'
    · exact absurd h' (handed?_ne hlt h)
    · rfl
    · exact absurd h (handed?_ne hlt h')

/-- Objects of a size, told apart by serial numbers. -/
structure Slab where
  size : Nat
  dirty : Bool
  serial : Nat
  deriving Repr, DecidableEq

instance : Recyclable Nat Slab where
  key := Slab.size
  create size := some ⟨size, false, 0⟩
  reset slab := { slab with dirty := false }

theorem bounded_stacks_slabs :
    let history : List (Use Nat Slab) :=
      [.put ⟨4, true, 1⟩, .put ⟨4, true, 2⟩, .put ⟨4, true, 3⟩, .get 8, .get 4]
    shelf 2 4 history = [1] ∧ (behind 2 history).stack 4 = [⟨4, false, 2⟩] ∧
      ((behind 2 history).get 4).1 = some ⟨4, false, 2⟩ ∧ handed? 2 history 4 = some 2 ∧
      ∀ g, handed? 2 history g = some 2 → g = 4 := by
  intro history
  have hshelf : shelf 2 4 history = [1] := by decide
  have hhanded : handed? 2 history 4 = some 2 := by decide
  have hreturned : returned? history 1 = some ⟨4, false, 2⟩ := rfl
  obtain ⟨hstacked, honce⟩ := bounded_stacks 2 history
  have hidle := (hstacked 4).idle_eq
  have hget := (hstacked 4).get_eq
  rw [hshelf] at hidle hget
  refine ⟨hshelf, ?_, hget.trans hreturned, hhanded, fun g hg => honce g 4 2 hg hhanded⟩
  rw [List.map_singleton, hreturned, ← List.map_singleton] at hidle
  exact (List.map_inj_right fun _ _ => Option.some.inj).1 hidle

end Stacks

end OriginServer.Pool
