import OriginServer.Scan

namespace OriginServer

/-- The same place, with more input ahead. -/
def Cursor.append (c : Cursor) (later : Bytes) : Cursor := ⟨c.pos, c.rest ++ later⟩

@[simp] theorem Cursor.append_pos (c : Cursor) (later : Bytes) : (c.append later).pos = c.pos := rfl

@[simp] theorem Cursor.append_rest (c : Cursor) (later : Bytes) :
    (c.append later).rest = c.rest ++ later := rfl

theorem Cursor.append_nil (c : Cursor) : c.append [] = c := by
  rw [append, List.append_nil]

namespace Scan

variable {ε α : Type}

/-- The same answer, with more input behind what was completed. -/
def append (s : Scan ε α) (later : Bytes) : Scan ε α :=
  match s with
  | done a next => done a (next.append later)
  | more => more
  | fail e => fail e

@[simp] theorem append_done (a : α) (next : Cursor) (later : Bytes) :
    (done a next : Scan ε α).append later = done a (next.append later) := rfl

@[simp] theorem append_fail (e : ε) (later : Bytes) :
    (fail e : Scan ε α).append later = fail e := rfl

end Scan

namespace Scanner

variable {ε α β : Type}

theorem bind_of_done {p : Scanner ε α} {q : α → Scanner ε β} {c mid : Cursor} {a : α}
    (h : p c = .done a mid) : (p >>= q) c = q a mid := by
  change bind p q c = _
  simp only [bind, h]

theorem bind_of_more {p : Scanner ε α} {q : α → Scanner ε β} {c : Cursor} (h : p c = .more) :
    (p >>= q) c = .more := by
  change bind p q c = _
  simp only [bind, h]

theorem bind_of_fail {p : Scanner ε α} {q : α → Scanner ε β} {c : Cursor} {e : ε}
    (h : p c = .fail e) : (p >>= q) c = .fail e := by
  change bind p q c = _
  simp only [bind, h]

theorem Forward.pos_le {p : Scanner ε α} (h : p.Forward) {c next : Cursor} {a : α}
    (hc : p c = .done a next) : c.pos ≤ next.pos := by
  obtain ⟨taken, -, hp⟩ := h c a next hc
  omega

/-- The end of the input stays where it is. -/
theorem Forward.reach {p : Scanner ε α} (h : p.Forward) {c next : Cursor} {a : α}
    (hc : p c = .done a next) : next.pos + next.rest.length = c.pos + c.rest.length := by
  obtain ⟨taken, hr, hp⟩ := h c a next hc
  rw [hr, List.length_append]
  omega

theorem Advances.pos_lt {p : Scanner ε α} (h : p.Advances) {c next : Cursor} {a : α}
    (hc : p c = .done a next) : c.pos < next.pos := by
  have hlt := h.rest_lt hc
  have hreach := h.forward.reach hc
  omega

theorem Advances.taken_ne_nil {p : Scanner ε α} (h : p.Advances) {c next : Cursor} {a : α}
    {taken : Bytes} (hc : p c = .done a next) (hr : c.rest = taken ++ next.rest) : taken ≠ [] := by
  intro he
  have hlt := h.rest_lt hc
  rw [hr, he] at hlt
  simp at hlt

theorem head?_append_of_ne_nil {taken : Bytes} (h : taken ≠ []) (x y : Bytes) :
    (taken ++ x).head? = (taken ++ y).head? := by
  obtain ⟨b, t, rfl⟩ := List.exists_cons_of_ne_nil h
  rfl

theorem position_eq_done {c next : Cursor} {n : Nat}
    (h : position c = (.done n next : Scan ε Nat)) : n = c.pos ∧ next = c := by
  cases h
  exact ⟨rfl, rfl⟩

theorem pure_eq_done {c next : Cursor} {a b : α}
    (h : (Pure.pure a : Scanner ε α) c = .done b next) : b = a ∧ next = c := by
  cases h
  exact ⟨rfl, rfl⟩

theorem bind_pure_apply (p : Scanner ε α) (f : α → β) (c : Cursor) :
    (p >>= fun a => (Pure.pure (f a) : Scanner ε β)) c =
      match p c with
      | .done a next => .done (f a) next
      | .more => .more
      | .fail e => .fail e := by
  cases h : p c with
  | done a next => rw [bind_of_done h]; rfl
  | more => exact bind_of_more h
  | fail e => exact bind_of_fail h

section Steady

/-- An answer stays when more bytes arrive. -/
def Steady (p : Scanner ε α) : Prop :=
  ∀ c later, p c ≠ .more → p (c.append later) = (p c).append later

/-- An answer stays when more bytes arrive, unless it was given at the end of the input. -/
def SteadyInside (p : Scanner ε α) : Prop :=
  ∀ c later, p c ≠ .more → (∀ a next, p c = .done a next → next.rest ≠ []) →
    p (c.append later) = (p c).append later

/-- Nothing is decided without input. -/
def Starves (p : Scanner ε α) : Prop := ∀ pos, p ⟨pos, []⟩ = .more

theorem Steady.inside {p : Scanner ε α} (h : p.Steady) : p.SteadyInside :=
  fun c later hc _ => h c later hc

theorem Steady.done {p : Scanner ε α} (h : p.Steady) {c next : Cursor} {a : α} (later : Bytes)
    (hc : p c = .done a next) : p (c.append later) = .done a (next.append later) := by
  rw [h c later (by simp [hc]), hc, Scan.append_done]

theorem Steady.fail {p : Scanner ε α} (h : p.Steady) {c : Cursor} {e : ε} (later : Bytes)
    (hc : p c = .fail e) : p (c.append later) = .fail e := by
  rw [h c later (by simp [hc]), hc, Scan.append_fail]

theorem SteadyInside.done {p : Scanner ε α} (h : p.SteadyInside) {c next : Cursor} {a : α}
    (later : Bytes) (hc : p c = .done a next) (hn : next.rest ≠ []) :
    p (c.append later) = .done a (next.append later) := by
  rw [h c later (by simp [hc]) (by simp [hc, hn]), hc, Scan.append_done]

theorem SteadyInside.fail {p : Scanner ε α} (h : p.SteadyInside) {c : Cursor} {e : ε}
    (later : Bytes) (hc : p c = .fail e) : p (c.append later) = .fail e := by
  rw [h c later (by simp [hc]) (by simp [hc]), hc, Scan.append_fail]

theorem Steady.bind_inside {p : Scanner ε α} {q : α → Scanner ε β} (hp : p.Steady)
    (hq : ∀ a, (q a).SteadyInside) : (p >>= q).SteadyInside := by
  intro c later hm hd
  cases h : p c with
  | more => exact absurd (bind_of_more h) hm
  | fail e => rw [bind_of_fail h, bind_of_fail (hp.fail later h), Scan.append_fail]
  | done a mid =>
    rw [bind_of_done h] at hm hd ⊢
    rw [bind_of_done (hp.done later h)]
    exact hq a mid later hm hd

theorem Steady.bind {p : Scanner ε α} {q : α → Scanner ε β} (hp : p.Steady)
    (hq : ∀ a, (q a).Steady) : (p >>= q).Steady := by
  intro c later hm
  cases h : p c with
  | more => exact absurd (bind_of_more h) hm
  | fail e => rw [bind_of_fail h, bind_of_fail (hp.fail later h), Scan.append_fail]
  | done a mid =>
    rw [bind_of_done h] at hm ⊢
    rw [bind_of_done (hp.done later h)]
    exact hq a mid later hm

/-- What follows at the end of the input asks for more, so the first answer does not count yet. -/
theorem SteadyInside.bind {p : Scanner ε α} {q : α → Scanner ε β} (hp : p.SteadyInside)
    (hq : ∀ a, (q a).Steady) (hs : ∀ a, (q a).Starves) : (p >>= q).Steady := by
  intro c later hm
  cases h : p c with
  | more => exact absurd (bind_of_more h) hm
  | fail e => rw [bind_of_fail h, bind_of_fail (hp.fail later h), Scan.append_fail]
  | done a mid =>
    rw [bind_of_done h] at hm ⊢
    have hne : mid.rest ≠ [] := by
      intro hr
      apply hm
      rw [show mid = ⟨mid.pos, []⟩ by rw [← hr]]
      exact hs a mid.pos
    rw [bind_of_done (hp.done later h hne)]
    exact hq a mid later hm

theorem SteadyInside.bind_pure {p : Scanner ε α} (hp : p.SteadyInside) (f : α → β) :
    (p >>= fun a => (Pure.pure (f a) : Scanner ε β)).SteadyInside := by
  intro c later hm hd
  cases h : p c with
  | more => exact absurd (bind_of_more h) hm
  | fail e => rw [bind_of_fail h, bind_of_fail (hp.fail later h), Scan.append_fail]
  | done a mid =>
    have hne : mid.rest ≠ [] := hd (f a) mid (bind_of_done h)
    rw [bind_of_done h, bind_of_done (hp.done later h hne)]
    rfl

theorem Starves.bind {p : Scanner ε α} (hp : p.Starves) (q : α → Scanner ε β) :
    (p >>= q).Starves := fun pos => bind_of_more (hp pos)

theorem steady_pure (a : α) : (Pure.pure a : Scanner ε α).Steady := fun _ _ _ => rfl

theorem steady_position : (position : Scanner ε Nat).Steady := fun _ _ _ => rfl

theorem steady_refuse (e : ε) : (refuse e : Scanner ε α).Steady := fun _ _ _ => rfl

theorem steady_ensure (holds : Bool) (e : ε) : (ensure holds e).Steady := by
  intro c later _
  cases holds <;> rfl

theorem steady_any : (any : Scanner ε UInt8).Steady := by
  rintro ⟨pos, rest⟩ later h
  cases rest with
  | nil => exact absurd rfl h
  | cons b rest => rfl

theorem steady_satisfy (p : UInt8 → Bool) (e : ε) : (satisfy p e).Steady := by
  rintro ⟨pos, rest⟩ later h
  cases rest with
  | nil => exact absurd rfl h
  | cons b rest => by_cases hb : p b = true <;> simp [satisfy, Cursor.append, hb]

theorem steady_peek : (peek : Scanner ε UInt8).Steady := by
  rintro ⟨pos, rest⟩ later h
  cases rest with
  | nil => exact absurd rfl h
  | cons b rest => rfl

theorem steady_take (n : Nat) : (take n : Scanner ε Bytes).Steady := by
  intro c later h
  rcases Nat.lt_or_ge c.rest.length n with hlt | hn
  · exact absurd (by simp [take, hlt]) h
  have hle : ¬ c.rest.length + later.length < n := by omega
  simp [take, Nat.not_lt.2 hn, hle, Cursor.append, List.take_append_of_le_length hn,
    List.drop_append_of_le_length hn]

/-- What follows a look at the next byte has to be steady only where that byte is there. -/
theorem steady_peek_bind {q : UInt8 → Scanner ε β}
    (hq : ∀ b c later, c.rest.head? = some b → q b c ≠ .more →
      q b (c.append later) = (q b c).append later) : (peek >>= q).Steady := by
  rintro ⟨pos, rest⟩ later h
  cases rest with
  | nil => exact absurd rfl h
  | cons b rest => exact hq b _ later rfl h

/-- A run that was ended by some byte is not changed by what is behind that byte. -/
theorem run_append {p : UInt8 → Bool} {c : Cursor} (later : Bytes)
    (h : (run p c : Scan ε Bytes) ≠ .more) :
    (c.rest ++ later).takeWhile p = c.rest.takeWhile p ∧
      (c.rest ++ later).dropWhile p = c.rest.dropWhile p ++ later := by
  cases hd : c.rest.dropWhile p with
  | nil => exact absurd (by simp [run, hd]) h
  | cons b rest =>
    have hdrop : (c.rest ++ later).dropWhile p = b :: rest ++ later := by
      rw [List.dropWhile_append, if_neg (by simp [hd]), hd]
    refine ⟨?_, hdrop⟩
    apply (List.append_left_inj (b :: rest ++ later)).1
    rw [← hdrop, List.takeWhile_append_dropWhile, hdrop, ← List.append_assoc, ← hd,
      List.takeWhile_append_dropWhile]

theorem steady_run (p : UInt8 → Bool) : (run p : Scanner ε Bytes).Steady := by
  intro c later h
  obtain ⟨ht, hdrop⟩ := run_append later h
  cases hd : c.rest.dropWhile p with
  | nil => exact absurd (by simp [run, hd]) h
  | cons b rest =>
    simp only [run, Cursor.append_rest, Cursor.append_pos, ht, hdrop, hd, List.cons_append]
    rfl

/-- A run that is refused as soon as its bytes are bad. -/
theorem steady_runUnless (p : UInt8 → Bool) (bad : Bytes → Prop) [DecidablePred bad] (e : ε)
    (hbad : ∀ w x, bad w → bad (w ++ x)) :
    Steady fun c => if bad (c.rest.takeWhile p) then .fail e else run p c := by
  intro c later h
  by_cases hb : bad (c.rest.takeWhile p)
  · have hb' : bad ((c.rest ++ later).takeWhile p) := by
      rw [List.takeWhile_append]
      split
      · rename_i hl
        rw [(List.takeWhile_prefix p).eq_of_length hl] at hb
        exact hbad _ _ hb
      · exact hb
    show (if bad ((c.rest ++ later).takeWhile p) then _ else _) = _
    simp only [if_pos hb', if_pos hb, Scan.append_fail]
  · simp only [if_neg hb] at h ⊢
    have hb' : ¬ bad ((c.rest ++ later).takeWhile p) := by rwa [(run_append later h).1]
    show (if bad ((c.rest ++ later).takeWhile p) then _ else _) = _
    rw [if_neg hb']
    exact steady_run p c later h

theorem steadyInside_notBefore (p : UInt8 → Bool) (e : ε) : (notBefore p e).SteadyInside := by
  rintro ⟨pos, rest⟩ later _ hd
  cases rest with
  | nil => exact absurd rfl (hd () ⟨pos, []⟩ rfl)
  | cons b rest => by_cases hb : p b = true <;> simp [notBefore, Cursor.append, hb]

theorem starves_run (p : UInt8 → Bool) : (run p : Scanner ε Bytes).Starves := fun _ => rfl

theorem starves_any : (any : Scanner ε UInt8).Starves := fun _ => rfl

theorem starves_satisfy (p : UInt8 → Bool) (e : ε) : (satisfy p e).Starves := fun _ => rfl

theorem steady_byte (b : UInt8) (e : ε) : (byte b e).Steady :=
  (steady_satisfy _ _).bind fun _ => steady_pure ()

theorem starves_byte (b : UInt8) (e : ε) : (byte b e).Starves := (starves_satisfy _ _).bind _

theorem steady_caseless (word : Bytes) (e : ε) : (caseless word e).Steady := by
  induction word with
  | nil => exact steady_pure ()
  | cons b word ih => exact (steady_satisfy _ _).bind fun _ => ih

theorem steady_lineEnd (e : ε) : (lineEnd e).Steady :=
  (steady_byte _ _).bind fun _ => steady_byte _ _

theorem starves_lineEnd (e : ε) : (lineEnd e).Starves := (starves_byte _ _).bind _

end Steady

section Viable

/-- The scanner completes on the bytes at hand. -/
def Completes (p : Scanner ε α) (c : Cursor) : Prop := ∃ a next, p c = .done a next

/-- More bytes are asked for only where some of them lead to completion. -/
def Viable (p : Scanner ε α) : Prop := ∀ c, p c = .more → ∃ later, p.Completes (c.append later)

section Outcomes

variable {p : Scanner ε α} {c : Cursor}

/-- Where refusals last and waiting may end, more is asked for exactly where some more bytes lead to
completion. -/
theorem more_iff (hf : ∀ e later, p c = .fail e → p (c.append later) = .fail e)
    (hv : p c = .more → ∃ later, p.Completes (c.append later)) :
    p c = .more ↔ ¬ p.Completes c ∧ ∃ later, p.Completes (c.append later) := by
  constructor
  · intro h
    refine ⟨?_, hv h⟩
    rintro ⟨a, next, hc⟩
    cases h.symm.trans hc
  · rintro ⟨hn, later, a, next, hl⟩
    cases hc : p c with
    | more => rfl
    | done b mid => exact absurd ⟨b, mid, hc⟩ hn
    | fail e => cases (hf e later hc).symm.trans hl

theorem fail_iff (hf : ∀ e later, p c = .fail e → p (c.append later) = .fail e)
    (hv : p c = .more → ∃ later, p.Completes (c.append later)) :
    (∃ e, p c = .fail e) ↔ ∀ later, ¬ p.Completes (c.append later) := by
  constructor
  · rintro ⟨e, hc⟩ later ⟨a, next, hl⟩
    cases (hf e later hc).symm.trans hl
  · intro h
    cases hc : p c with
    | fail e => exact ⟨e, rfl⟩
    | done a next =>
      have hnow := h []
      rw [Cursor.append_nil] at hnow
      exact absurd ⟨a, next, hc⟩ hnow
    | more =>
      obtain ⟨later, hl⟩ := hv hc
      exact absurd hl (h later)

/-- A steady and viable scanner asks for more exactly where it is not done and may still be. -/
theorem Steady.more_iff (hp : p.Steady) (hv : p.Viable) (c : Cursor) :
    p c = .more ↔ ¬ p.Completes c ∧ ∃ later, p.Completes (c.append later) :=
  Scanner.more_iff (fun _ later => hp.fail later) (hv c)

/-- A steady and viable scanner refuses exactly what no more bytes can complete. -/
theorem Steady.fail_iff (hp : p.Steady) (hv : p.Viable) (c : Cursor) :
    (∃ e, p c = .fail e) ↔ ∀ later, ¬ p.Completes (c.append later) :=
  Scanner.fail_iff (fun _ later => hp.fail later) (hv c)

end Outcomes

end Viable

section Closed

/-- What is completed depends on the bytes taken and on the first byte behind them. -/
def Local (p : Scanner ε α) : Prop :=
  ∀ c a next, p c = .done a next →
    ∃ taken : Bytes, c.rest = taken ++ next.rest ∧ next.pos = c.pos + taken.length ∧
      ∀ tail : Bytes, tail.head? = next.rest.head? →
        p ⟨c.pos, taken ++ tail⟩ = .done a ⟨next.pos, tail⟩

/-- What is completed depends on the bytes taken alone. -/
def Closed (p : Scanner ε α) : Prop :=
  ∀ c a next, p c = .done a next →
    ∃ taken : Bytes, c.rest = taken ++ next.rest ∧ next.pos = c.pos + taken.length ∧
      ∀ tail : Bytes, p ⟨c.pos, taken ++ tail⟩ = .done a ⟨next.pos, tail⟩

theorem Closed.toLocal {p : Scanner ε α} (h : p.Closed) : p.Local := by
  intro c a next hc
  obtain ⟨taken, hr, hp, ht⟩ := h c a next hc
  exact ⟨taken, hr, hp, fun tail _ => ht tail⟩

theorem Local.forward {p : Scanner ε α} (h : p.Local) : p.Forward := by
  intro c a next hc
  obtain ⟨taken, hr, hp, _⟩ := h c a next hc
  exact ⟨taken, hr, hp⟩

theorem Local.bind {p : Scanner ε α} {q : α → Scanner ε β} (hp : p.Local)
    (hq : ∀ a, (q a).Local) : (p >>= q).Local := by
  intro c b next h
  obtain ⟨a, mid, hm, hn⟩ := bind_eq_done h
  obtain ⟨s, hs, ps, ts⟩ := hp c a mid hm
  obtain ⟨t, ht, pt, tt⟩ := hq a mid b next hn
  refine ⟨s ++ t, by simp [hs, ht], by simp [ps, pt]; omega, fun tail hh => ?_⟩
  have hmid : (t ++ tail).head? = mid.rest.head? := by
    rw [ht, List.head?_append, List.head?_append, hh]
  rw [List.append_assoc, bind_of_done (ts (t ++ tail) hmid)]
  exact tt tail hh

/-- A closed scanner that takes at least one byte. -/
structure Sealed (p : Scanner ε α) : Prop where
  closed : p.Closed
  advances : p.Advances

/-- The second part takes the byte that the first one looks at. -/
theorem Local.bind_sealed {p : Scanner ε α} {q : α → Scanner ε β} (hp : p.Local)
    (hq : ∀ a, (q a).Sealed) : (p >>= q).Sealed := by
  refine ⟨?_, hp.forward.bind_advances fun a => (hq a).advances⟩
  intro c b next h
  obtain ⟨a, mid, hm, hn⟩ := bind_eq_done h
  obtain ⟨s, hs, ps, ts⟩ := hp c a mid hm
  obtain ⟨t, ht, pt, tt⟩ := (hq a).closed mid b next hn
  refine ⟨s ++ t, by simp [hs, ht], by simp [ps, pt]; omega, fun tail => ?_⟩
  have hmid : (t ++ tail).head? = mid.rest.head? := by
    rw [ht]
    exact head?_append_of_ne_nil ((hq a).advances.taken_ne_nil hn ht) _ _
  rw [List.append_assoc, bind_of_done (ts (t ++ tail) hmid)]
  exact tt tail

theorem Closed.bind {p : Scanner ε α} {q : α → Scanner ε β} (hp : p.Closed)
    (hq : ∀ a, (q a).Closed) : (p >>= q).Closed := by
  intro c b next h
  obtain ⟨a, mid, hm, hn⟩ := bind_eq_done h
  obtain ⟨s, hs, ps, ts⟩ := hp c a mid hm
  obtain ⟨t, ht, pt, tt⟩ := hq a mid b next hn
  refine ⟨s ++ t, by simp [hs, ht], by simp [ps, pt]; omega, fun tail => ?_⟩
  rw [List.append_assoc, bind_of_done (ts (t ++ tail))]
  exact tt tail

theorem Sealed.bind {p : Scanner ε α} {q : α → Scanner ε β} (hp : p.Sealed)
    (hq : ∀ a, (q a).Closed) : (p >>= q).Sealed :=
  ⟨hp.closed.bind hq, hp.advances.bind fun a => (hq a).toLocal.forward⟩

theorem closed_pure (a : α) : (Pure.pure a : Scanner ε α).Closed := by
  intro c b next h
  cases h
  exact ⟨[], rfl, rfl, fun _ => rfl⟩

theorem closed_position : (position : Scanner ε Nat).Closed := by
  intro c b next h
  cases h
  exact ⟨[], rfl, rfl, fun _ => rfl⟩

theorem closed_refuse (e : ε) : (refuse e : Scanner ε α).Closed := by
  intro c b next h
  cases h

theorem closed_any : (any : Scanner ε UInt8).Closed := by
  rintro ⟨pos, rest⟩ a next h
  cases rest with
  | nil => cases h
  | cons b rest =>
    cases h
    exact ⟨[a], rfl, rfl, fun _ => rfl⟩

theorem closed_ensure (holds : Bool) (e : ε) : (ensure holds e).Closed := by
  intro c b next h
  cases holds with
  | false => cases h
  | true =>
    cases h
    exact ⟨[], rfl, rfl, fun _ => rfl⟩

theorem closed_satisfy (p : UInt8 → Bool) (e : ε) : (satisfy p e).Closed := by
  rintro ⟨pos, rest⟩ a next h
  cases rest with
  | nil => cases h
  | cons b rest =>
    by_cases hb : p b = true
    · simp only [satisfy, hb, if_true, Scan.done.injEq] at h
      obtain ⟨rfl, rfl⟩ := h
      exact ⟨[b], rfl, rfl, fun _ => by simp [satisfy, hb]⟩
    · simp [satisfy, hb] at h

theorem closed_byte (b : UInt8) (e : ε) : (byte b e).Closed :=
  (closed_satisfy _ _).bind fun _ => closed_pure ()

theorem closed_caseless (word : Bytes) (e : ε) : (caseless word e).Closed := by
  induction word with
  | nil => exact closed_pure ()
  | cons b word ih => exact (closed_satisfy _ _).bind fun _ => ih

theorem closed_lineEnd (e : ε) : (lineEnd e).Closed :=
  (closed_byte _ _).bind fun _ => closed_byte _ _

theorem sealed_lineEnd (e : ε) : (lineEnd e).Sealed := ⟨closed_lineEnd e, advances_lineEnd e⟩

theorem local_notBefore (p : UInt8 → Bool) (e : ε) : (notBefore p e).Local := by
  rintro ⟨pos, rest⟩ a next h
  cases rest with
  | nil =>
    cases h
    refine ⟨[], rfl, rfl, fun tail ht => ?_⟩
    have he : tail = [] := List.head?_eq_none_iff.1 ht
    subst he
    rfl
  | cons b rest =>
    by_cases hb : p b = true
    · simp [notBefore, hb] at h
    · simp only [notBefore, hb, Bool.false_eq_true, if_false, Scan.done.injEq] at h
      obtain ⟨-, rfl⟩ := h
      refine ⟨[], rfl, rfl, fun tail ht => ?_⟩
      obtain ⟨t, rfl⟩ := List.head?_eq_some_iff.1 ht
      simp [notBefore, hb]

theorem local_peek : (peek : Scanner ε UInt8).Local := by
  rintro ⟨pos, rest⟩ a next h
  cases rest with
  | nil => cases h
  | cons b rest =>
    cases h
    refine ⟨[], rfl, rfl, fun tail ht => ?_⟩
    obtain ⟨t, rfl⟩ := List.head?_eq_some_iff.1 ht
    rfl

theorem run_eq_done {p : UInt8 → Bool} {c next : Cursor} {taken : Bytes}
    (h : run p c = (.done taken next : Scan ε Bytes)) :
    c.rest = taken ++ next.rest ∧ next.pos = c.pos + taken.length ∧ taken.all p ∧
      ∃ b rest, next.rest = b :: rest ∧ p b = false := by
  simp only [run] at h
  split at h
  · cases h
  · rename_i b rest hd
    cases h
    have hb : p b = false := by
      have hh := List.head?_dropWhile_not p c.rest
      rw [hd] at hh
      simpa using hh
    exact ⟨by rw [← hd, List.takeWhile_append_dropWhile], rfl, by simp, b, rest, rfl, hb⟩

theorem run_eq_more {p : UInt8 → Bool} {c : Cursor} (h : (run p c : Scan ε Bytes) = .more) :
    ∀ b ∈ c.rest, p b = true := by
  simp only [run] at h
  split at h
  · rename_i hd
    have ht := List.takeWhile_append_dropWhile (p := p) (l := c.rest)
    rw [hd, List.append_nil] at ht
    exact ht ▸ List.all_eq_true.1 List.all_takeWhile
  · cases h

theorem run_of_append {p : UInt8 → Bool} {pos : Nat} {taken rest : Bytes} {b : UInt8}
    (ht : taken.all p) (hb : p b = false) :
    (run p ⟨pos, taken ++ b :: rest⟩ : Scan ε Bytes) =
      .done taken ⟨pos + taken.length, b :: rest⟩ := by
  have ht' : ∀ x ∈ taken, p x = true := List.all_eq_true.1 ht
  have hd : (taken ++ b :: rest).dropWhile p = b :: rest := by
    rw [List.dropWhile_append_of_pos ht', List.dropWhile_cons_of_neg (by simp [hb])]
  have hk : (taken ++ b :: rest).takeWhile p = taken := by
    rw [List.takeWhile_append_of_pos ht', List.takeWhile_cons_of_neg (by simp [hb]),
      List.append_nil]
  simp only [run, hd, hk]

theorem local_run (p : UInt8 → Bool) : (run p : Scanner ε Bytes).Local := by
  intro c taken next h
  obtain ⟨hr, hp, ha, b, rest, hb, hn⟩ := run_eq_done h
  refine ⟨taken, hr, hp, fun tail ht => ?_⟩
  rw [hb] at ht
  obtain ⟨t, rfl⟩ := List.head?_eq_some_iff.1 ht
  rw [run_of_append ha hn, hp]

theorem takeWhile_of_run {p : UInt8 → Bool} {c next : Cursor} {taken : Bytes}
    (h : run p c = (.done taken next : Scan ε Bytes)) : c.rest.takeWhile p = taken := by
  simp only [run] at h
  split at h
  · cases h
  · cases h
    rfl

theorem local_runUnless (p : UInt8 → Bool) (bad : Bytes → Prop) [DecidablePred bad] (e : ε) :
    Local fun c => if bad (c.rest.takeWhile p) then .fail e else run p c := by
  intro c taken next h
  simp only at h
  split at h
  · cases h
  · rename_i hb
    obtain ⟨t, hr, hp, ht⟩ := local_run p c taken next h
    refine ⟨t, hr, hp, fun tail hh => ?_⟩
    rw [takeWhile_of_run h] at hb
    have hk : (t ++ tail).takeWhile p = taken := takeWhile_of_run (ht tail hh)
    simp only [hk, if_neg hb]
    exact ht tail hh

theorem take_of_append (pos : Nat) (taken tail : Bytes) :
    (take taken.length ⟨pos, taken ++ tail⟩ : Scan ε Bytes) =
      .done taken ⟨pos + taken.length, tail⟩ := by
  have hle : ¬ taken.length + tail.length < taken.length := by omega
  simp [take, hle]

theorem take_eq_done {n : Nat} {c next : Cursor} {taken : Bytes}
    (h : take n c = (.done taken next : Scan ε Bytes)) :
    taken.length = n ∧ c.rest = taken ++ next.rest ∧ next.pos = c.pos + n := by
  rcases Nat.lt_or_ge c.rest.length n with hlt | hn
  · simp [take, hlt] at h
  · simp only [take, Nat.not_lt.2 hn, if_false, Scan.done.injEq] at h
    obtain ⟨rfl, rfl⟩ := h
    exact ⟨by simp; omega, (List.take_append_drop _ _).symm, rfl⟩

theorem closed_take (n : Nat) : (take n : Scanner ε Bytes).Closed := by
  intro c taken next h
  obtain ⟨rfl, hr, hp⟩ := take_eq_done h
  exact ⟨taken, hr, hp, fun tail => by rw [take_of_append, hp]⟩

end Closed

section Cut

variable {p : Scanner ε α} {input : Bytes} {a : α} {next : Cursor}

/-- What is completed is completed by its own bytes alone. -/
theorem Closed.take (hp : p.Closed) (h : p ⟨0, input⟩ = .done a next) :
    p ⟨0, input.take next.pos⟩ = .done a ⟨next.pos, []⟩ := by
  obtain ⟨taken, hr, hpos, ht⟩ := hp _ _ _ h
  have hinput : input = taken ++ next.rest := hr
  have htaken : next.pos = taken.length := hpos.trans (Nat.zero_add _)
  have halone := ht []
  rw [List.append_nil] at halone
  rw [htaken, hinput, List.take_left, ← htaken]
  exact halone

/-- Less than what is completed is never decided. -/
theorem Steady.more_of_take (hp : p.Steady) (hf : p.Forward) {m : Nat}
    (h : p ⟨0, input⟩ = .done a next) (hm : m < next.pos) : p ⟨0, input.take m⟩ = .more := by
  have hwhole : (⟨0, input.take m⟩ : Cursor).append (input.drop m) = ⟨0, input⟩ := by
    rw [Cursor.append, List.take_append_drop]
  cases hc : p ⟨0, input.take m⟩ with
  | more => rfl
  | fail e =>
    have hfail := hp.fail (input.drop m) hc
    rw [hwhole, h] at hfail
    cases hfail
  | done b early =>
    have hdone := hp.done (input.drop m) hc
    rw [hwhole, h] at hdone
    have hpos : next.pos = early.pos := by
      cases hdone
      rfl
    have hreach := hf.reach hc
    have hlen : (input.take m).length ≤ m := List.length_take_le m input
    dsimp only at hreach
    omega

end Cut

section Takes

/-- At least `n` bytes are taken. -/
def Takes (n : Nat) (p : Scanner ε α) : Prop :=
  ∀ c a next, p c = .done a next → next.rest.length + n ≤ c.rest.length

theorem Takes.bind {n : Nat} {p : Scanner ε α} {q : α → Scanner ε β} (hp : Takes n p)
    (hq : ∀ a, (q a).Forward) : Takes n (p >>= q) := by
  intro c b next h
  obtain ⟨a, mid, hm, hn⟩ := bind_eq_done h
  have h₁ := hp c a mid hm
  have h₂ := (hq a).rest_le hn
  omega

theorem Forward.bind_takes {n : Nat} {p : Scanner ε α} {q : α → Scanner ε β} (hp : p.Forward)
    (hq : ∀ a, Takes n (q a)) : Takes n (p >>= q) := by
  intro c b next h
  obtain ⟨a, mid, hm, hn⟩ := bind_eq_done h
  have h₁ := hp.rest_le hm
  have h₂ := hq a mid b next hn
  omega

theorem Takes.bind_takes {m n : Nat} {p : Scanner ε α} {q : α → Scanner ε β} (hp : Takes m p)
    (hq : ∀ a, Takes n (q a)) : Takes (m + n) (p >>= q) := by
  intro c b next h
  obtain ⟨a, mid, hm, hn⟩ := bind_eq_done h
  have h₁ := hp c a mid hm
  have h₂ := hq a mid b next hn
  omega

theorem Takes.mono {m n : Nat} {p : Scanner ε α} (hp : Takes n p) (hm : m ≤ n) : Takes m p := by
  intro c a next h
  have hn := hp c a next h
  omega

theorem Advances.takes {p : Scanner ε α} (hp : p.Advances) : Takes 1 p :=
  fun _ _ _ h => hp.rest_lt h

/-- What is taken is left behind. -/
theorem Takes.pos_le {n : Nat} {p : Scanner ε α} {c next : Cursor} {a : α} (hp : Takes n p)
    (hf : p.Forward) (h : p c = .done a next) : c.pos + n ≤ next.pos := by
  obtain ⟨taken, hr, hpos⟩ := hf c a next h
  have hn := hp c a next h
  rw [hr, List.length_append] at hn
  omega

theorem takes_lineEnd (e : ε) : Takes 2 (lineEnd e) :=
  (advances_byte _ _).takes.bind_takes fun _ => (advances_byte _ _).takes

theorem takes_caseless (word : Bytes) (e : ε) : Takes word.length (caseless word e) := by
  induction word with
  | nil =>
    intro c a next h
    cases h
    exact Nat.le_refl _
  | cons b word ih =>
    intro c a next h
    obtain ⟨x, mid, hm, hn⟩ := bind_eq_done h
    have h₁ := (advances_satisfy _ _).rest_lt hm
    have h₂ := ih mid a next hn
    simp only [List.length_cons]
    omega

end Takes

section AtMost

/-- A scanner that takes at most `k` bytes, and asks for more only where it has fewer. -/
structure AtMost (k : Nat) (p : Scanner ε α) : Prop where
  asks : ∀ c, p c = .more → c.rest.length < k
  takes : ∀ c a next, p c = .done a next → c.rest.length ≤ next.rest.length + k

theorem bind_eq_more {p : Scanner ε α} {q : α → Scanner ε β} {c : Cursor}
    (h : (p >>= q) c = .more) : p c = .more ∨ ∃ a mid, p c = .done a mid ∧ q a mid = .more := by
  cases hp : p c with
  | more => exact .inl rfl
  | done a mid =>
    rw [bind_of_done hp] at h
    exact .inr ⟨a, mid, rfl, h⟩
  | fail e =>
    rw [bind_of_fail hp] at h
    cases h

theorem AtMost.mono {k m : Nat} {p : Scanner ε α} (h : AtMost k p) (hk : k ≤ m) : AtMost m p := by
  refine ⟨fun c hm => Nat.lt_of_lt_of_le (h.asks c hm) hk, fun c a next hd => ?_⟩
  have ht := h.takes c a next hd
  omega

theorem AtMost.bind {k m : Nat} {p : Scanner ε α} {q : α → Scanner ε β} (hp : AtMost k p)
    (hq : ∀ a, AtMost m (q a)) : AtMost (k + m) (p >>= q) := by
  constructor
  · intro c h
    obtain hm | ⟨a, mid, hd, hm⟩ := bind_eq_more h
    · exact Nat.lt_of_lt_of_le (hp.asks c hm) (Nat.le_add_right _ _)
    · have h₁ := hp.takes c a mid hd
      have h₂ := (hq a).asks mid hm
      omega
  · intro c b next h
    obtain ⟨a, mid, hd, hn⟩ := bind_eq_done h
    have h₁ := hp.takes c a mid hd
    have h₂ := (hq a).takes mid b next hn
    omega

theorem atMost_pure (a : α) : AtMost 0 (Pure.pure a : Scanner ε α) := by
  refine ⟨nofun, fun c b next h => ?_⟩
  cases h
  exact Nat.le_refl _

theorem atMost_position : AtMost 0 (position : Scanner ε Nat) := by
  refine ⟨nofun, fun c b next h => ?_⟩
  cases h
  exact Nat.le_refl _

theorem atMost_refuse (e : ε) : AtMost 0 (refuse e : Scanner ε α) := ⟨nofun, nofun⟩

/-- What comes behind a condition may rely on it. -/
theorem atMost_ensure_bind {k : Nat} {holds : Bool} {e : ε} {q : Unit → Scanner ε α}
    (h : holds = true → AtMost k (q ())) : AtMost k (ensure holds e >>= q) := by
  cases holds with
  | true => exact h rfl
  | false => exact ⟨nofun, nofun⟩

theorem atMost_any : AtMost 1 (any : Scanner ε UInt8) := by
  refine ⟨fun c h => ?_, fun c b next h => ?_⟩
  · simp only [any] at h
    split at h
    · rename_i hr
      rw [hr]
      exact Nat.one_pos
    · cases h
  · simp only [any] at h
    split at h <;> cases h
    rename_i hr
    rw [hr]
    exact Nat.le_refl _

theorem atMost_take (n : Nat) : AtMost n (take n : Scanner ε Bytes) := by
  refine ⟨fun c h => ?_, fun c taken next h => ?_⟩
  · simp only [take] at h
    split at h
    · assumption
    · cases h
  · obtain ⟨hl, hr, -⟩ := take_eq_done h
    rw [hr, List.length_append]
    omega

end AtMost

section Causes

variable {causes : ε → Prop} {e : ε}

/-- Every refusal has one of these causes. -/
def Blames (p : Scanner ε α) (causes : ε → Prop) : Prop := ∀ c e, p c = .fail e → causes e

theorem bind_eq_fail {p : Scanner ε α} {q : α → Scanner ε β} {c : Cursor}
    (h : (p >>= q) c = .fail e) :
    p c = .fail e ∨ ∃ a mid, p c = .done a mid ∧ q a mid = .fail e := by
  cases hp : p c with
  | fail e' =>
    rw [bind_of_fail hp] at h
    cases h
    exact .inl rfl
  | done a mid =>
    rw [bind_of_done hp] at h
    exact .inr ⟨a, mid, rfl, h⟩
  | more =>
    rw [bind_of_more hp] at h
    cases h

theorem Blames.bind {p : Scanner ε α} {q : α → Scanner ε β} (hp : p.Blames causes)
    (hq : ∀ a, (q a).Blames causes) : (p >>= q).Blames causes := by
  intro c e h
  obtain h | ⟨a, mid, -, h⟩ := bind_eq_fail h
  · exact hp c e h
  · exact hq a mid e h

theorem blames_pure (a : α) : (Pure.pure a : Scanner ε α).Blames causes := nofun

theorem blames_position : (position : Scanner ε Nat).Blames causes := nofun

theorem blames_run (P : UInt8 → Bool) : (run P : Scanner ε Bytes).Blames causes := by
  intro c e h
  simp only [run] at h
  split at h <;> cases h

theorem blames_satisfy (P : UInt8 → Bool) (he : causes e) : (satisfy P e).Blames causes := by
  intro c e' h
  simp only [satisfy] at h
  split at h
  · cases h
  · split at h
    · cases h
    · cases h
      exact he

theorem blames_byte (b : UInt8) (he : causes e) : (byte b e).Blames causes :=
  (blames_satisfy _ he).bind fun _ => blames_pure ()

theorem blames_caseless (word : Bytes) (he : causes e) : (caseless word e).Blames causes := by
  induction word with
  | nil => exact blames_pure ()
  | cons b word ih => exact (blames_satisfy _ he).bind fun _ => ih

theorem blames_lineEnd (he : causes e) : (lineEnd e).Blames causes :=
  (blames_byte _ he).bind fun _ => blames_byte _ he

theorem blames_ensure (holds : Bool) (he : causes e) : (ensure holds e).Blames causes := by
  intro c e' h
  unfold ensure at h
  split at h
  · cases h
  · cases h
    exact he

theorem blames_notBefore (P : UInt8 → Bool) (he : causes e) : (notBefore P e).Blames causes := by
  intro c e' h
  simp only [notBefore] at h
  split at h
  · cases h
  · split at h
    · cases h
      exact he
    · cases h

end Causes

section Reads

/-- These bytes are read as `a`, wherever they stand and whatever follows them. -/
def Reads (p : Scanner ε α) (taken : Bytes) (a : α) : Prop :=
  ∀ pos tail, p ⟨pos, taken ++ tail⟩ = .done a ⟨pos + taken.length, tail⟩

theorem Reads.bind {p : Scanner ε α} {q : α → Scanner ε β} {s t : Bytes} {a : α} {b : β}
    (hp : Reads p s a) (hq : Reads (q a) t b) : Reads (p >>= q) (s ++ t) b := by
  intro pos tail
  rw [List.append_assoc, bind_of_done (hp pos _), hq, List.length_append, Nat.add_assoc]

theorem reads_pure (a : α) : Reads (Pure.pure a : Scanner ε α) [] a := fun _ _ => rfl

theorem Reads.map {p : Scanner ε α} {s : Bytes} {a : α} (hp : Reads p s a) (f : α → β) :
    Reads (f <$> p) s (f a) := by
  have h : Reads (p >>= fun a => Pure.pure (f a)) (s ++ []) (f a) := hp.bind (reads_pure _)
  rw [List.append_nil] at h
  exact h

theorem reads_any (b : UInt8) : Reads (any : Scanner ε UInt8) [b] b := fun _ _ => rfl

theorem reads_ensure {holds : Bool} (h : holds = true) (e : ε) : Reads (ensure holds e) [] () := by
  intro pos tail
  rw [ensure, if_pos h]
  rfl

theorem reads_take {n : Nat} {taken : Bytes} (h : taken.length = n) :
    Reads (take n : Scanner ε Bytes) taken taken := by
  intro pos tail
  rw [← h]
  exact take_of_append pos taken tail

theorem map_eq_done {p : Scanner ε α} {f : α → β} {c next : Cursor} {b : β}
    (h : (f <$> p) c = .done b next) : ∃ a, p c = .done a next ∧ b = f a := by
  obtain ⟨a, mid, ha, hb⟩ := bind_eq_done (q := fun a => Pure.pure (f a)) h
  obtain ⟨rfl, rfl⟩ := pure_eq_done hb
  exact ⟨a, ha, rfl⟩

theorem ensure_eq_done {holds : Bool} {e : ε} {c next : Cursor}
    (h : ensure holds e c = .done () next) : holds = true ∧ next = c := by
  unfold ensure at h
  split at h
  · rename_i hh
    cases h
    exact ⟨hh, rfl⟩
  · cases h

theorem any_eq_done {c next : Cursor} {b : UInt8} (h : (any c : Scan ε UInt8) = .done b next) :
    c.rest = b :: next.rest ∧ next.pos = c.pos + 1 := by
  simp only [any] at h
  split at h
  · cases h
  · rename_i hr
    cases h
    exact ⟨hr, rfl⟩

theorem peek_eq_done {c next : Cursor} {b : UInt8} (h : (peek c : Scan ε UInt8) = .done b next) :
    next = c ∧ c.rest.head? = some b := by
  simp only [peek] at h
  split at h
  · cases h
  · rename_i hr
    cases h
    exact ⟨rfl, by rw [hr]; rfl⟩

theorem byte_eq_done {b : UInt8} {e : ε} {c next : Cursor} (h : byte b e c = .done () next) :
    c.rest = b :: next.rest := by
  obtain ⟨x, mid, hx, h⟩ := bind_eq_done h
  obtain ⟨-, rfl⟩ := pure_eq_done h
  simp only [satisfy] at hx
  split at hx
  · cases hx
  · rename_i hr
    split at hx
    · rename_i hb
      cases hx
      rw [hr, beq_iff_eq.1 hb]
    · cases hx

theorem byte_ne_more {b : UInt8} {e : ε} {c : Cursor} (h : c.rest ≠ []) : byte b e c ≠ .more := by
  obtain ⟨x, rest, hr⟩ := List.exists_cons_of_ne_nil h
  intro hm
  obtain hs | ⟨_, mid, -, hp⟩ := bind_eq_more hm
  · simp only [satisfy, hr] at hs
    split at hs <;> cases hs
  · cases hp

theorem ensure_ne_more (holds : Bool) (e : ε) (c : Cursor) : ensure holds e c ≠ .more := by
  cases holds <;> nofun

theorem lineEnd_eq_done {e : ε} {c next : Cursor} (h : lineEnd e c = .done () next) :
    c.rest = Ascii.cr :: Ascii.lf :: next.rest := by
  obtain ⟨_, mid, hm, h⟩ := bind_eq_done h
  rw [byte_eq_done hm, byte_eq_done h]

theorem reads_lineEnd (e : ε) : Reads (lineEnd e) [Ascii.cr, Ascii.lf] () := fun _ _ => rfl

end Reads

end Scanner

end OriginServer
