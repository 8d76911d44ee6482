import OriginServer.Bytes

namespace OriginServer

/-- A place in the input: how many bytes were read and which are still ahead. -/
structure Cursor where
  pos : Nat
  rest : Bytes
  deriving Repr, DecidableEq

/-- A stretch of the input, by its first index and its length. -/
structure Span where
  start : Nat
  len : Nat
  deriving Repr, DecidableEq

namespace Span

def stop (s : Span) : Nat := s.start + s.len

/-- The bytes of `input` that the span covers. -/
def of (s : Span) (input : Bytes) : Bytes := input.slice s.start s.len

end Span

/-- What a scanner makes of the bytes at hand. -/
inductive Scan (ε α : Type) where
  /-- The unit is complete and the input goes on at `next`. -/
  | done (value : α) (next : Cursor)
  /-- All bytes so far fit, and some are missing. -/
  | more
  /-- No continuation of the input can be accepted. -/
  | fail (cause : ε)
  deriving Repr, DecidableEq

def Scanner (ε α : Type) : Type := Cursor → Scan ε α

namespace Scanner

variable {ε α β : Type}

def pure (a : α) : Scanner ε α := fun c => .done a c

def bind (p : Scanner ε α) (q : α → Scanner ε β) : Scanner ε β := fun c =>
  match p c with
  | .done a next => q a next
  | .more => .more
  | .fail e => .fail e

instance : Monad (Scanner ε) where
  pure := pure
  bind := bind

/-- The index of the next byte. -/
def position : Scanner ε Nat := fun c => .done c.pos c

def refuse (e : ε) : Scanner ε α := fun _ => .fail e

def ensure (holds : Bool) (e : ε) : Scanner ε Unit := fun c =>
  if holds then .done () c else .fail e

/-- The longest run of bytes of a class, once a byte outside the class ends it. -/
def run (p : UInt8 → Bool) : Scanner ε Bytes := fun c =>
  let taken := c.rest.takeWhile p
  match c.rest.dropWhile p with
  | [] => .more
  | b :: rest => .done taken ⟨c.pos + taken.length, b :: rest⟩

/-- Any one byte. -/
def any : Scanner ε UInt8 := fun c =>
  match c.rest with
  | [] => .more
  | b :: rest => .done b ⟨c.pos + 1, rest⟩

/-- That many bytes. -/
def take (n : Nat) : Scanner ε Bytes := fun c =>
  if c.rest.length < n then .more else .done (c.rest.take n) ⟨c.pos + n, c.rest.drop n⟩

/-- One byte of a class. -/
def satisfy (p : UInt8 → Bool) (e : ε) : Scanner ε UInt8 := fun c =>
  match c.rest with
  | [] => .more
  | b :: rest => if p b then .done b ⟨c.pos + 1, rest⟩ else .fail e

def byte (b : UInt8) (e : ε) : Scanner ε Unit := do
  let _ ← satisfy (· == b) e

/-- The letters of `word` in either case. -/
def caseless (word : Bytes) (e : ε) : Scanner ε Unit :=
  match word with
  | [] => pure ()
  | b :: word => do
    let _ ← satisfy (fun x => Ascii.toLower x == Ascii.toLower b) e
    caseless word e

/-- Refuses a byte of a class and reads nothing. -/
def notBefore (p : UInt8 → Bool) (e : ε) : Scanner ε Unit := fun c =>
  match c.rest with
  | [] => .done () c
  | b :: _ => if p b then .fail e else .done () c

/-- The next byte, without reading it. -/
def peek : Scanner ε UInt8 := fun c =>
  match c.rest with
  | [] => .more
  | b :: _ => .done b c

/-- A line break. A bare LF is refused. -/
def lineEnd (e : ε) : Scanner ε Unit := do
  byte Ascii.cr e
  byte Ascii.lf e

/-- A scanner that only moves forward: what it completes is followed by the rest of the input. -/
def Forward (p : Scanner ε α) : Prop :=
  ∀ c a next, p c = .done a next →
    ∃ taken : Bytes, c.rest = taken ++ next.rest ∧ next.pos = c.pos + taken.length

/-- A scanner that reads at least one byte of what it completes. -/
def Advances (p : Scanner ε α) : Prop :=
  ∀ c a next, p c = .done a next →
    ∃ taken : Bytes, taken ≠ [] ∧ c.rest = taken ++ next.rest ∧ next.pos = c.pos + taken.length

theorem Advances.forward {p : Scanner ε α} (h : p.Advances) : p.Forward := fun c a next e =>
  let ⟨taken, _, hr, hp⟩ := h c a next e
  ⟨taken, hr, hp⟩

theorem Advances.rest_lt {p : Scanner ε α} (h : p.Advances) {c : Cursor} {a : α} {next : Cursor}
    (e : p c = .done a next) : next.rest.length < c.rest.length := by
  obtain ⟨taken, ht, hr, _⟩ := h c a next e
  have := List.length_pos_iff.2 ht
  simp only [hr, List.length_append]
  omega

theorem Forward.rest_le {p : Scanner ε α} (h : p.Forward) {c : Cursor} {a : α} {next : Cursor}
    (e : p c = .done a next) : next.rest.length ≤ c.rest.length := by
  obtain ⟨taken, hr, _⟩ := h c a next e
  simp only [hr, List.length_append]
  omega

theorem forward_pure (a : α) : (Pure.pure a : Scanner ε α).Forward := by
  intro c b next e
  cases e
  exact ⟨[], rfl, rfl⟩

theorem bind_eq_done {p : Scanner ε α} {q : α → Scanner ε β} {c : Cursor} {b : β} {next : Cursor}
    (e : (p >>= q) c = .done b next) :
    ∃ a mid, p c = .done a mid ∧ q a mid = .done b next := by
  change bind p q c = _ at e
  unfold bind at e
  split at e
  · exact ⟨_, _, ‹_›, e⟩
  · cases e
  · cases e

theorem Forward.bind {p : Scanner ε α} {q : α → Scanner ε β} (hp : p.Forward)
    (hq : ∀ a, (q a).Forward) : (p >>= q).Forward := by
  intro c b next e
  obtain ⟨a, mid, h, h'⟩ := bind_eq_done e
  obtain ⟨s, hs, ps⟩ := hp c a mid h
  obtain ⟨t, ht, pt⟩ := hq a mid b next h'
  exact ⟨s ++ t, by simp [hs, ht], by simp [ps, pt]; omega⟩

theorem Advances.bind {p : Scanner ε α} {q : α → Scanner ε β} (hp : p.Advances)
    (hq : ∀ a, (q a).Forward) : (p >>= q).Advances := by
  intro c b next e
  obtain ⟨a, mid, h, h'⟩ := bind_eq_done e
  obtain ⟨s, ns, hs, ps⟩ := hp c a mid h
  obtain ⟨t, ht, pt⟩ := hq a mid b next h'
  exact ⟨s ++ t, by simp [ns], by simp [hs, ht], by simp [ps, pt]; omega⟩

theorem Forward.bind_advances {p : Scanner ε α} {q : α → Scanner ε β} (hp : p.Forward)
    (hq : ∀ a, (q a).Advances) : (p >>= q).Advances := by
  intro c b next e
  obtain ⟨a, mid, h, h'⟩ := bind_eq_done e
  obtain ⟨s, hs, ps⟩ := hp c a mid h
  obtain ⟨t, nt, ht, pt⟩ := hq a mid b next h'
  exact ⟨s ++ t, by simp [nt], by simp [hs, ht], by simp [ps, pt]; omega⟩

theorem forward_position : (position : Scanner ε Nat).Forward := by
  intro c b next e
  cases e
  exact ⟨[], rfl, rfl⟩

theorem forward_refuse (x : ε) : (refuse x : Scanner ε α).Forward := by
  intro c b next e
  cases e

theorem forward_ensure (h : Bool) (x : ε) : (ensure h x).Forward := by
  intro c b next e
  unfold ensure at e
  split at e <;> cases e
  exact ⟨[], rfl, rfl⟩

theorem forward_run (p : UInt8 → Bool) : (run p : Scanner ε Bytes).Forward := by
  intro c b next e
  simp only [run] at e
  split at e
  · cases e
  · rename_i x rest hd
    cases e
    exact ⟨c.rest.takeWhile p, by rw [← hd, List.takeWhile_append_dropWhile], rfl⟩

theorem advances_satisfy (p : UInt8 → Bool) (x : ε) : (satisfy p x).Advances := by
  intro c b next e
  simp only [satisfy] at e
  split at e
  · cases e
  · rename_i _ rest hr
    split at e <;> cases e
    exact ⟨[b], by simp, by simp [hr], rfl⟩

theorem advances_byte (b : UInt8) (x : ε) : (byte b x).Advances :=
  (advances_satisfy _ _).bind fun _ => forward_pure ()

theorem forward_caseless (word : Bytes) (x : ε) : (caseless word x).Forward := by
  induction word with
  | nil => exact forward_pure ()
  | cons b word ih => exact (advances_satisfy _ _).forward.bind fun _ => ih

theorem forward_notBefore (p : UInt8 → Bool) (x : ε) : (notBefore p x).Forward := by
  intro c b next e
  simp only [notBefore] at e
  split at e
  · cases e
    exact ⟨[], rfl, rfl⟩
  · split at e <;> cases e
    exact ⟨[], rfl, rfl⟩

theorem forward_peek : (peek : Scanner ε UInt8).Forward := by
  intro c b next e
  simp only [peek] at e
  split at e <;> cases e
  exact ⟨[], rfl, rfl⟩

theorem advances_any : (any : Scanner ε UInt8).Advances := by
  intro c b next e
  simp only [any] at e
  split at e <;> cases e
  rename_i rest hr
  exact ⟨[b], by simp, by simp [hr], rfl⟩

theorem forward_take (n : Nat) : (take n : Scanner ε Bytes).Forward := by
  intro c b next e
  simp only [take] at e
  split at e <;> cases e
  exact ⟨c.rest.take n, (List.take_append_drop _ _).symm, by simp; omega⟩

theorem advances_lineEnd (x : ε) : (lineEnd x).Advances :=
  (advances_byte _ _).bind fun _ => (advances_byte _ _).forward

end Scanner

end OriginServer
