import OriginServer.Proofs.Storage.Buffer

namespace OriginServer

/-- A change of a buffer in place. What was done before an error stays done. -/
abbrev BufferEdit (α : Type) := ExceptT BufferError (StateM Buffer) α

namespace BufferEdit

open Buffer

section Run

variable {α β : Type}

/-- The outcome of a change, and the buffer behind it. -/
def on (edit : BufferEdit α) (b : Buffer) : Except BufferError α × Buffer :=
  Id.run (edit.run.run b)

@[simp] theorem on_pure (a : α) (b : Buffer) : on (pure a) b = (.ok a, b) := rfl

@[simp] theorem on_throw (e : BufferError) (b : Buffer) :
    on (throw e : BufferEdit α) b = (.error e, b) :=
  rfl

@[simp] theorem on_get (b : Buffer) : on (get : BufferEdit Buffer) b = (.ok b, b) := rfl

@[simp] theorem on_modify (f : Buffer → Buffer) (b : Buffer) :
    on (modify f : BufferEdit Unit) b = (.ok (), f b) :=
  rfl

@[simp] theorem on_lift (x : Except BufferError α) (b : Buffer) :
    on (liftM x : BufferEdit α) b = (x, b) :=
  rfl

@[simp] theorem on_bind (x : BufferEdit α) (f : α → BufferEdit β) (b : Buffer) :
    (x >>= f).on b = match x.on b with
      | (.ok a, next) => (f a).on next
      | (.error e, next) => (.error e, next) := by
  have hrun : (x >>= f).on b = Id.run (ExceptT.bindCont f (x.on b).1 (x.on b).2) := rfl
  rw [hrun]
  obtain ⟨outcome, next⟩ := x.on b
  cases outcome <;> rfl

end Run

section Operations

def extend (n : Nat) : BufferEdit Unit := do
  if n ≠ 0 then
    let b ← get
    if maxStore < b.capacity + n then throw (.noRoom n)
    modify fun b => { b with store := b.store ++ List.replicate n 0 }

/-- The store grows before the length does. -/
def push (bytes : Bytes) : BufferEdit Unit := do
  let b ← get
  let needed := b.length + bytes.length
  if b.capacity < needed then extend (needed - b.capacity)
  modify fun b => { b with store := b.content ++ bytes ++ b.store.drop needed, length := needed }

def assign (bytes : Bytes) : BufferEdit Unit := do
  modify (truncate · 0)
  push bytes

/-- The tail gets its own store before it leaves this one. -/
def shiftTrailing (place : Nat) : BufferEdit Buffer := do
  let b ← get
  if b.length < place then throw (.outOfRange place b.length)
  let tail ← Buffer.push { threshold := b.threshold } (b.content.drop place)
  modify (truncate · place)
  return tail

/-- An operation that either completes or leaves the buffer as it was. -/
def settle (b : Buffer) : Except BufferError Buffer → Except BufferError Unit × Buffer
  | .ok next => (.ok (), next)
  | .error e => (.error e, b)

theorem on_extend (b : Buffer) (n : Nat) : (extend n).on b = settle b (b.extend n) := by
  unfold extend Buffer.extend
  by_cases hn : n = 0
  · simp [hn, settle]
  · by_cases hr : maxStore < b.capacity + n
    · simp [hn, hr, settle]
    · simp [hn, hr, settle]

theorem on_push (b : Buffer) (bytes : Bytes) : (push bytes).on b = settle b (b.push bytes) := by
  by_cases hc : b.capacity < b.length + bytes.length
  · simp only [push, Buffer.push, on_bind, on_get, if_pos hc, on_extend]
    cases b.extend (b.length + bytes.length - b.capacity) <;> rfl
  · have hz : b.length + bytes.length - b.capacity = 0 := by omega
    have he : b.extend 0 = .ok b := if_pos rfl
    simp only [push, Buffer.push, on_bind, on_get, if_neg hc, hz, he]
    rfl

theorem on_assign (b : Buffer) (bytes : Bytes) :
    (assign bytes).on b = settle (b.truncate 0) (b.set bytes) := by
  rw [assign, on_bind, on_modify]
  exact on_push _ _

theorem on_shiftTrailing (b : Buffer) (place : Nat) :
    (shiftTrailing place).on b = match b.shiftTrailing place with
      | .ok (head, tail) => (.ok tail, head)
      | .error e => (.error e, b) := by
  by_cases hp : b.length < place
  · simp only [shiftTrailing, Buffer.shiftTrailing, on_bind, on_get, if_pos hp, on_throw]
  · simp only [shiftTrailing, Buffer.shiftTrailing, on_bind, on_get, if_neg hp, on_lift]
    cases Buffer.push { threshold := b.threshold } (b.content.drop place) <;> rfl

end Operations

section History

/-- The part of a divided buffer that its owner goes on with. -/
inductive Half where
  | head
  | tail
  deriving Repr, DecidableEq

/-- What an owner may do with a buffer. A write keeps the number of the bytes in use. -/
inductive Op where
  | withCapacity (n : Nat)
  | withThreshold (n : Nat)
  | push (bytes : Bytes)
  | assign (bytes : Bytes)
  | extend (n : Nat)
  | truncate (n : Nat)
  | clear
  | write (f : Bytes → Bytes) (keeps : ∀ s, (f s).length = s.length)
  | shiftTrailing (place : Nat) (half : Half)

namespace Op

def edit : Op → BufferEdit Unit
  | withCapacity n => do set (← Buffer.withCapacity n)
  | withThreshold n => modify (Buffer.withThreshold · n)
  | push bytes => BufferEdit.push bytes
  | assign bytes => BufferEdit.assign bytes
  | extend n => BufferEdit.extend n
  | truncate n => modify (Buffer.truncate · n)
  | clear => modify Buffer.clear
  | write f _ => modify (Buffer.modify · f)
  | shiftTrailing place half => do
    let tail ← BufferEdit.shiftTrailing place
    match half with
    | .head => return
    | .tail => set tail

/-- What the operation makes of a string. A string that is too long for a store is refused. -/
def meaning (s : Bytes) : Op → Bytes
  | withCapacity n => if n ≤ maxStore then [] else s
  | withThreshold _ => s
  | push bytes => if s.length + bytes.length ≤ maxStore then s ++ bytes else s
  | assign bytes => if bytes.length ≤ maxStore then bytes else []
  | extend _ => s
  | truncate n => s.take n
  | clear => []
  | write f _ => f s
  | shiftTrailing place half =>
    if s.length < place then s
    else
      match half with
      | .head => s.take place
      | .tail => s.drop place

theorem on_withCapacity (b : Buffer) (n : Nat) :
    (withCapacity n).edit.on b = settle b (Buffer.withCapacity n) := by
  rw [edit]
  cases Buffer.withCapacity n <;> rfl

end Op

/-- A buffer that is sound and keeps the store behind its content zero. -/
structure Kept (b : Buffer) : Prop extends Sound b, Zeroed b

variable {b : Buffer}

theorem Kept.truncate (h : Kept b) (n : Nat) : Kept (b.truncate n) :=
  ⟨h.toSound.truncate n, (h.toZeroed.truncate n).zero⟩

theorem Kept.withCapacity (h : Kept b) (n : Nat) :
    Kept ((Op.withCapacity n).edit.on b).2 ∧
      ((Op.withCapacity n).edit.on b).2.content = (Op.withCapacity n).meaning b.content := by
  rw [Op.on_withCapacity, Op.meaning]
  cases hw : Buffer.withCapacity n with
  | error e =>
    have hn : ¬ n ≤ maxStore := by
      intro hn
      obtain ⟨next, hok⟩ := withCapacity_complete hn
      cases hw.symm.trans hok
    rw [if_neg hn]
    exact ⟨h, rfl⟩
  | ok next =>
    obtain ⟨hn, hs, hc⟩ := withCapacity_sound hw
    rw [if_pos hn]
    exact ⟨⟨hs, (withCapacity_zeroed hw).zero⟩, hc⟩

theorem Kept.push (h : Kept b) (bytes : Bytes) :
    Kept ((push bytes).on b).2 ∧
      ((push bytes).on b).2.content = (Op.push bytes).meaning b.content := by
  rw [on_push, Op.meaning, h.toSound.length_content]
  cases hp : b.push bytes with
  | error e =>
    rw [if_neg (Nat.not_le.2 (h.toSound.full_of_push hp))]
    exact ⟨h, rfl⟩
  | ok next =>
    obtain ⟨hs, hc⟩ := h.toSound.push hp
    rw [if_pos (h.toSound.room_of_push hp)]
    exact ⟨⟨hs, (h.toZeroed.push hp).zero⟩, hc⟩

/-- The old content is gone, also where there is no room for the new one. -/
theorem Kept.assign (h : Kept b) (bytes : Bytes) :
    Kept ((BufferEdit.assign bytes).on b).2 ∧
      ((BufferEdit.assign bytes).on b).2.content = (Op.assign bytes).meaning b.content := by
  have hassign :
      (BufferEdit.assign bytes).on b = (BufferEdit.push bytes).on (b.truncate 0) := by
    rw [on_assign, on_push, Buffer.set]
  have hempty : (b.truncate 0).content = [] := by
    rw [h.toSound.content_truncate, List.take_zero]
  obtain ⟨hk, hc⟩ := (h.truncate 0).push bytes
  rw [hassign]
  refine ⟨hk, ?_⟩
  rw [hc, hempty, Op.meaning, Op.meaning, List.length_nil, Nat.zero_add, List.nil_append]

theorem Kept.extend (h : Kept b) (n : Nat) :
    Kept ((extend n).on b).2 ∧ ((extend n).on b).2.content = b.content := by
  rw [on_extend]
  cases he : b.extend n with
  | error e => exact ⟨h, rfl⟩
  | ok next =>
    obtain ⟨hs, hc⟩ := h.toSound.extend he
    exact ⟨⟨hs, (h.toZeroed.extend he).1.zero⟩, hc⟩

/-- A buffer is divided at every place that it has. Both parts are kept, and the second one has the
threshold of the whole. -/
theorem Kept.shiftTrailing (h : Kept b) {place : Nat} (hp : place ≤ b.length) :
    ∃ tail, (shiftTrailing place).on b = (.ok tail, b.truncate place) ∧ Kept tail ∧
      tail.content = b.content.drop place ∧ tail.threshold = b.threshold := by
  obtain ⟨tail, hs, hsound, hc⟩ := h.toSound.shiftTrailing_complete hp
  obtain ⟨-, -, hzeroed, ht⟩ := shiftTrailing_eq_ok hs
  refine ⟨tail, ?_, ⟨hsound, hzeroed.zero⟩, hc, ht⟩
  rw [on_shiftTrailing, hs]

theorem on_shiftTrailing_outside {place : Nat} (hp : b.length < place) :
    (shiftTrailing place).on b = (.error (.outOfRange place b.length), b) := by
  have hs : b.shiftTrailing place = .error (.outOfRange place b.length) := if_pos hp
  rw [on_shiftTrailing, hs]

/-- One operation keeps a buffer, and does to its content what it means. -/
theorem Kept.edit (h : Kept b) (op : Op) :
    Kept (op.edit.on b).2 ∧ (op.edit.on b).2.content = op.meaning b.content := by
  cases op with
  | withCapacity n => exact h.withCapacity n
  | withThreshold n => exact ⟨⟨h.toSound.withThreshold n, h.zero⟩, rfl⟩
  | push bytes => exact h.push bytes
  | assign bytes => exact h.assign bytes
  | extend n => exact h.extend n
  | truncate n => exact ⟨h.truncate n, h.toSound.content_truncate n⟩
  | clear =>
    obtain ⟨hs, hc⟩ := h.toSound.clear
    exact ⟨⟨hs, fun x hx => h.toZeroed.clear x (List.mem_of_mem_drop hx)⟩, hc⟩
  | write f keeps =>
    exact ⟨⟨h.toSound.modify (keeps _), (h.toZeroed.modify (keeps _)).zero⟩,
      content_modify (keeps _)⟩
  | shiftTrailing place half =>
    simp only [Op.edit, Op.meaning, on_bind, h.toSound.length_content]
    by_cases hp : b.length < place
    · rw [on_shiftTrailing_outside hp, if_pos hp]
      exact ⟨h, rfl⟩
    · obtain ⟨tail, hs, ht, hc, -⟩ := h.shiftTrailing (Nat.not_lt.1 hp)
      rw [hs, if_neg hp]
      cases half with
      | head => exact ⟨h.truncate place, h.toSound.content_truncate place⟩
      | tail => exact ⟨ht, hc⟩

/-- An operation that is refused leaves the buffer as it was, but for one that empties it first. -/
theorem Op.edit_refused {op : Op} {e : BufferError} (h : (op.edit.on b).1 = .error e)
    (hop : ∀ bytes, op ≠ .assign bytes) : (op.edit.on b).2 = b := by
  have settled {r : Except BufferError Buffer} (h : (settle b r).1 = .error e) :
      (settle b r).2 = b := by
    cases r with
    | ok next => cases h
    | error e => rfl
  cases op with
  | withCapacity n =>
    rw [on_withCapacity] at h ⊢
    exact settled h
  | push bytes =>
    rw [edit, on_push] at h ⊢
    exact settled h
  | assign bytes => exact absurd rfl (hop bytes)
  | extend n =>
    rw [edit, on_extend] at h ⊢
    exact settled h
  | shiftTrailing place half =>
    simp only [edit, on_bind, on_shiftTrailing] at h ⊢
    cases hs : b.shiftTrailing place with
    | error e => rfl
    | ok parts =>
      rw [hs] at h
      cases half <;> cases h
  | withThreshold | truncate | clear | write => cases h

/-- A new buffer after some operations. -/
def after (ops : List Op) : Buffer := ops.foldl (fun b op => (op.edit.on b).2) {}

theorem Kept.foldl (h : Kept b) (ops : List Op) :
    Kept (ops.foldl (fun b op => (op.edit.on b).2) b) ∧
      (ops.foldl (fun b op => (op.edit.on b).2) b).content = ops.foldl Op.meaning b.content := by
  induction ops generalizing b with
  | nil => exact ⟨h, rfl⟩
  | cons op ops ih =>
    obtain ⟨hk, hc⟩ := h.edit op
    rw [List.foldl_cons, List.foldl_cons, ← hc]
    exact ih hk

/-- Whatever was done to a buffer, it holds the string that was meant, and the store behind it is
zero. Clearing it leaves no more than its threshold allows, it can be divided everywhere, and what
is refused changes nothing. -/
theorem after_agrees (ops : List Op) :
    let now := after ops
    (now.length ≤ now.capacity ∧ ∀ x ∈ now.store.drop now.length, x = 0) ∧
      now.content = ops.foldl Op.meaning [] ∧
      (∀ T ∈ now.threshold, (Op.clear.edit.on now).2.capacity ≤ T) ∧
      (∀ place ≤ now.length, ∃ head tail, (shiftTrailing place).on now = (.ok tail, head) ∧
        head.content = now.content.take place ∧ head.content ++ tail.content = now.content ∧
        head.threshold = now.threshold ∧ tail.threshold = now.threshold) ∧
      (∀ place, now.length < place →
        (shiftTrailing place).on now = (.error (.outOfRange place now.length), now)) ∧
      ∀ (op : Op) (e : BufferError), (op.edit.on now).1 = .error e → (∀ bytes, op ≠ .assign bytes) →
        (op.edit.on now).2 = now := by
  intro now
  obtain ⟨hk, hc⟩ : Kept now ∧ now.content = ops.foldl Op.meaning [] :=
    Kept.foldl ⟨sound_empty none, (zeroed_empty none).zero⟩ ops
  refine ⟨⟨hk.length_le, hk.zero⟩, hc, fun T hT => capacity_clear_le hT, fun place hp => ?_,
    fun place hp => on_shiftTrailing_outside hp, fun op e => Op.edit_refused⟩
  obtain ⟨tail, hs, -, htail, ht⟩ := hk.shiftTrailing hp
  have hhead := hk.toSound.content_truncate place
  refine ⟨_, tail, hs, hhead, ?_, threshold_truncate now place, ht⟩
  rw [hhead, htail, List.take_append_drop]

/-- Nothing of what was dropped comes back with the room that it left. -/
example : (after [.assign (Bytes.ofText "secret"), .truncate 2, .extend 2]).store =
    Bytes.ofText "se" ++ List.replicate 6 0 := by
  decide +kernel

end History

end BufferEdit

end OriginServer
