import OriginServer.Connection.Basic

namespace OriginServer.Connection

open OriginServer.Http OriginServer.WebSocket

theorem buffer_handleFrame (pools : Pools) (c : Connection) (f : StoredFrame) :
    (handleFrame pools c f).connection.buffer = c.buffer := by
  unfold handleFrame
  split
  · rfl
  · rfl
  · rfl
  · split <;> rfl

theorem length_concludeFrame {pools : Pools} {c : Connection} {spare : Buffer} {f : StoredFrame}
    {outcome : Scan FrameError Unit} (hp : ∀ next, outcome = .done () next → 0 < next.pos)
    (h : (concludeFrame pools c spare f outcome).outcome = .ok .next) :
    (concludeFrame pools c spare f outcome).connection.buffer.length < f.buffer.length := by
  unfold concludeFrame at h ⊢
  split
  · rename_i next
    have hn := hp next rfl
    dsimp only at h ⊢
    split
    · rename_i hs
      simp [hs] at h
    · rename_i hs
      have := Buffer.length_shiftTrailing hs
      rw [buffer_handleFrame]
      dsimp only
      omega
  · cases h
  · cases h

theorem length_popFrame {setting : Setting} {pools : Pools} {c : Connection}
    (h : (popFrame setting pools c).outcome = .ok .next) :
    (popFrame setting pools c).connection.buffer.length < c.buffer.length := by
  unfold popFrame at h ⊢
  split
  · rename_i hg
    simp [hg] at h
  · rename_i f frames hg
    simp only [hg] at h
    have hl := congrArg Buffer.length (StoredFrame.buffer_read (f.withBuffer c.buffer))
    exact Nat.lt_of_lt_of_eq (length_concludeFrame (fun next => StoredFrame.pos_of_read) h) hl

theorem length_conclude {c : Connection} {pools : Pools} {input : Buffer}
    {reply : Except ConnectionError (Option (Reply × Nat))}
    (hp : ∀ r n, reply = .ok (some (r, n)) → 0 < n)
    (h : (conclude c pools input reply).outcome = .ok .next) :
    (conclude c pools input reply).connection.buffer.length < input.length := by
  unfold conclude at h ⊢
  split
  · cases h
  · cases h
  · rename_i r n
    have hn := hp r n rfl
    dsimp only at h ⊢
    split
    · rename_i hs
      simp [hs] at h
    · rename_i hs
      have := Buffer.length_shiftTrailing hs
      simp only [accept]
      omega

theorem pos_of_replyTo {setting : Setting} {domain : String} {m : StoredMessage}
    {outcome : Scan ParseError Unit} {r : Reply} {n : Nat}
    (h : replyTo setting domain m outcome = .ok (some (r, n))) :
    ∃ next : Cursor, outcome = .done () next ∧ n = next.pos := by
  unfold replyTo at h
  split at h
  · rename_i next
    cases hr : Reply.toMessage setting domain m with
    | error cause => simp [hr, Except.map] at h
    | ok reply =>
      simp only [hr, Except.map, Except.ok.injEq, Option.some.injEq, Prod.mk.injEq] at h
      exact ⟨next, rfl, h.2.symm⟩
  · cases h
  · cases h

theorem length_popRequest {setting : Setting} {pools : Pools} {c : Connection}
    (h : (popRequest setting pools c).outcome = .ok .next) :
    (popRequest setting pools c).connection.buffer.length < c.buffer.length := by
  unfold popRequest at h ⊢
  split
  · rename_i hg
    simp [hg] at h
  · rename_i m messages hg
    simp only [hg] at h
    refine Nat.lt_of_lt_of_eq (length_conclude (fun r n hr => ?_) h)
      (StoredMessage.length_read (m.withBuffer c.buffer))
    obtain ⟨next, hn, rfl⟩ := pos_of_replyTo hr
    exact readMessage_pos (Prod.ext rfl (hn ▸ (StoredMessage.read_fst _).symm))

theorem length_pop {setting : Setting} {pools : Pools} {c : Connection}
    (h : (pop setting pools c).outcome = .ok .next) :
    (pop setting pools c).connection.buffer.length < c.buffer.length := by
  unfold pop at h ⊢
  split
  · rename_i hb
    simp [hb] at h
  · rename_i hb
    simp only [hb] at h
    split
    · rename_i hp
      simp only [hp] at h
      exact length_popRequest h
    · rename_i hp
      simp only [hp] at h
      exact length_popFrame h

/-- Takes requests or frames until none is complete, one closes the connection, or one fails. -/
def drain (setting : Setting) (pools : Pools) (c : Connection) : Turn Flow :=
  match _h : (pop setting pools c).outcome with
  | .error cause => { pop setting pools c with outcome := .error cause }
  | .ok .wait => { pop setting pools c with outcome := .ok .goOn }
  | .ok .close => { pop setting pools c with outcome := .ok .close }
  | .ok .next =>
    let first := pop setting pools c
    let rest := drain setting first.pools first.connection
    { rest with
      output := first.output ++ rest.output
      notices := first.notices ++ rest.notices }
  termination_by c.buffer.length
  decreasing_by exact length_pop _h

/-- Refuses a request that is too long and still incomplete. -/
def checkSize (limit : Nat) (t : Turn Flow) : Turn Flow :=
  match t.outcome with
  | .ok .goOn =>
    if t.connection.protocol = .http ∧ limit < t.connection.pending then
      { t with outcome := .error (.requestTooLarge limit) }
    else t
  | _ => t

@[simp] theorem connection_checkSize (limit : Nat) (t : Turn Flow) :
    (checkSize limit t).connection = t.connection := by
  unfold checkSize
  split
  · split <;> rfl
  · rfl

@[simp] theorem output_checkSize (limit : Nat) (t : Turn Flow) :
    (checkSize limit t).output = t.output := by
  unfold checkSize
  split
  · split <;> rfl
  · rfl

/-- Takes in bytes that came for a domain. After an error the connection is of no more use. -/
def io (setting : Setting) (pools : Pools) (c : Connection) (domain : String) (data : Bytes) :
    Turn Flow :=
  match c.bind domain with
  | .error cause => { connection := c, pools, outcome := .error cause }
  | .ok c =>
    match c.buffer.push data with
    | .error cause => { connection := c, pools, outcome := .error (.buffer cause) }
    | .ok buffer =>
      checkSize setting.config.limits.maxRequestSize (drain setting pools { c with buffer })

/-- A call is refused for its domain, fails for lack of room, or takes what it can. -/
theorem io_cases (setting : Setting) (pools : Pools) (c : Connection) (domain : String)
    (data : Bytes) :
    (∃ cause, c.bind domain = .error cause ∧
      io setting pools c domain data = { connection := c, pools, outcome := .error cause }) ∨
    ∃ bound, c.bind domain = .ok bound ∧
      ((∃ cause, bound.buffer.push data = .error cause ∧
        io setting pools c domain data =
          { connection := bound, pools, outcome := .error (.buffer cause) }) ∨
      ∃ buffer, bound.buffer.push data = .ok buffer ∧
        io setting pools c domain data =
          checkSize setting.config.limits.maxRequestSize
            (drain setting pools { bound with buffer })) := by
  cases hb : c.bind domain with
  | error cause => exact .inl ⟨cause, rfl, by simp only [io, hb]⟩
  | ok bound =>
    cases hp : bound.buffer.push data with
    | error cause => exact .inr ⟨bound, rfl, .inl ⟨cause, hp, by simp only [io, hb, hp]⟩⟩
    | ok buffer => exact .inr ⟨bound, rfl, .inr ⟨buffer, hp, by simp only [io, hb, hp]⟩⟩

/-- Ends a connection. The frames of an open message go back to the pool. -/
def drop (pools : Pools) (c : Connection) : Pools × List Notice :=
  (c.reassembly.frames.foldl Pools.putFrame pools,
    if c.protocol = .webSocket then [.closed c.socket] else [])

end OriginServer.Connection
