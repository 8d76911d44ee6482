import OriginServer.Connection.Run
import OriginServer.Proofs.Connection.Reply
import OriginServer.Proofs.WebSocket.Frame

namespace OriginServer

open OriginServer.Http OriginServer.WebSocket

/-- What the frames of an open message come to. -/
structure OpenMessage where
  maxSize : Nat
  payload : Bytes := []
  /-- The payload bytes counted so far. -/
  size : Nat := 0
  last : Fragmentation := .none

/-- Takes the next data frame. The answer is the payload of the message that it completes. -/
def OpenMessage.push (m : OpenMessage) (found : Fragmentation) (payload : Bytes) :
    Except FragmentError (Option Bytes × OpenMessage) :=
  let size := m.size + payload.length
  let whole := m.payload ++ payload
  if !found.follows m.last then .error (.unexpected m.last found)
  else if m.maxSize < size then .error (.tooLarge m.maxSize)
  else if found.leavesOpen then .ok (none, { m with payload := whole, size, last := found })
  else .ok (some whole, { m with payload := [], size := 0, last := found })

/-- A connection by the bytes that wait, wherever they are kept. -/
structure Stream where
  socket : SocketId
  domain : String
  protocol : Protocol
  waiting : Bytes
  message : OpenMessage

/-- A result with what was given rise to on the way. -/
structure Progress (α : Type) where
  output : List Output := []
  notices : List Notice := []
  result : α

/-- The progress that comes behind an earlier one. -/
def Progress.behind {α β : Type} (p : Progress β) (first : Progress α) : Progress β :=
  { output := first.output ++ p.output
    notices := first.notices ++ p.notices
    result := p.result }

/-- What follows the attempt to take one request or frame. -/
inductive Advance where
  | wait
  | next (s : Stream)
  | close
  | error (cause : ConnectionError)

/-- How a connection stands when nothing more can be taken. -/
inductive Verdict where
  | goOn (s : Stream)
  | close
  | error (cause : ConnectionError)

namespace Stream

variable {setting : Setting}

/-- More bytes arrive. -/
def append (s : Stream) (data : Bytes) : Stream := { s with waiting := s.waiting ++ data }

/-- Takes a reply on, with `rest` left to read. -/
def accept (s : Stream) (rest : Bytes) (reply : Reply) : Progress Advance :=
  { output := reply.output
    notices := if reply.upgrades then [.opened s.socket s.domain] else []
    result := .next { s with
      waiting := rest
      protocol := if reply.upgrades then .webSocket else s.protocol } }

/-- The request at the front of the bytes. -/
def request (setting : Setting) (bytes : Bytes) (parts : Parts) : StoredMessage :=
  { config := setting.config.limits.messageConfig, buffer := ⟨bytes, bytes.length, none⟩, parts }

/-- Takes one request out of the bytes. -/
def readRequest (setting : Setting) (s : Stream) : Progress Advance :=
  match readMessage setting.config.limits.messageConfig.limits s.waiting with
  | (_, .more) => { result := .wait }
  | (_, .fail cause) => { result := .error (.parse cause) }
  | (parts, .done () next) =>
    match Reply.toMessage setting s.domain (request setting s.waiting parts) with
    | .error cause => { result := .error cause }
    | .ok reply => s.accept next.rest reply

/-- Takes one request, where there can be a message to read it with. -/
def popRequest (setting : Setting) (s : Stream) : Progress Advance :=
  if setting.config.limits.messageConfig.hasSlots || s.waiting.isEmpty then readRequest setting s
  else { result := .error .noObject }

/-- Answers a frame with its payload in the clear. -/
def handleFrame (s : Stream) (header : FrameHeader) (payload : Bytes) : Progress Advance :=
  match header.opcode with
  | .ping => { output := [.bytes (frameBytes .pong true payload none)], result := .next s }
  | .pong => { result := .next s }
  | .close =>
    { output := [.bytes (frameBytes .close true (payload.take 2) none)], result := .close }
  | _ =>
    match s.message.push header.fragmentation payload with
    | .error cause => { result := .error (.fragment cause) }
    | .ok (none, message) => { result := .next { s with message } }
    | .ok (some whole, message) =>
      { notices := Connection.deliver s.socket whole, result := .next { s with message } }

/-- Takes one frame. -/
def popFrame (setting : Setting) (s : Stream) : Progress Advance :=
  match readFrame setting.config.limits.frameConfig.maxFrameSize s.waiting with
  | .more => { result := .wait }
  | .fail cause => { result := .error (.frame cause) }
  | .done header next =>
    handleFrame { s with waiting := next.rest } header
      (masked header.mask (header.content.of s.waiting))

/-- Takes one request or frame. -/
def pop (setting : Setting) (s : Stream) : Progress Advance :=
  match s.protocol with
  | .http => popRequest setting s
  | .webSocket => popFrame setting s

end Stream

section Arrival

variable {setting : Setting} {s : Stream}

/-- The same advance with more bytes behind it. -/
def Advance.append (a : Advance) (data : Bytes) : Advance :=
  match a with
  | next s => next (s.append data)
  | a => a

/-- The same progress with more bytes behind it. -/
def Progress.append (p : Progress Advance) (data : Bytes) : Progress Advance :=
  { p with result := p.result.append data }

namespace Stream

theorem request_sameHead {setting : Setting} {bytes : Bytes} {parts : Parts} {next : Cursor}
    (h : readMessage setting.config.limits.messageConfig.limits bytes = (parts, .done () next))
    (data : Bytes) :
    StoredMessage.SameHead (request setting bytes parts)
      (request setting (bytes ++ data) parts) := by
  obtain ⟨stop, hw, hs, -⟩ := readMessage_places h
  have hl := readMessage_pos_le h
  refine StoredMessage.sameHead_of_take hw rfl rfl rfl ?_
  simp only [StoredMessage.bytes, request, Buffer.content, List.take_length]
  rw [List.take_append_of_le_length (by omega)]

theorem popRequest_eq (h : setting.config.limits.messageConfig.hasSlots = true) :
    popRequest setting s = readRequest setting s := by
  rw [popRequest, h]
  rfl

theorem popRequest_of_no_slots (h : setting.config.limits.messageConfig.hasSlots = false)
    (hw : s.waiting ≠ []) : popRequest setting s = { result := .error .noObject } := by
  have hempty : s.waiting.isEmpty = false :=
    Bool.eq_false_iff.2 fun he => hw (List.isEmpty_iff.1 he)
  rw [popRequest, h, hempty]
  rfl

/-- A request is taken out of the bytes, unless there is no message to read it with. -/
theorem popRequest_of_ne (h : (popRequest setting s).result ≠ .error .noObject) :
    popRequest setting s = readRequest setting s := by
  unfold popRequest at h ⊢
  split
  · rfl
  · rename_i hfull
    rw [if_neg hfull] at h
    exact absurd rfl h

theorem readRequest_nil (h : s.waiting = []) : readRequest setting s = { result := .wait } := by
  unfold readRequest
  rw [h]
  rfl

theorem popRequest_nil (h : s.waiting = []) : popRequest setting s = { result := .wait } := by
  rw [popRequest, h, List.isEmpty_nil, Bool.or_true, if_pos rfl, readRequest_nil h]

theorem readRequest_append (data : Bytes) (h : (readRequest setting s).result ≠ .wait) :
    readRequest setting (s.append data) = (readRequest setting s).append data := by
  cases hr : readMessage setting.config.limits.messageConfig.limits s.waiting with
  | mk parts outcome =>
    have ha : outcome ≠ .more →
        readMessage setting.config.limits.messageConfig.limits (s.waiting ++ data) =
          (parts, outcome.append data) := by
      intro hm
      have ha := readMessage_append data (by rw [hr]; exact hm)
      rwa [hr] at ha
    cases outcome with
    | more => exact absurd (by simp only [readRequest, hr]) h
    | fail cause =>
      simp only [readRequest, append, hr, ha nofun, Scan.append_fail]
      rfl
    | done a next =>
      have hm := Reply.toMessage_congr (request_sameHead hr data) setting s.domain
      simp only [readRequest, append, hr, ha nofun, Scan.append_done, ← hm]
      split <;> rfl

theorem popRequest_append (data : Bytes) (h : (popRequest setting s).result ≠ .wait) :
    popRequest setting (s.append data) = (popRequest setting s).append data := by
  by_cases hw : s.waiting = []
  · rw [popRequest_nil hw] at h
    exact absurd rfl h
  · cases hs : setting.config.limits.messageConfig.hasSlots with
    | true =>
      rw [popRequest_eq hs] at h ⊢
      rw [popRequest_eq hs]
      exact readRequest_append data h
    | false =>
      have hw' : (s.append data).waiting ≠ [] := List.append_ne_nil_of_left_ne_nil hw data
      rw [popRequest_of_no_slots hs hw, popRequest_of_no_slots hs hw']
      rfl

theorem handleFrame_append (s : Stream) (header : FrameHeader) (payload data : Bytes) :
    handleFrame (s.append data) header payload = (handleFrame s header payload).append data := by
  unfold handleFrame
  split
  · rfl
  · rfl
  · rfl
  · simp only [append]
    split <;> rfl

theorem popFrame_append (data : Bytes) (h : (popFrame setting s).result ≠ .wait) :
    popFrame setting (s.append data) = (popFrame setting s).append data := by
  cases hr : readFrame setting.config.limits.frameConfig.maxFrameSize s.waiting with
  | more => exact absurd (by simp only [popFrame, hr]) h
  | fail cause =>
    have ha := readFrame_append data (by rw [hr]; exact nofun)
    rw [hr, Scan.append_fail] at ha
    simp only [popFrame, append, hr, ha]
    rfl
  | done header next =>
    have ha := readFrame_append data (by rw [hr]; exact nofun)
    rw [hr, Scan.append_done] at ha
    obtain ⟨hs, hl, -⟩ := readFrame_places hr
    have ho := Span.of_append (hs ▸ hl) data
    simp only [popFrame, append, hr, ha, ho]
    exact handleFrame_append { s with waiting := next.rest } header _ data

/-- What is made of a request or frame does not depend on what comes behind it. -/
theorem pop_append (data : Bytes) (h : (pop setting s).result ≠ .wait) :
    pop setting (s.append data) = (pop setting s).append data := by
  have hs : (s.append data).protocol = s.protocol := rfl
  unfold pop at h ⊢
  rw [hs]
  cases hp : s.protocol with
  | http =>
    rw [hp] at h
    exact popRequest_append data h
  | webSocket =>
    rw [hp] at h
    exact popFrame_append data h

theorem pop_append_of {a : Advance} (data : Bytes) (h : (pop setting s).result = a)
    (hw : a ≠ .wait) :
    pop setting (s.append data) = (pop setting s).append data ∧
      (pop setting (s.append data)).result = a.append data := by
  subst h
  rw [pop_append data hw]
  exact ⟨rfl, rfl⟩

theorem handleFrame_next {s s' : Stream} {header : FrameHeader} {payload : Bytes}
    (h : (handleFrame s header payload).result = .next s') : s'.waiting = s.waiting := by
  unfold handleFrame at h
  split at h
  · cases h
    rfl
  · cases h
    rfl
  · cases h
  · split at h <;> cases h <;> rfl

/-- A request or frame that is taken leaves less to read. -/
theorem length_of_next {s s' : Stream} (h : (pop setting s).result = .next s') :
    s'.waiting.length < s.waiting.length := by
  unfold pop popFrame at h
  split at h
  · rw [popRequest_of_ne (by rw [h]; exact nofun)] at h
    unfold readRequest at h
    split at h
    · cases h
    · cases h
    · rename_i parts next hr
      obtain ⟨taken, hi, hp, -⟩ := readMessage_closed hr
      have hpos := readMessage_pos hr
      have hl := congrArg List.length hi
      rw [List.length_append] at hl
      split at h
      · cases h
      · cases h
        dsimp only
        omega
  · split at h
    · cases h
    · cases h
    · rename_i header next hr
      have hlt := (advances_frame _).rest_lt hr
      rw [handleFrame_next h]
      exact hlt

/-- Takes requests or frames until none is complete, one closes the connection, or one fails. -/
def drain (setting : Setting) (s : Stream) : Progress Verdict :=
  match _h : (pop setting s).result with
  | .wait => { pop setting s with result := .goOn s }
  | .close => { pop setting s with result := .close }
  | .error cause => { pop setting s with result := .error cause }
  | .next s' => (drain setting s').behind (pop setting s)
  termination_by s.waiting.length
  decreasing_by all_goals exact length_of_next _h

end Stream

end Arrival

section Pieces

variable {setting : Setting}

/-- Goes on where a connection goes on. -/
def Progress.andThen (p : Progress Verdict) (f : Stream → Progress Verdict) : Progress Verdict :=
  match p.result with
  | .goOn s => (f s).behind p
  | _ => p

theorem Progress.behind_andThen {α : Type} (p : Progress Verdict) (first : Progress α)
    (f : Stream → Progress Verdict) :
    (p.behind first).andThen f = (p.andThen f).behind first := by
  unfold andThen
  cases hp : p.result with
  | goOn s => simp only [behind, hp, List.append_assoc]
  | close => simp only [behind, hp]
  | error cause => simp only [behind, hp]

namespace Stream

theorem pop_of_wait {s : Stream} (h : (pop setting s).result = .wait) :
    pop setting s = { result := .wait } := by
  unfold pop popFrame at h ⊢
  split at h
  · have hread : popRequest setting s = readRequest setting s :=
      popRequest_of_ne (by rw [h]; exact nofun)
    rw [hread] at h ⊢
    unfold readRequest at h ⊢
    split at h
    · rfl
    · cases h
    · split at h <;> cases h
  · split at h
    · rfl
    · cases h
    · unfold handleFrame at h
      split at h
      · cases h
      · cases h
      · cases h
      · split at h <;> cases h

theorem pop_nil {s : Stream} (h : s.waiting = []) : (pop setting s).result = .wait := by
  unfold pop
  cases s.protocol with
  | http => exact congrArg Progress.result (popRequest_nil h)
  | webSocket =>
    dsimp only
    rw [popFrame, h]
    rfl

theorem drain_of_wait {s : Stream} (h : (pop setting s).result = .wait) :
    drain setting s = { result := .goOn s } := by
  rw [drain]
  split <;> rename_i h' <;> cases h.symm.trans h'
  rw [pop_of_wait h]

theorem drain_of_next {s s' : Stream} (h : (pop setting s).result = .next s') :
    drain setting s = (drain setting s').behind (pop setting s) := by
  rw [drain]
  split <;> rename_i h' <;> cases h.symm.trans h'
  rfl

theorem drain_of_close {s : Stream} (h : (pop setting s).result = .close) :
    drain setting s = { pop setting s with result := .close } := by
  rw [drain]
  split <;> rename_i h' <;> cases h.symm.trans h'
  rfl

theorem drain_of_error {s : Stream} {cause : ConnectionError}
    (h : (pop setting s).result = .error cause) :
    drain setting s = { pop setting s with result := .error cause } := by
  rw [drain]
  split <;> rename_i h' <;> cases h.symm.trans h'
  rfl

/-- More bytes can as well come after what can be taken was taken. -/
theorem drain_append (s : Stream) (data : Bytes) :
    drain setting (s.append data) =
      (drain setting s).andThen fun s' => drain setting (s'.append data) := by
  induction hn : s.waiting.length using Nat.strongRecOn generalizing s with
  | ind n ih =>
    subst hn
    cases hr : (pop setting s).result with
    | wait =>
      rw [drain_of_wait hr]
      rfl
    | close =>
      obtain ⟨hp, hc⟩ := pop_append_of data hr nofun
      rw [drain_of_close hr, drain_of_close hc, hp]
      rfl
    | error cause =>
      obtain ⟨hp, hc⟩ := pop_append_of data hr nofun
      rw [drain_of_error hr, drain_of_error hc, hp]
      rfl
    | next s' =>
      obtain ⟨hp, hc⟩ := pop_append_of data hr nofun
      rw [drain_of_next hr, drain_of_next hc, hp, ih _ (length_of_next hr) s' rfl,
        Progress.behind_andThen]
      rfl

/-- Where a connection goes on, nothing can be taken, and what every request and frame keeps still
holds. -/
theorem drain_invariant {P : Stream → Prop}
    (hstep : ∀ s s', P s → (pop setting s).result = .next s' → P s') {s s' : Stream} (hs : P s)
    (h : (drain setting s).result = .goOn s') : P s' ∧ (pop setting s').result = .wait := by
  induction hn : s.waiting.length using Nat.strongRecOn generalizing s with
  | ind n ih =>
    subst hn
    cases hr : (pop setting s).result with
    | wait =>
      rw [drain_of_wait hr] at h
      cases h
      exact ⟨hs, hr⟩
    | close =>
      rw [drain_of_close hr] at h
      cases h
    | error cause =>
      rw [drain_of_error hr] at h
      cases h
    | next s₁ =>
      rw [drain_of_next hr] at h
      exact ih _ (length_of_next hr) (hstep s s₁ hs hr) h rfl

/-- What is left to read was there to read. -/
theorem length_drain {s s' : Stream} (h : (drain setting s).result = .goOn s') :
    s'.waiting.length ≤ s.waiting.length := by
  have hstep (s₁ s₂ : Stream) (hle : s₁.waiting.length ≤ s.waiting.length)
      (hr : (pop setting s₁).result = .next s₂) : s₂.waiting.length ≤ s.waiting.length :=
    Nat.le_trans (Nat.le_of_lt (length_of_next hr)) hle
  exact (drain_invariant hstep (Nat.le_refl _) h).1

end Stream

/-- Refuses a request that is too long and still incomplete. -/
def Progress.checkSize (limit : Nat) (p : Progress Verdict) : Progress Verdict :=
  match p.result with
  | .goOn s =>
    if s.protocol = .http ∧ limit < s.waiting.length then
      { p with result := .error (.requestTooLarge limit) }
    else p
  | _ => p

theorem Progress.behind_checkSize {α : Type} (limit : Nat) (p : Progress Verdict)
    (first : Progress α) :
    (p.behind first).checkSize limit = (p.checkSize limit).behind first := by
  unfold checkSize
  cases hp : p.result with
  | goOn s =>
    simp only [behind, hp]
    split
    · rfl
    · rw [hp]
  | close => simp only [behind, hp]
  | error cause => simp only [behind, hp]

theorem Progress.checkSize_eq {limit : Nat} {p : Progress Verdict}
    (h : (p.checkSize limit).result ≠ .error (.requestTooLarge limit)) : p.checkSize limit = p := by
  unfold checkSize at h ⊢
  split
  · rename_i s hs
    split
    · rename_i hl
      rw [hs] at h
      exact absurd (by simp only [if_pos hl]) h
    · rfl
  · rfl

namespace Stream

/-- Takes in one piece. -/
def io (setting : Setting) (s : Stream) (data : Bytes) : Progress Verdict :=
  (drain setting (s.append data)).checkSize setting.config.limits.maxRequestSize

theorem length_io {s s' : Stream} {data : Bytes} (h : (io setting s data).result = .goOn s') :
    s'.waiting.length ≤ s.waiting.length + data.length := by
  have hd : (drain setting (s.append data)).result = .goOn s' := by
    rw [← h, io, Progress.checkSize_eq]
    rw [io] at h
    rw [h]
    exact nofun
  have hl := length_drain hd
  rwa [append, List.length_append] at hl

/-- Takes in pieces one after the other, as long as the connection goes on. -/
def feed (setting : Setting) (s : Stream) : List Bytes → Progress Verdict
  | [] => { result := .goOn s }
  | data :: later => (io setting s data).andThen fun s' => feed setting s' later

theorem append_append (s : Stream) (a b : Bytes) : (s.append a).append b = s.append (a ++ b) := by
  simp only [append, List.append_assoc]

theorem andThen_goOn (p : Progress Verdict) :
    (p.andThen fun s => { result := .goOn s }) = p := by
  unfold Progress.andThen
  split
  · rename_i s hs
    simp only [Progress.behind, List.append_nil, ← hs]
  · rfl

/-- Pieces come to the same as all their bytes at once, unless one was found too large. -/
theorem io_flatten {s : Stream} {pieces : List Bytes} (hn : pieces ≠ [])
    (h : ∀ limit, (feed setting s pieces).result ≠ .error (.requestTooLarge limit)) :
    io setting s pieces.flatten = feed setting s pieces := by
  induction pieces generalizing s with
  | nil => exact absurd rfl hn
  | cons data later ih =>
    by_cases hl : later = []
    · subst hl
      simp only [feed, List.flatten_cons, List.flatten_nil, List.append_nil, andThen_goOn]
    · have hc : io setting s data = drain setting (s.append data) := by
        refine Progress.checkSize_eq fun he => h setting.config.limits.maxRequestSize ?_
        rw [feed, Progress.andThen, io, he]
        exact he
      rw [feed, hc] at h ⊢
      rw [io, List.flatten_cons, ← append_append, drain_append]
      unfold Progress.andThen at h ⊢
      cases hr : (drain setting (s.append data)).result with
      | goOn s' =>
        simp only [hr] at h ⊢
        rw [Progress.behind_checkSize]
        exact congrArg (Progress.behind · _) (ih hl h)
      | close => simp only [Progress.checkSize, hr]
      | error cause => simp only [Progress.checkSize, hr]

end Stream

end Pieces

end OriginServer
