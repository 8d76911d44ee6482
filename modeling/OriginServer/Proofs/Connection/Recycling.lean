import OriginServer.Proofs.Connection.Delivery

namespace OriginServer

open OriginServer.Http OriginServer.WebSocket

/-- The same setting with pools of another size. -/
def Setting.withPoolCapacity (s : Setting) (n : Nat) : Setting :=
  { s with config := { s.config with limits := { s.config.limits with poolCapacity := n } } }

def Notice.renumber (k : SocketId) : Notice → Notice
  | opened _ domain => .opened k domain
  | event _ e => .event k e
  | closed _ => .closed k

def Connection.renumber (k : SocketId) (c : Connection) : Connection := { c with socket := k }

/-- Two results that differ in the pools and in the number of the socket only. -/
structure Turn.Twin {α : Type} (k : SocketId) (t t' : Turn α) : Prop where
  connection : t'.connection = t.connection.renumber k
  output : t'.output = t.output
  notices : t'.notices = t.notices.map (Notice.renumber k)
  outcome : t'.outcome = t.outcome
  keyed : t.pools.Keyed
  keyed' : t'.pools.Keyed

theorem Turn.Twin.withOutcome {α β : Type} {k : SocketId} {t t' : Turn α} (h : t.Twin k t')
    (outcome : Except ConnectionError β) :
    ({ t with outcome } : Turn β).Twin k { t' with outcome } :=
  ⟨h.connection, h.output, h.notices, rfl, h.keyed, h.keyed'⟩

namespace Connection

variable {setting : Setting} {pools pools' : Pools} {c : Connection} {k : SocketId} {n : Nat}

theorem deliver_renumber (socket k : SocketId) (payload : Bytes) :
    deliver k payload = (deliver socket payload).map (Notice.renumber k) := by
  unfold deliver
  cases Event.read? payload <;> rfl

section Frames

theorem handleFrame_twin (f : StoredFrame) (hp : pools.Keyed) (hp' : pools'.Keyed) :
    (handleFrame pools c f).Twin k (handleFrame pools' (c.renumber k) f) := by
  have hr : (c.renumber k).reassembly = c.reassembly := rfl
  unfold handleFrame
  rw [hr]
  split
  · exact ⟨rfl, rfl, rfl, rfl, hp.putFrame f, hp'.putFrame f⟩
  · exact ⟨rfl, rfl, rfl, rfl, hp.putFrame f, hp'.putFrame f⟩
  · exact ⟨rfl, rfl, rfl, rfl, hp.putFrame f, hp'.putFrame f⟩
  · split
    · exact ⟨rfl, rfl, rfl, rfl, hp, hp'⟩
    · exact ⟨rfl, rfl, rfl, rfl, hp, hp'⟩
    · exact ⟨rfl, rfl, deliver_renumber _ _ _, rfl, hp.putFrames _, hp'.putFrames _⟩

theorem concludeFrame_twin (spare spare' : Buffer) (f : StoredFrame)
    (outcome : Scan FrameError Unit) (hp : pools.Keyed) (hp' : pools'.Keyed) :
    (concludeFrame pools c spare f outcome).Twin k
      (concludeFrame pools' (c.renumber k) spare' f outcome) := by
  cases outcome with
  | done u next =>
    unfold concludeFrame
    dsimp only
    split
    · exact ⟨rfl, rfl, rfl, rfl, hp, hp'⟩
    · rename_i kept rest _
      exact handleFrame_twin (c := { c with buffer := rest }) _ hp hp'
  | more => exact ⟨rfl, rfl, rfl, rfl, hp.putFrame _, hp'.putFrame _⟩
  | fail cause => exact ⟨rfl, rfl, rfl, rfl, hp.putFrame _, hp'.putFrame _⟩

/-- Whatever frame a pool hands out, the connection reads its own bytes with it. -/
theorem popFrame_twin (n : Nat) (k : SocketId) (hp : pools.Keyed) (hp' : pools'.Keyed)
    (hr : setting.config.limits.bufferSize ≤ Buffer.maxStore) :
    (popFrame setting pools c).Twin k
      (popFrame (setting.withPoolCapacity n) pools' (c.renumber k)) := by
  obtain ⟨f, frames, hg, hc, hkeyed⟩ : ∃ f frames,
      pools.frames.get setting.config.limits.frameConfig = (some f, frames) ∧ _ :=
    hp.get_frame hr
  obtain ⟨f', frames', hg', hc', hkeyed'⟩ : ∃ f' frames',
      pools'.frames.get setting.config.limits.frameConfig = (some f', frames') ∧ _ :=
    hp'.get_frame hr
  have hsame : f'.withBuffer (c.renumber k).buffer = f.withBuffer c.buffer := by
    simp only [StoredFrame.withBuffer, StoredFrame.withoutHeader, renumber, hc, hc']
  have hg' : pools'.frames.get (setting.withPoolCapacity n).config.limits.frameConfig =
      (some f', frames') := hg'
  simp only [popFrame, hg, hg', hsame]
  exact concludeFrame_twin _ _ _ _ hkeyed hkeyed'

end Frames

section Requests

theorem conclude_twin (input : Buffer) (reply : Except ConnectionError (Option (Reply × Nat)))
    (hp : pools.Keyed) (hp' : pools'.Keyed) :
    (conclude c pools input reply).Twin k (conclude (c.renumber k) pools' input reply) := by
  cases reply with
  | error cause => exact ⟨rfl, rfl, rfl, rfl, hp, hp'⟩
  | ok reply =>
    cases reply with
    | none => exact ⟨rfl, rfl, rfl, rfl, hp, hp'⟩
    | some place =>
      obtain ⟨reply, next⟩ := place
      have hn : (if reply.upgrades then [Notice.opened k c.boundDomain] else []) =
          (if reply.upgrades then [Notice.opened c.socket c.boundDomain] else []).map
            (Notice.renumber k) := by
        split <;> rfl
      unfold conclude
      dsimp only
      split
      · exact ⟨rfl, rfl, hn, rfl, hp, hp'⟩
      · exact ⟨rfl, rfl, hn, rfl, hp, hp'⟩

/-- Whatever message a pool hands out, the connection reads its own bytes with it. -/
theorem popRequest_twin (n : Nat) (k : SocketId) (hp : pools.Keyed) (hp' : pools'.Keyed)
    (hr : setting.config.limits.bufferSize ≤ Buffer.maxStore) :
    (popRequest setting pools c).Twin k
      (popRequest (setting.withPoolCapacity n) pools' (c.renumber k)) := by
  cases hs : setting.config.limits.messageConfig.hasSlots with
  | false =>
    have hg := hp.get_message_of_no_slots hs
    have hg' : pools'.messages.get (setting.withPoolCapacity n).config.limits.messageConfig =
        (none, pools'.messages) := hp'.get_message_of_no_slots hs
    simp only [popRequest, hg, hg']
    exact ⟨rfl, rfl, rfl, rfl, hp, hp'⟩
  | true =>
    obtain ⟨m, messages, hg, hc, hkeyed⟩ : ∃ m messages,
        pools.messages.get setting.config.limits.messageConfig = (some m, messages) ∧ _ :=
      hp.get_message hr hs
    obtain ⟨m', messages', hg', hc', hkeyed'⟩ : ∃ m' messages',
        pools'.messages.get setting.config.limits.messageConfig = (some m', messages') ∧ _ :=
      hp'.get_message hr hs
    have hsame : m'.withBuffer (c.renumber k).buffer = m.withBuffer c.buffer := by
      simp only [StoredMessage.withBuffer, renumber, hc, hc']
    have hg' : pools'.messages.get (setting.withPoolCapacity n).config.limits.messageConfig =
        (some m', messages') := hg'
    have hslots : ((m.withBuffer c.buffer).read.2.withBuffer m.buffer).config.hasSlots = true := by
      rw [StoredMessage.withBuffer, StoredMessage.config_read]
      exact hc ▸ hs
    have hslots' : ((m.withBuffer c.buffer).read.2.withBuffer m'.buffer).config.hasSlots = true :=
      hslots
    simp only [popRequest, hg, hg', hsame]
    exact conclude_twin _ _ (hkeyed.putMessage hslots) (hkeyed'.putMessage hslots')

end Requests

section Calls

theorem pop_twin (n : Nat) (k : SocketId) (hp : pools.Keyed) (hp' : pools'.Keyed)
    (hr : setting.config.limits.bufferSize ≤ Buffer.maxStore) :
    (pop setting pools c).Twin k
      (pop (setting.withPoolCapacity n) pools' (c.renumber k)) := by
  have hb : (c.renumber k).buffer = c.buffer := rfl
  have hprotocol : (c.renumber k).protocol = c.protocol := rfl
  unfold pop
  rw [hb, hprotocol]
  split
  · exact ⟨rfl, rfl, rfl, rfl, hp, hp'⟩
  · split
    · exact popRequest_twin n k hp hp' hr
    · exact popFrame_twin n k hp hp' hr

theorem drain_twin (n : Nat) (k : SocketId) (hp : pools.Keyed)
    (hr : setting.config.limits.bufferSize ≤ Buffer.maxStore) (pools' : Pools)
    (hp' : pools'.Keyed) :
    (drain setting pools c).Twin k
      (drain (setting.withPoolCapacity n) pools' (c.renumber k)) := by
  revert pools'
  fun_induction drain setting pools c with
  | case1 pools c cause h =>
    intro pools' hp'
    have ht : (pop setting pools c).Twin k _ := pop_twin n k hp hp' hr
    rw [drain_eq]
    dsimp only
    rw [ht.outcome.trans h]
    exact ht.withOutcome _
  | case2 pools c h =>
    intro pools' hp'
    have ht : (pop setting pools c).Twin k _ := pop_twin n k hp hp' hr
    rw [drain_eq]
    dsimp only
    rw [ht.outcome.trans h]
    exact ht.withOutcome _
  | case3 pools c h =>
    intro pools' hp'
    have ht : (pop setting pools c).Twin k _ := pop_twin n k hp hp' hr
    rw [drain_eq]
    dsimp only
    rw [ht.outcome.trans h]
    exact ht.withOutcome _
  | case4 pools c h first rest ih =>
    intro pools' hp'
    have ht : first.Twin k (pop (setting.withPoolCapacity n) pools' (c.renumber k)) :=
      pop_twin n k hp hp' hr
    have hl := ih ht.keyed _ ht.keyed'
    rw [drain_eq (setting.withPoolCapacity n)]
    dsimp only
    rw [ht.outcome.trans h]
    dsimp only
    rw [ht.connection]
    refine ⟨hl.connection, ?_, ?_, hl.outcome, hl.keyed, hl.keyed'⟩
    · exact congrArg₂ (· ++ ·) ht.output hl.output
    · exact (congrArg₂ (· ++ ·) ht.notices hl.notices).trans List.map_append.symm

theorem checkSize_twin {t t' : Turn Flow} (limit : Nat) (h : t.Twin k t') :
    (checkSize limit t).Twin k (checkSize limit t') := by
  have hprotocol : t'.connection.protocol = t.connection.protocol := by
    rw [h.connection]
    rfl
  have hpending : t'.connection.pending = t.connection.pending := by
    rw [h.connection]
    rfl
  unfold checkSize
  rw [h.outcome, hprotocol, hpending]
  split
  · split
    · exact h.withOutcome _
    · exact h
  · exact h

theorem bind_renumber (c : Connection) (k : SocketId) (domain : String) :
    (c.renumber k).bind domain = (c.bind domain).map (renumber k) := by
  have hd : (c.renumber k).domain = c.domain := rfl
  unfold bind
  rw [hd]
  split
  · rfl
  · split <;> rfl

/-- A call comes to the same whatever the pools hold and whatever number its socket has. -/
theorem io_twin (n : Nat) (k : SocketId) (domain : String) (data : Bytes) (hp : pools.Keyed)
    (hp' : pools'.Keyed) (hr : setting.config.limits.bufferSize ≤ Buffer.maxStore) :
    (io setting pools c domain data).Twin k
      (io (setting.withPoolCapacity n) pools' (c.renumber k) domain data) := by
  unfold io
  rw [bind_renumber]
  cases c.bind domain with
  | error cause => exact ⟨rfl, rfl, rfl, rfl, hp, hp'⟩
  | ok bound =>
    have hb : (bound.renumber k).buffer = bound.buffer := rfl
    simp only [Except.map, hb]
    cases bound.buffer.push data with
    | error cause => exact ⟨rfl, rfl, rfl, rfl, hp, hp'⟩
    | ok buffer =>
      exact checkSize_twin _ (drain_twin (c := { bound with buffer }) n k hp hr pools' hp')

end Calls

end Connection

end OriginServer
