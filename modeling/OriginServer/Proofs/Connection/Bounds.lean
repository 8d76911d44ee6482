import Mathlib.Algebra.GroupWithZero.Nat
import OriginServer.Proofs.Connection.Calls

namespace OriginServer

open OriginServer.Http OriginServer.WebSocket

section Messages

variable {limit : Nat}

/-- The payload of an open message is counted, and the limit holds for it. -/
structure OpenMessage.Fits (m : OpenMessage) (limit : Nat) : Prop where
  maxSize : m.maxSize = limit
  size : m.payload.length = m.size
  le : m.size ≤ limit

theorem OpenMessage.Fits.push {m m' : OpenMessage} {found : Fragmentation} {payload : Bytes}
    {whole : Option Bytes} (h : m.Fits limit) (hp : m.push found payload = .ok (whole, m')) :
    m'.Fits limit := by
  unfold OpenMessage.push at hp
  dsimp only at hp
  split at hp
  · cases hp
  · split at hp
    · cases hp
    · rename_i hsize
      rw [h.maxSize] at hsize
      split at hp
      · cases hp
        refine ⟨h.maxSize, ?_, Nat.not_lt.1 hsize⟩
        rw [List.length_append, h.size]
      · cases hp
        exact ⟨h.maxSize, rfl, Nat.zero_le _⟩

namespace Stream

variable {setting : Setting} {s s' : Stream}

theorem handleFrame_fits {header : FrameHeader} {payload : Bytes} (h : s.message.Fits limit)
    (hr : (handleFrame s header payload).result = .next s') : s'.message.Fits limit := by
  unfold handleFrame at hr
  split at hr
  · cases hr
    exact h
  · cases hr
    exact h
  · cases hr
  · split at hr
    · cases hr
    · rename_i hpush
      cases hr
      exact h.push hpush
    · rename_i hpush
      cases hr
      exact h.push hpush

/-- No request touches the open message, and a frame adds to it only what fits. -/
theorem pop_fits (h : s.message.Fits limit) (hr : (pop setting s).result = .next s') :
    s'.message.Fits limit := by
  unfold pop popFrame at hr
  split at hr
  · rw [popRequest_of_ne (by rw [hr]; exact nofun)] at hr
    unfold readRequest at hr
    split at hr
    · cases hr
    · cases hr
    · split at hr
      · cases hr
      · cases hr
        exact h
  · split at hr
    · cases hr
    · cases hr
    · rename_i header next _
      exact handleFrame_fits (s := { s with waiting := next.rest }) h hr

/-- A connection waits in HTTP while its request is incomplete. -/
theorem more_of_popRequest (h : (popRequest setting s).result = .wait) :
    (readMessage setting.config.limits.messageConfig.limits s.waiting).2 = .more := by
  rw [popRequest_of_ne (by rw [h]; exact nofun)] at h
  unfold readRequest at h
  split at h
  · rename_i hr
    rw [hr]
  · cases h
  · split at h <;> cases h

/-- A WebSocket waits while its frame is incomplete. -/
theorem more_of_popFrame (h : (popFrame setting s).result = .wait) :
    readFrame setting.config.limits.maxFrameSize s.waiting = .more := by
  have answered (s : Stream) (header : FrameHeader) (payload : Bytes) :
      (handleFrame s header payload).result ≠ .wait := by
    unfold handleFrame
    split
    · exact nofun
    · exact nofun
    · exact nofun
    · split <;> exact nofun
  unfold popFrame at h
  split at h
  · assumption
  · cases h
  · exact absurd h (answered _ _ _)

end Stream

end Messages

namespace Connection

variable {config : Config} {c : Connection} {socket : SocketId} {calls : List Call}

/-- How a connection stands that goes on: what waits cannot be taken yet. -/
structure Settled (config : Config) (c : Connection) : Prop where
  buffer : c.buffer.Sound
  short : c.protocol = .http → c.pending ≤ config.limits.maxRequestSize
  request : c.protocol = .http →
    (readMessage config.limits.messageConfig.limits c.buffer.content).2 = .more
  frame : c.protocol = .webSocket → readFrame config.limits.maxFrameSize c.buffer.content = .more
  message : c.reassembly.message.Fits config.limits.maxMessageSize

theorem create_settled (hc : create config.limits socket = .ok c) : c.Settled config := by
  obtain ⟨-, hsound, hempty, -⟩ := create_fresh hc
  have hpending : c.pending = 0 := by
    rw [pending, ← hsound.length_content, hempty]
    rfl
  refine ⟨hsound, fun _ => hpending ▸ Nat.zero_le _, fun _ => ?_, fun _ => ?_, ?_⟩
  · rw [hempty]
    rfl
  · rw [hempty]
    rfl
  · obtain ⟨b, -, he⟩ := bind_eq_ok.1 hc
    cases he
    exact ⟨rfl, rfl, Nat.zero_le _⟩

/-- Where taking requests and frames comes to an end without a failure, the connection is settled
up to the length of what waits. -/
theorem drain_settled {setting : Setting} {pools : Pools}
    (hr : setting.config.limits.bufferSize ≤ Buffer.maxStore) (hb : c.buffer.Sound)
    (hp : pools.Keyed) (hm : c.reassembly.message.Fits setting.config.limits.maxMessageSize)
    (hg : (drain setting pools c).outcome = .ok .goOn)
    (hs : (drain setting pools c).connection.protocol = .http →
      (drain setting pools c).connection.pending ≤ setting.config.limits.maxRequestSize) :
    (drain setting pools c).connection.Settled setting.config := by
  obtain ⟨hverdict, hkeeps⟩ := drain_follows hb hp hr
  generalize drain setting pools c = t at hg hs hverdict hkeeps ⊢
  have hresult : (Stream.drain setting c.stream).result = .goOn t.connection.stream := by
    rw [← hverdict]
    simp only [Turn.verdict, hg]
  obtain ⟨hmessage, hidle⟩ := Stream.drain_invariant
    (P := fun s => s.message.Fits setting.config.limits.maxMessageSize)
    (fun _ _ => Stream.pop_fits) hm hresult
  refine ⟨hkeeps.buffer, hs, fun hp => ?_, fun hp => ?_, hmessage⟩
  all_goals
    have hprotocol : t.connection.stream.protocol = _ := hp
    rw [Stream.pop, hprotocol] at hidle
  · exact Stream.more_of_popRequest hidle
  · exact Stream.more_of_popFrame hidle

/-- A call after which a connection goes on leaves it settled. -/
theorem turn_settled (a : Call) (hr : config.limits.bufferSize ≤ Buffer.maxStore)
    (h : c.Settled config) (hg : (a.turn config c).outcome = .ok .goOn) :
    (a.turn config c).connection.Settled config := by
  unfold Call.turn at hg ⊢
  obtain ⟨cause, -, hio⟩ | ⟨bound, hbind, hcases⟩ :=
    io_cases (a.setting config) a.pools c a.domain a.data
  · rw [hio] at hg
    cases hg
  · obtain ⟨-, name, rfl⟩ := bind_complete hbind
    obtain ⟨cause, -, hio⟩ | ⟨buffer, hpush, hio⟩ := hcases
    · rw [hio] at hg
      cases hg
    · rw [hio] at hg
      rw [hio, connection_checkSize]
      obtain ⟨hdrain, hshort⟩ := checkSize_goOn hg
      have hsound : buffer.Sound := (Buffer.Sound.push h.buffer hpush).1
      exact drain_settled (c := { c with domain := some name, buffer }) hr hsound a.keyed h.message
        hdrain hshort

/-- What the frames of an open message carry. -/
theorem Settled.frames_le (h : c.Settled config) :
    (c.reassembly.frames.map fun f => f.content.length).sum ≤ config.limits.maxMessageSize := by
  obtain ⟨-, hsize, hle⟩ := h.message
  have hsum : c.reassembly.message.payload.length =
      (c.reassembly.frames.map fun f => f.content.length).sum := List.length_flatMap
  omega

/-- A connection that has gone on so far holds a bounded amount: in HTTP an incomplete request of
limited size, as a WebSocket an incomplete frame that is no longer than a header and the largest
payload, and in either protocol no more payload of an open message than a message may have. -/
theorem pending_bounded (hc : create config.limits socket = .ok c)
    (hg : ∀ t ∈ turns config c calls, t.outcome = .ok .goOn) :
    ((after config c calls).protocol = .http →
      (after config c calls).pending ≤ config.limits.maxRequestSize ∧
        (readMessage config.limits.messageConfig.limits
          (after config c calls).buffer.content).2 = .more) ∧
    ((after config c calls).protocol = .webSocket →
      (after config c calls).pending ≤ config.limits.maxFrameSize + 13 ∧
        readFrame config.limits.maxFrameSize (after config c calls).buffer.content = .more) ∧
    ((after config c calls).reassembly.frames.map fun f => f.content.length).sum ≤
      config.limits.maxMessageSize := by
  obtain ⟨-, -, -, hr⟩ := create_fresh hc
  have hsettled : (after config c calls).Settled config :=
    after_invariant (fun c a => turn_settled a hr) (create_settled hc) hg
  generalize after config c calls = last at hsettled ⊢
  refine ⟨fun hp => ⟨hsettled.short hp, hsettled.request hp⟩, fun hp => ?_, hsettled.frames_le⟩
  have hmore := hsettled.frame hp
  have hlen := length_of_readFrame_more hmore
  rw [hsettled.buffer.length_content] at hlen
  exact ⟨hlen, hmore⟩

/-- The first bytes of a frame behind an upgrade. -/
theorem pending_bounded_frame :
    ∃ (config : Config) (c : Connection) (calls : List Call),
      create config.limits ⟨1⟩ = .ok c ∧ calls.length = 2 ∧
      (∀ t ∈ turns config c calls, t.outcome = .ok .goOn) ∧
      (after config c calls).protocol = .webSocket ∧ (after config c calls).pending = 2 ∧
      readFrame config.limits.maxFrameSize (after config c calls).buffer.content = .more := by
  obtain ⟨setting, c, request, t, hsetting, hc, hfirst, hgo, hconn⟩ := io_upgrade
  let upgrade : Call := ⟨.empty 32, setting.files, "localhost", request, Pools.keyed_empty 32⟩
  let part : Call :=
    ⟨.empty 32, setting.files, "localhost", [0x81, 0xfe], Pools.keyed_empty 32⟩
  -- The two bytes announce a length that is still missing.
  let waiting : Connection :=
    { socket := ⟨1⟩, domain := some "localhost", protocol := .webSocket, isUpgraded := true
      buffer := ⟨[0x81, 0xfe], 2, some 65536⟩, reassembly := { maxMessageSize := 67108864 } }
  have hwait : (pop setting (.empty 32) waiting).outcome = .ok .wait ∧
      (pop setting (.empty 32) waiting).connection = waiting := by
    subst hsetting
    decide +kernel
  have hfirst' : upgrade.turn setting.config c = t := hfirst
  have hsecond : part.turn setting.config t.connection =
      { pop setting (.empty 32) waiting with outcome := .ok .goOn } := by
    have hio : part.turn setting.config t.connection =
        checkSize setting.config.limits.maxRequestSize (drain setting (.empty 32) waiting) := by
      have hbind : t.connection.bind "localhost" = .ok t.connection := bind_bound (by rw [hconn])
      have hpush : t.connection.buffer.push [0x81, 0xfe] = .ok waiting.buffer := by
        rw [hconn]
        rfl
      simp only [Call.turn, Call.setting, part, io, hbind, hpush]
      rw [hconn]
    have hshort : waiting.pending ≤ setting.config.limits.maxRequestSize := by
      subst hsetting
      decide
    rw [hio, drain_of_wait hwait.1, checkSize_of_short (hwait.2.symm ▸ hshort)]
  have hafter : after setting.config c [upgrade, part] = waiting := by
    simp only [after, hfirst', hsecond, hwait.2]
  have hg : ∀ t ∈ turns setting.config c [upgrade, part], t.outcome = .ok .goOn := by
    simp only [turns, hfirst', hsecond]
    exact List.forall_mem_cons.2 ⟨hgo, List.forall_mem_singleton.2 rfl⟩
  have hws : (after setting.config c [upgrade, part]).protocol = .webSocket := hafter ▸ rfl
  have hpending : (after setting.config c [upgrade, part]).pending = 2 := hafter ▸ rfl
  exact ⟨setting.config, c, [upgrade, part], hc, rfl, hg, hws, hpending,
    ((pending_bounded hc hg).2.1 hws).2⟩

end Connection

end OriginServer
