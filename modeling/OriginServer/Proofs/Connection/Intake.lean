import OriginServer.Proofs.Connection.Bounds
import OriginServer.Proofs.WebSocket.FrameArrival

namespace OriginServer

open OriginServer.Http OriginServer.WebSocket

/-- The place where the input goes on behind what is complete. -/
def Scan.stop? {ε α : Type} : Scan ε α → Option Nat
  | .done _ next => some next.pos
  | _ => none

/-- The place where the request or frame at the front of the input ends, once it is complete. -/
def Protocol.stop? (limits : ServerLimits) : Protocol → Bytes → Option Nat
  | .http, input => (readMessage limits.messageConfig.limits input).2.stop?
  | .webSocket, input => (readFrame limits.frameConfig.maxFrameSize input).stop?

/-- A request or frame, as it came. -/
structure Portion where
  protocol : Protocol
  bytes : Bytes

/-- The bytes are one whole request or frame. Those of a request are at least 16, and those of a
frame at least 2. -/
structure Portion.Whole (p : Portion) (limits : ServerLimits) : Prop where
  complete : p.protocol.stop? limits p.bytes = some p.bytes.length
  request : p.protocol = .http → 16 ≤ p.bytes.length
  frame : p.protocol = .webSocket → 2 ≤ p.bytes.length

section Portions

variable {limits : ServerLimits} {protocol : Protocol} {input : Bytes} {n : Nat}

theorem Scan.stop?_eq_some {ε α : Type} {r : Scan ε α} (h : r.stop? = some n) :
    ∃ a next, r = .done a next ∧ next.pos = n := by
  cases r with
  | done a next => exact ⟨a, next, rfl, Option.some.inj h⟩
  | more => cases h
  | fail cause => cases h

/-- What is complete lies in the input, and is one whole request or frame without the rest. -/
theorem Protocol.stop?_spec (h : protocol.stop? limits input = some n) :
    n ≤ input.length ∧ Portion.Whole ⟨protocol, input.take n⟩ limits := by
  cases protocol with
  | http =>
    obtain ⟨a, next, hr, rfl⟩ := Scan.stop?_eq_some h
    have hread : readMessage limits.messageConfig.limits input = (_, .done a next) :=
      Prod.ext rfl hr
    obtain ⟨taken, hinput, hpos, halone⟩ := readMessage_closed hread
    have hle : next.pos ≤ input.length := readMessage_pos_le hread
    have htake : input.take next.pos = taken := by
      rw [hinput, hpos, List.take_left]
    have hleast : 16 ≤ taken.length := hpos ▸ readMessage_least hread
    -- What is read does not depend on what stands behind it, so nothing may.
    have hown := halone []
    rw [List.append_nil] at hown
    rw [htake]
    refine ⟨hle, ?_, fun _ => hleast, nofun⟩
    simp only [stop?, hown, Scan.stop?, hpos]
  | webSocket =>
    obtain ⟨header, next, hr, rfl⟩ := Scan.stop?_eq_some h
    obtain ⟨-, hle, -⟩ := readFrame_places hr
    have hlength : (input.take next.pos).length = next.pos := List.length_take_of_le hle
    have hown : readFrame limits.frameConfig.maxFrameSize (input.take next.pos) = _ :=
      (sealed_frame _).closed.take hr
    refine ⟨hle, ?_, nofun, fun _ => hlength.symm ▸ readFrame_least hr⟩
    simp only [stop?, hown, Scan.stop?, hlength]

end Portions

namespace Stream

variable {setting : Setting} {s s' : Stream}

/-- What is taken is the request or frame at the front, and exactly that. -/
theorem pop_next (h : (pop setting s).result = .next s') :
    ∃ n, s.protocol.stop? setting.config.limits s.waiting = some n ∧
      s'.waiting = s.waiting.drop n := by
  unfold pop popFrame at h
  split at h
  · rename_i hp
    rw [popRequest_of_ne (by rw [h]; exact nofun)] at h
    unfold readRequest at h
    split at h
    · cases h
    · cases h
    · rename_i parts next hr
      split at h
      · cases h
      · cases h
        refine ⟨next.pos, ?_, readMessage_rest hr⟩
        simp only [hp, Protocol.stop?, hr, Scan.stop?]
  · rename_i hp
    split at h
    · cases h
    · cases h
    · rename_i header next hr
      obtain ⟨-, -, hrest⟩ := readFrame_places hr
      refine ⟨next.pos, ?_, (handleFrame_next h).trans hrest⟩
      simp only [hp, Protocol.stop?, hr, Scan.stop?]

/-- Nothing complete is left waiting. -/
theorem pop_wait (h : (pop setting s).result = .wait) :
    s.protocol.stop? setting.config.limits s.waiting = none := by
  unfold pop at h
  split at h
  · rename_i hp
    simp only [hp, Protocol.stop?, more_of_popRequest h, Scan.stop?]
  · rename_i hp
    have hmore : readFrame setting.config.limits.frameConfig.maxFrameSize s.waiting = .more :=
      more_of_popFrame h
    simp only [hp, Protocol.stop?, hmore, Scan.stop?]

end Stream

namespace Connection

variable {setting : Setting} {config : Config} {pools : Pools} {c : Connection}

/-- The request or frame at the front of what waits, if it is complete. -/
def front? (limits : ServerLimits) (c : Connection) : Option Portion :=
  (c.protocol.stop? limits c.buffer.content).map fun n => ⟨c.protocol, c.buffer.content.take n⟩

theorem front?_whole {limits : ServerLimits} {p : Portion} (h : c.front? limits = some p) :
    p.Whole limits := by
  obtain ⟨n, hn, rfl⟩ := Option.map_eq_some_iff.1 h
  exact (Protocol.stop?_spec hn).2

/-- An attempt that goes on takes what is at the front. -/
theorem pop_next (hb : c.buffer.Sound) (hp : pools.Keyed)
    (hr : setting.config.limits.bufferSize ≤ Buffer.maxStore)
    (h : (pop setting pools c).outcome = .ok .next) :
    ∃ p, c.front? setting.config.limits = some p ∧
      c.buffer.content = p.bytes ++ (pop setting pools c).connection.buffer.content := by
  have hf : (pop setting pools c).Follows c _ := pop_follows hb hp hr
  have hresult : (Stream.pop setting c.stream).result =
      .next (pop setting pools c).connection.stream := by
    rw [← hf.advance]
    simp only [Turn.advance, h]
  obtain ⟨n, hn, hrest⟩ := Stream.pop_next hresult
  have hrest' : (pop setting pools c).connection.buffer.content = c.buffer.content.drop n := hrest
  refine ⟨⟨c.protocol, c.buffer.content.take n⟩, ?_, ?_⟩
  · have hn' : c.protocol.stop? setting.config.limits c.buffer.content = some n := hn
    rw [front?, hn']
    rfl
  · rw [hrest', List.take_append_drop]

/-- An attempt that has to wait changes nothing, and there is nothing complete to take. -/
theorem pop_wait (hb : c.buffer.Sound) (hp : pools.Keyed)
    (hr : setting.config.limits.bufferSize ≤ Buffer.maxStore)
    (h : (pop setting pools c).outcome = .ok .wait) :
    c.front? setting.config.limits = none ∧
      (pop setting pools c).connection.buffer.content = c.buffer.content := by
  have hf : (pop setting pools c).Follows c _ := pop_follows hb hp hr
  have hresult : (Stream.pop setting c.stream).result = .wait := by
    rw [← hf.advance]
    simp only [Turn.advance, h]
  have hn : c.protocol.stop? setting.config.limits c.buffer.content = none :=
    Stream.pop_wait hresult
  refine ⟨?_, congrArg Stream.waiting (hf.wait h)⟩
  rw [front?, hn]
  rfl

end Connection

/-- An attempt to take a request or frame, and how the connection stood before it. -/
structure Round where
  before : Connection
  turn : Turn Step

/-- A turn is made of attempts: each but the last goes on, the turn gives out what they give out,
and it leads where the last of them does. -/
structure Turn.MadeOf (t : Turn Flow) (front : List Round) (last : Round) : Prop where
  goesOn : ∀ r ∈ front, r.turn.outcome = .ok .next
  stops : last.turn.outcome ≠ .ok .next
  connection : t.connection = last.turn.connection
  output : t.output = (front ++ [last]).flatMap (·.turn.output)

namespace Connection

section Rounds

variable {setting : Setting} {pools : Pools} {c : Connection}

/-- The attempts of a call, each from where the one before it has led, as long as they go on. -/
def rounds (setting : Setting) (pools : Pools) (c : Connection) : List Round :=
  match _h : (pop setting pools c).outcome with
  | .ok .next =>
    ⟨c, pop setting pools c⟩ ::
      rounds setting (pop setting pools c).pools (pop setting pools c).connection
  | _ => [⟨c, pop setting pools c⟩]
  termination_by c.buffer.length
  decreasing_by exact length_pop _h

theorem rounds_of_next (h : (pop setting pools c).outcome = .ok .next) :
    rounds setting pools c =
      ⟨c, pop setting pools c⟩ ::
        rounds setting (pop setting pools c).pools (pop setting pools c).connection := by
  rw [rounds]
  split
  · rfl
  · rename_i hn
    exact absurd h hn

theorem rounds_of_last (h : (pop setting pools c).outcome ≠ .ok .next) :
    rounds setting pools c = [⟨c, pop setting pools c⟩] := by
  rw [rounds]
  split
  · rename_i hn
    exact absurd hn h
  · rfl

/-- A call comes to what its first attempt does, unless that goes on. -/
theorem drain_of_last (h : (pop setting pools c).outcome ≠ .ok .next) :
    ∃ outcome, drain setting pools c = { pop setting pools c with outcome } := by
  rw [drain_eq]
  dsimp only
  split
  · exact ⟨_, rfl⟩
  · exact ⟨_, rfl⟩
  · exact ⟨_, rfl⟩
  · rename_i hn
    exact absurd hn h

/-- Where the first attempt goes on, the others come behind it. -/
theorem drain_of_next (h : (pop setting pools c).outcome = .ok .next) :
    drain setting pools c =
      let rest := drain setting (pop setting pools c).pools (pop setting pools c).connection
      { rest with
        output := (pop setting pools c).output ++ rest.output
        notices := (pop setting pools c).notices ++ rest.notices } := by
  rw [drain_eq]
  dsimp only
  rw [h]

/-- Taking what there is consists of the attempts. -/
theorem drain_rounds (setting : Setting) (pools : Pools) (c : Connection) :
    ∃ front last, rounds setting pools c = front ++ [last] ∧
      (drain setting pools c).MadeOf front last := by
  fun_induction rounds setting pools c with
  | case1 pools c h ih =>
    obtain ⟨front, last, hrounds, hlater⟩ := ih
    refine ⟨⟨c, pop setting pools c⟩ :: front, last, ?_, ?_⟩
    · rw [hrounds, List.cons_append]
    · rw [drain_of_next h]
      refine ⟨List.forall_mem_cons.2 ⟨h, hlater.goesOn⟩, hlater.stops, hlater.connection, ?_⟩
      rw [List.cons_append, List.flatMap_cons, ← hlater.output]
  | case2 pools c h =>
    obtain ⟨outcome, hdrain⟩ := drain_of_last h
    refine ⟨[], ⟨c, pop setting pools c⟩, rfl, ?_⟩
    rw [hdrain]
    exact ⟨List.forall_mem_nil _, h, rfl, (List.flatMap_singleton _ _).symm⟩

/-- No call has more attempts than there are bytes, and one. -/
theorem rounds_length (setting : Setting) (pools : Pools) (c : Connection) :
    (rounds setting pools c).length ≤ c.pending + 1 := by
  fun_induction rounds setting pools c with
  | case1 pools c h ih =>
    have hless : (pop setting pools c).connection.pending < c.pending := length_pop h
    rw [List.length_cons]
    omega
  | case2 pools c h => exact Nat.le_add_left 1 _

/-- The requests and frames that attempts have found complete, in order. -/
def portions (limits : ServerLimits) (rounds : List Round) : List Portion :=
  rounds.filterMap fun r => r.before.front? limits

theorem portions_whole {limits : ServerLimits} {rounds : List Round} {p : Portion}
    (h : p ∈ portions limits rounds) : p.Whole limits := by
  obtain ⟨r, -, hr⟩ := List.mem_filterMap.1 h
  exact front?_whole hr

/-- Where a call goes on, what waited is what was taken, and what waits. -/
theorem drain_portions (hb : c.buffer.Sound) (hp : pools.Keyed)
    (hr : setting.config.limits.bufferSize ≤ Buffer.maxStore)
    (hg : (drain setting pools c).outcome = .ok .goOn) :
    c.buffer.content =
      (portions setting.config.limits (rounds setting pools c)).flatMap (·.bytes) ++
        (drain setting pools c).connection.buffer.content := by
  -- Each attempt that goes on takes what is at the front, and the last finds nothing there.
  fun_induction drain setting pools c with
  | case1 pools c cause h => cases hg
  | case2 pools c h =>
    obtain ⟨hfront, hsame⟩ := pop_wait hb hp hr h
    have hlast : (pop setting pools c).outcome ≠ .ok .next := by
      intro hn
      rw [h] at hn
      cases hn
    have hnone : portions setting.config.limits (rounds setting pools c) = [] := by
      rw [portions, rounds_of_last hlast]
      simp only [List.filterMap_cons, hfront, List.filterMap_nil]
    rw [hnone]
    exact hsame.symm
  | case3 pools c h => cases hg
  | case4 pools c h first rest ih =>
    have hkeeps : first.Keeps c := (pop_follows hb hp hr).keeps
    obtain ⟨p, hfront, hsplit⟩ := pop_next hb hp hr h
    have hlater := ih hkeeps.buffer hkeeps.pools hg
    have hcons : portions setting.config.limits (rounds setting pools c) =
        p :: portions setting.config.limits (rounds setting first.pools first.connection) := by
      rw [portions, rounds_of_next h]
      simp only [List.filterMap_cons, hfront]
      rfl
    rw [hcons, List.flatMap_cons, List.append_assoc, hsplit]
    exact congrArg (p.bytes ++ ·) hlater

end Rounds

end Connection

namespace Call

open Connection

variable (a : Call) (config : Config) (c : Connection)

/-- The attempts of a call. There are none where the call is refused or lacks room. -/
def rounds : List Round :=
  match c.bind a.domain with
  | .error _ => []
  | .ok bound =>
    match bound.buffer.push a.data with
    | .error _ => []
    | .ok buffer => Connection.rounds (a.setting config) a.pools { bound with buffer }

/-- A call fails before its first attempt, or makes attempts on all that waits and came. -/
theorem turn_cases :
    (a.rounds config c = [] ∧ ∃ cause, (a.turn config c).outcome = .error cause) ∨
    ∃ name buffer, c.buffer.push a.data = .ok buffer ∧
      a.rounds config c =
        Connection.rounds (a.setting config) a.pools { c with domain := some name, buffer } ∧
      a.turn config c =
        checkSize config.limits.maxRequestSize
          (drain (a.setting config) a.pools { c with domain := some name, buffer }) := by
  unfold rounds turn
  obtain ⟨cause, hbind, hio⟩ | ⟨bound, hbind, hcases⟩ :=
    io_cases (a.setting config) a.pools c a.domain a.data
  · left
    rw [hio, hbind]
    exact ⟨rfl, cause, rfl⟩
  · obtain ⟨cause, hpush, hio⟩ | ⟨buffer, hpush, hio⟩ := hcases
    · left
      rw [hio, hbind]
      dsimp only
      rw [hpush]
      exact ⟨rfl, _, rfl⟩
    · right
      obtain ⟨-, name, rfl⟩ := bind_complete hbind
      refine ⟨name, buffer, hpush, ?_, hio⟩
      rw [hbind]
      dsimp only at hpush ⊢
      rw [hpush]

/-- A call has no more attempts than there are bytes, and one. -/
theorem rounds_length : (a.rounds config c).length ≤ c.pending + a.data.length + 1 := by
  obtain ⟨hnone, -⟩ | ⟨name, buffer, hpush, hrounds, -⟩ := a.turn_cases config c
  · rw [hnone]
    exact Nat.zero_le _
  · have hlength : buffer.length = c.buffer.length + a.data.length := Buffer.length_push hpush
    rw [hrounds, pending, ← hlength]
    exact Connection.rounds_length _ _ _

/-- A call fails before its first attempt, or is made of its attempts. -/
theorem turn_rounds :
    (a.rounds config c = [] ∧ ∃ cause, (a.turn config c).outcome = .error cause) ∨
    ∃ front last, a.rounds config c = front ++ [last] ∧ (a.turn config c).MadeOf front last := by
  obtain hnone | ⟨name, buffer, -, hrounds, hturn⟩ := a.turn_cases config c
  · exact .inl hnone
  · obtain ⟨front, last, hall, hmade⟩ := drain_rounds (a.setting config) a.pools
      { c with domain := some name, buffer }
    refine .inr ⟨front, last, hrounds.trans hall, hmade.goesOn, hmade.stops, ?_, ?_⟩
    · rw [hturn, connection_checkSize]
      exact hmade.connection
    · rw [hturn, output_checkSize]
      exact hmade.output

/-- The requests and frames that a call takes off. -/
def portions : List Portion := Connection.portions config.limits (a.rounds config c)

variable {a config c}

/-- Where a call goes on, what waited and what came is what was taken, and what waits. -/
theorem turn_portions (hb : c.buffer.Sound) (hr : config.limits.bufferSize ≤ Buffer.maxStore)
    (hg : (a.turn config c).outcome = .ok .goOn) :
    c.buffer.content ++ a.data =
      (a.portions config c).flatMap (·.bytes) ++ (a.turn config c).connection.buffer.content := by
  obtain ⟨-, cause, herror⟩ | ⟨name, buffer, hpush, hrounds, hturn⟩ := a.turn_cases config c
  · rw [herror] at hg
    cases hg
  · obtain ⟨hsound, hcontent⟩ := hb.push hpush
    rw [hturn] at hg
    obtain ⟨hdrain, -⟩ := checkSize_goOn hg
    have hall := drain_portions (c := { c with domain := some name, buffer }) hsound a.keyed hr
      hdrain
    rw [portions, hrounds, hturn, connection_checkSize, ← hcontent]
    exact hall

end Call

namespace Connection

variable {config : Config} {c : Connection} {socket : SocketId}

/-- The requests and frames that calls take off, one after the other. -/
def intake (config : Config) (c : Connection) : List Call → List Portion
  | [] => []
  | a :: later => a.portions config c ++ intake config (a.turn config c).connection later

theorem intake_whole {calls : List Call} :
    ∀ p ∈ intake config c calls, p.Whole config.limits := by
  induction calls generalizing c with
  | nil => exact List.forall_mem_nil _
  | cons a later ih =>
    intro p hp
    obtain hp | hp := List.mem_append.1 hp
    · exact portions_whole hp
    · exact ih p hp

/-- Along calls after which a connection goes on, nothing is lost and nothing is added. -/
theorem intake_content {calls : List Call} (hb : c.buffer.Sound)
    (hr : config.limits.bufferSize ≤ Buffer.maxStore)
    (hg : ∀ t ∈ turns config c calls, t.outcome = .ok .goOn) :
    c.buffer.content ++ calls.flatMap (·.data) =
      (intake config c calls).flatMap (·.bytes) ++ (after config c calls).buffer.content := by
  induction calls generalizing c with
  | nil => exact List.append_nil _
  | cons a later ih =>
    obtain ⟨ha, hlater⟩ := List.forall_mem_cons.1 hg
    have hfirst := a.turn_portions hb hr ha
    have hsound : (a.turn config c).connection.buffer.Sound := io_sound hb a.keyed hr
    have hrest := ih hsound hlater
    calc c.buffer.content ++ (a :: later).flatMap (·.data)
      _ = c.buffer.content ++ a.data ++ later.flatMap (·.data) := by
        rw [List.flatMap_cons, List.append_assoc]
      _ = (a.portions config c).flatMap (·.bytes) ++
          ((a.turn config c).connection.buffer.content ++ later.flatMap (·.data)) := by
        rw [hfirst, List.append_assoc]
      _ = (intake config c (a :: later)).flatMap (·.bytes) ++
          (after config c (a :: later)).buffer.content := by
        rw [hrest, intake, List.flatMap_append, List.append_assoc]
        rfl

/-- As long as a connection goes on, all bytes that came are those of the requests and frames that
were taken off, in order and as they came, and behind them the bytes that wait. Each of these is
whole without the others, and not empty: a request has at least 16 bytes and a frame at least 2. A
call, whatever it comes to and on whatever connection, has no more attempts than there are bytes,
and one. -/
theorem intake_conserved {calls : List Call} (hc : create config.limits socket = .ok c)
    (hg : ∀ t ∈ turns config c calls, t.outcome = .ok .goOn) :
    calls.flatMap (·.data) =
      (intake config c calls).flatMap (·.bytes) ++ (after config c calls).buffer.content ∧
    (∀ p ∈ intake config c calls, p.Whole config.limits) ∧
    ∀ (a : Call) (other : Connection),
      ((a.rounds config other = [] ∧ ∃ cause, (a.turn config other).outcome = .error cause) ∨
        ∃ front last, a.rounds config other = front ++ [last] ∧
          (a.turn config other).MadeOf front last) ∧
      (a.rounds config other).length ≤ other.pending + a.data.length + 1 := by
  obtain ⟨-, hsound, hempty, hr⟩ := create_fresh hc
  refine ⟨?_, intake_whole, fun a other => ⟨?_, ?_⟩⟩
  · have hall := intake_content hsound hr hg
    rw [hempty, List.nil_append] at hall
    exact hall
  · exact a.turn_rounds config other
  · exact a.rounds_length config other

/-- A request that makes a new connection a WebSocket is taken off as it came. -/
theorem intake_conserved_upgrade :
    ∃ (config : Config) (c : Connection) (a : Call), create config.limits ⟨1⟩ = .ok c ∧
      (∀ t ∈ turns config c [a], t.outcome = .ok .goOn) ∧
      (after config c [a]).protocol = .webSocket ∧
      a.data = (intake config c [a]).flatMap (·.bytes) ∧
      ∀ p ∈ intake config c [a], p.Whole config.limits := by
  obtain ⟨setting, c, request, t, -, hc, hturn, hgo, hconn⟩ := io_upgrade
  let a : Call := ⟨.empty 32, setting.files, "localhost", request, Pools.keyed_empty 32⟩
  have hturn' : a.turn setting.config c = t := hturn
  have hg : ∀ t ∈ turns setting.config c [a], t.outcome = .ok .goOn :=
    List.forall_mem_singleton.2 (hturn' ▸ hgo)
  have hafter : after setting.config c [a] = t.connection := congrArg Turn.connection hturn'
  obtain ⟨hall, hwhole, -⟩ := intake_conserved hc hg
  refine ⟨setting.config, c, a, hc, hg, ?_, ?_, hwhole⟩
  · rw [hafter, hconn]
  · have hwaits : (after setting.config c [a]).buffer.content = [] := by
      rw [hafter, hconn]
      rfl
    rw [hwaits, List.append_nil, List.flatMap_singleton] at hall
    exact hall

end Connection

end OriginServer
