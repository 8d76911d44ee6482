import OriginServer.Proofs.Connection.Delivery
import OriginServer.Proofs.Connection.Effect
import OriginServer.Server.Basic

namespace OriginServer

open OriginServer.Site

def Notice.socket : Notice → SocketId
  | opened socket _ => socket
  | event socket _ => socket
  | closed socket => socket

theorem Connection.socket_of_deliver {socket : SocketId} {payload : Bytes} :
    ∀ n ∈ deliver socket payload, n.socket = socket := by
  intro n hn
  unfold deliver at hn
  obtain ⟨e, -, rfl⟩ := Option.map_eq_some_iff.1 (Option.mem_toList.1 hn)
  rfl

theorem Effect.socket_of_notices {socket : SocketId} {e : Effect} :
    ∀ n ∈ e.notices socket, n.socket = socket := by
  intro n hn
  cases e with
  | switched key domain => rw [List.mem_singleton.1 hn]; rfl
  | delivered payload => exact Connection.socket_of_deliver n hn
  | bound domain => cases hn
  | answered s => cases hn
  | ponged payload => cases hn
  | closed payload => cases hn

theorem Connection.socket_of_drop {pools : Pools} {c : Connection} :
    ∀ n ∈ (c.drop pools).2, n.socket = c.socket := by
  intro n hn
  unfold drop at hn
  dsimp only at hn
  split at hn
  · rw [List.mem_singleton.1 hn]
    rfl
  · cases hn

namespace Server

/-- A call for a server, or a change of the files that it serves. Notices are not taken, so that all
of them are there to be looked at. -/
inductive Act where
  | accept (remote : SocketAddress)
  | io (socket : SocketId) (domain : String) (data : Bytes)
  | drop (socket : SocketId)
  | send (socket : SocketId) (event : Event)
  | receive (socket : SocketId)
  | dropReceiver (socket : SocketId)
  | close (socket : SocketId)
  | files (files : FileSystem)

def act (s : Server) : Act → Server
  | .accept remote => (s.accept remote).2
  | .io socket domain data => (s.io socket domain data).2
  | .drop socket => s.dropConnection socket
  | .send socket event => (s.send socket event).2
  | .receive socket => (s.receive socket).2
  | .dropReceiver socket => s.dropReceiver socket
  | .close socket => s.close socket
  | .files files => { s with setting := { s.setting with files } }

def Act.isAccept : Act → Bool
  | .accept _ => true
  | _ => false

/-- The socket whose connection is made, called or dropped. -/
def called? (s : Server) : Act → Option SocketId
  | .accept _ => some ⟨s.nextNumber⟩
  | .io socket _ _ => some socket
  | .drop socket => some socket
  | _ => none

/-- The socket whose queue is made, added to or taken from. -/
def queued? (s : Server) : Act → Option SocketId
  | .accept _ => some ⟨s.nextNumber⟩
  | .send socket _ => some socket
  | .receive socket => some socket
  | .dropReceiver socket => some socket
  | _ => none

def run (s : Server) (acts : List Act) : Server := acts.foldl act s

theorem run_cons (s : Server) (a : Act) (acts : List Act) :
    s.run (a :: acts) = (s.act a).run acts := rfl

theorem run_append (s : Server) (first later : List Act) :
    s.run (first ++ later) = (s.run first).run later :=
  List.foldl_append

section Calls

variable (s : Server) (socket : SocketId)

/-- Where a connection can be made, its socket is taken on. -/
theorem accept_of_create {c : Connection} (remote : SocketAddress)
    (h : Connection.create s.setting.config.limits ⟨s.nextNumber⟩ = .ok c) :
    s.accept remote = (.ok ⟨s.nextNumber⟩,
      { s with
        nextNumber := s.nextNumber + 1
        connections := s.connections.insert ⟨s.nextNumber⟩ c
        peers := s.peers.insert ⟨s.nextNumber⟩ { remote }
        outbound := s.outbound.insert ⟨s.nextNumber⟩ [] }) := by
  unfold accept
  dsimp only
  rw [h]

theorem accept_cases (remote : SocketAddress) :
    (∃ cause, s.accept remote = (.error cause, { s with nextNumber := s.nextNumber + 1 })) ∨
      ∃ c, Connection.create s.setting.config.limits ⟨s.nextNumber⟩ = .ok c ∧
        s.accept remote = (.ok ⟨s.nextNumber⟩,
          { s with
            nextNumber := s.nextNumber + 1
            connections := s.connections.insert ⟨s.nextNumber⟩ c
            peers := s.peers.insert ⟨s.nextNumber⟩ { remote }
            outbound := s.outbound.insert ⟨s.nextNumber⟩ [] }) := by
  cases hc : Connection.create s.setting.config.limits ⟨s.nextNumber⟩ with
  | error cause =>
    refine .inl ⟨cause, ?_⟩
    unfold accept
    dsimp only
    rw [hc]
  | ok c => exact .inr ⟨c, rfl, s.accept_of_create remote hc⟩

theorem io_cases (domain : String) (data : Bytes) :
    (s.connections.get? socket = none ∧ s.io socket domain data = (none, s)) ∨
      ∃ c, s.connections.get? socket = some c ∧
        s.io socket domain data =
          (some ⟨(c.io s.setting s.pools domain data).output,
              (c.io s.setting s.pools domain data).outcome⟩,
            s.absorb (c.io s.setting s.pools domain data)) := by
  unfold io
  cases hc : s.connections.get? socket with
  | none => exact .inl ⟨rfl, rfl⟩
  | some c => exact .inr ⟨c, rfl, rfl⟩

/-- An event is enqueued where the peer is registered and upgraded and its queue is still read. -/
theorem send_cases (event : Event) :
    (∃ cause, s.send socket event = (.error cause, s)) ∨
      ∃ p queue, s.peers.get? socket = some p ∧ p.isUpgraded = true ∧
        s.outbound.get? socket = some queue ∧
        s.send socket event = (.ok (),
          { s with
            outbound := s.outbound.insert socket
              (queue ++ [WebSocket.messageBytes .text event.write
                s.setting.config.limits.messageChunkSize]) }) := by
  unfold send
  cases hp : s.peers.get? socket with
  | none => exact .inl ⟨_, rfl⟩
  | some p =>
    dsimp only
    cases hu : p.isUpgraded with
    | false => exact .inl ⟨_, rfl⟩
    | true =>
      cases hq : s.outbound.get? socket with
      | none => exact .inl ⟨_, rfl⟩
      | some queue => exact .inr ⟨p, queue, rfl, hu, rfl, rfl⟩

theorem receive_cases :
    s.receive socket = ([], s) ∨
      ∃ queue, s.outbound.get? socket = some queue ∧
        s.receive socket = (queue, { s with outbound := s.outbound.insert socket [] }) := by
  unfold receive
  cases hq : s.outbound.get? socket with
  | none => exact .inl rfl
  | some queue => exact .inr ⟨queue, rfl, rfl⟩

theorem drop_cases :
    (s.connections.get? socket = none ∧ s.dropConnection socket = s) ∨
      ∃ c, s.connections.get? socket = some c ∧
        s.dropConnection socket =
          { s with
            pools := (c.drop s.pools).1
            connections := s.connections.erase socket
            notices := s.notices ++ (c.drop s.pools).2 } := by
  unfold dropConnection
  cases hc : s.connections.get? socket with
  | none => exact .inl ⟨rfl, rfl⟩
  | some c => exact .inr ⟨c, rfl, rfl⟩

end Calls

/-- What holds at first and is kept by every act holds in the end. -/
theorem run_keeps {P : Server → Prop} (hstep : ∀ s a, P s → P (s.act a)) {s : Server} (h : P s)
    (acts : List Act) : P (s.run acts) := by
  induction acts generalizing s with
  | nil => exact h
  | cons a acts ih => exact ih (hstep s a h)

/-- All that the application has heard about a socket. -/
def heard (s : Server) (socket : SocketId) : List Notice := s.notices.filter (·.socket = socket)

/-- Sockets have their numbers in the order in which they came. -/
structure Numbered (s : Server) : Prop where
  connection : ∀ k c, s.connections.get? k = some c → c.socket = k ∧ k.number < s.nextNumber
  peer : ∀ k p, s.peers.get? k = some p → k.number < s.nextNumber
  queue : ∀ k q, s.outbound.get? k = some q → k.number < s.nextNumber
  notice : ∀ n ∈ s.notices, n.socket.number < s.nextNumber

theorem numbered_start (setting : Setting) : (start setting).Numbered :=
  ⟨nofun, nofun, nofun, nofun⟩

variable {s : Server}

theorem Numbered.accept (h : s.Numbered) (remote : SocketAddress) :
    (s.accept remote).2.Numbered := by
  have hlt : ∀ {n : Nat}, n < s.nextNumber → n < s.nextNumber + 1 := fun hn => Nat.lt_succ_of_lt hn
  have hnotice : ∀ n ∈ s.notices, n.socket.number < s.nextNumber + 1 :=
    fun n hn => hlt (h.notice n hn)
  obtain ⟨cause, ha⟩ | ⟨c, hc, ha⟩ := s.accept_cases remote
  · rw [ha]
    exact ⟨fun k c hk => ⟨(h.connection k c hk).1, hlt (h.connection k c hk).2⟩,
      fun k p hk => hlt (h.peer k p hk), fun k q hk => hlt (h.queue k q hk), hnotice⟩
  · rw [ha]
    refine ⟨fun k c' hk => ?_, fun k p hk => ?_, fun k q hk => ?_, hnotice⟩
    · obtain ⟨rfl, rfl⟩ | ⟨-, hk⟩ := Table.of_get?_insert hk
      · exact ⟨congrArg Face.socket (Connection.face_of_create hc), Nat.lt_succ_self _⟩
      · exact ⟨(h.connection k c' hk).1, hlt (h.connection k c' hk).2⟩
    · obtain ⟨rfl, -⟩ | ⟨-, hk⟩ := Table.of_get?_insert hk
      · exact Nat.lt_succ_self _
      · exact hlt (h.peer k p hk)
    · obtain ⟨rfl, -⟩ | ⟨-, hk⟩ := Table.of_get?_insert hk
      · exact Nat.lt_succ_self _
      · exact hlt (h.queue k q hk)

theorem Numbered.absorb {α : Type} {t : Turn α} (h : s.Numbered)
    (ht : t.connection.socket.number < s.nextNumber)
    (hn : ∀ n ∈ t.notices, n.socket = t.connection.socket) : (s.absorb t).Numbered := by
  refine ⟨fun k c hk => ?_, fun k p hk => ?_, h.queue, fun n hm => ?_⟩
  · obtain ⟨rfl, rfl⟩ | ⟨-, hk⟩ := Table.of_get?_insert hk
    · exact ⟨rfl, ht⟩
    · exact h.connection k c hk
  · unfold Server.absorb at hk
    dsimp only at hk
    split at hk
    · obtain ⟨p', hp, -⟩ := Table.of_get?_modify hk
      exact h.peer k p' hp
    · exact h.peer k p hk
  · obtain hm | hm := List.mem_append.1 hm
    · exact h.notice n hm
    · rw [hn n hm]
      exact ht

theorem Numbered.act (h : s.Numbered) (a : Act) : (s.act a).Numbered := by
  cases a with
  | accept remote => exact h.accept remote
  | io socket domain data =>
    obtain ⟨-, ha⟩ | ⟨c, hc, ha⟩ := s.io_cases socket domain data
    · rw [Server.act, ha]
      exact h
    · rw [Server.act, ha]
      obtain ⟨hs, hlt⟩ := h.connection socket c hc
      obtain ⟨effects, he⟩ := c.io_shows s.setting s.pools domain data
      have hsocket : (c.io s.setting s.pools domain data).connection.socket = c.socket :=
        he.course.socket_eq
      refine h.absorb (hsocket ▸ hs ▸ hlt) fun n hn => ?_
      rw [he.notices] at hn
      obtain ⟨e, -, hn⟩ := List.mem_flatMap.1 hn
      rw [hsocket]
      exact Effect.socket_of_notices n hn
  | drop socket =>
    obtain ⟨-, ha⟩ | ⟨c, hc, ha⟩ := s.drop_cases socket
    · rw [Server.act, ha]
      exact h
    · rw [Server.act, ha]
      obtain ⟨hs, hlt⟩ := h.connection socket c hc
      refine ⟨fun k c hk => h.connection k c (Table.of_get?_erase hk).2, h.peer, h.queue,
        fun n hm => ?_⟩
      obtain hm | hm := List.mem_append.1 hm
      · exact h.notice n hm
      · rw [Connection.socket_of_drop n hm, hs]
        exact hlt
  | send socket event =>
    obtain ⟨cause, ha⟩ | ⟨p, queue, -, -, hq, ha⟩ := s.send_cases socket event
    · rw [Server.act, ha]
      exact h
    · rw [Server.act, ha]
      refine ⟨h.connection, h.peer, fun k q hk => ?_, h.notice⟩
      obtain ⟨rfl, -⟩ | ⟨-, hk⟩ := Table.of_get?_insert hk
      · exact h.queue _ _ hq
      · exact h.queue k q hk
  | receive socket =>
    obtain ha | ⟨queue, hq, ha⟩ := s.receive_cases socket
    · rw [Server.act, ha]
      exact h
    · rw [Server.act, ha]
      refine ⟨h.connection, h.peer, fun k q hk => ?_, h.notice⟩
      obtain ⟨rfl, -⟩ | ⟨-, hk⟩ := Table.of_get?_insert hk
      · exact h.queue _ _ hq
      · exact h.queue k q hk
  | dropReceiver socket =>
    exact ⟨h.connection, h.peer, fun k q hk => h.queue k q (Table.of_get?_erase hk).2, h.notice⟩
  | close socket =>
    exact ⟨h.connection, fun k p hk => h.peer k p (Table.of_get?_erase hk).2, h.queue, h.notice⟩
  | files fs => exact ⟨h.connection, h.peer, h.queue, h.notice⟩

theorem Numbered.run (h : s.Numbered) (acts : List Act) : (s.run acts).Numbered :=
  run_keeps (fun _ a h => h.act a) h acts

theorem config_act (s : Server) (a : Act) : (s.act a).setting.config = s.setting.config := by
  cases a with
  | accept remote => obtain ⟨_, ha⟩ | ⟨_, -, ha⟩ := s.accept_cases remote <;> rw [act, ha]
  | io socket domain data =>
    obtain ⟨-, ha⟩ | ⟨_, -, ha⟩ := s.io_cases socket domain data
    · rw [act, ha]
    · rw [act, ha]
      rfl
  | drop socket => obtain ⟨-, ha⟩ | ⟨_, -, ha⟩ := s.drop_cases socket <;> rw [act, ha]
  | send socket event =>
    obtain ⟨_, ha⟩ | ⟨_, _, -, -, -, ha⟩ := s.send_cases socket event <;> rw [act, ha]
  | receive socket => obtain ha | ⟨_, -, ha⟩ := s.receive_cases socket <;> rw [act, ha]
  | dropReceiver socket => rfl
  | close socket => rfl
  | files files => rfl

theorem config_run (s : Server) (acts : List Act) :
    (s.run acts).setting.config = s.setting.config := by
  induction acts generalizing s with
  | nil => rfl
  | cons a acts ih => rw [run_cons, ih, config_act]

theorem chunkSize_run (setting : Setting) (acts : List Act) :
    ((start setting).run acts).setting.config.limits.messageChunkSize =
      setting.config.limits.messageChunkSize := by
  rw [config_run, start]

/-- Numbers are used up by new sockets only. -/
theorem nextNumber_act (s : Server) (a : Act) :
    (s.act a).nextNumber = s.nextNumber + if a.isAccept then 1 else 0 := by
  cases a with
  | accept remote => obtain ⟨_, ha⟩ | ⟨_, -, ha⟩ := s.accept_cases remote <;> rw [act, ha] <;> rfl
  | io socket domain data =>
    obtain ⟨-, ha⟩ | ⟨_, -, ha⟩ := s.io_cases socket domain data <;> rw [act, ha] <;> rfl
  | drop socket => obtain ⟨-, ha⟩ | ⟨_, -, ha⟩ := s.drop_cases socket <;> rw [act, ha] <;> rfl
  | send socket event =>
    obtain ⟨_, ha⟩ | ⟨_, _, -, -, -, ha⟩ := s.send_cases socket event <;> rw [act, ha] <;> rfl
  | receive socket => obtain ha | ⟨_, -, ha⟩ := s.receive_cases socket <;> rw [act, ha] <;> rfl
  | dropReceiver socket => rfl
  | close socket => rfl
  | files files => rfl

theorem nextNumber_le_act (s : Server) (a : Act) : s.nextNumber ≤ (s.act a).nextNumber := by
  rw [nextNumber_act]
  exact Nat.le_add_right _ _

section Frame

variable {k : SocketId} {a : Act}

theorem heard_append {notices : List Notice} (s : Server) (h : ∀ n ∈ notices, n.socket ≠ k) :
    { s with notices := s.notices ++ notices }.heard k = s.heard k := by
  have hnone : notices.filter (·.socket = k) = [] := by
    apply List.filter_eq_nil_iff.2
    intro n hn
    simpa using h n hn
  unfold heard
  rw [List.filter_append, hnone, List.append_nil]

/-- What stays as it is of a socket while its connection is not called. Its peer may be
forgotten. -/
structure Spares (k : SocketId) (s s' : Server) : Prop where
  connection : s'.connections.get? k = s.connections.get? k
  peer : ∀ p, s'.peers.get? k = some p → s.peers.get? k = some p
  heard : s'.heard k = s.heard k

theorem Spares.refl (k : SocketId) (s : Server) : Spares k s s := ⟨rfl, fun _ hp => hp, rfl⟩

/-- The result of a call belongs to the socket of its connection. -/
theorem absorb_spares {α : Type} {t : Turn α} (s : Server) (ht : t.connection.socket ≠ k)
    (hn : ∀ n ∈ t.notices, n.socket = t.connection.socket) : Spares k s (s.absorb t) := by
  refine ⟨Table.get?_insert_of_ne _ _ (Ne.symm ht), fun p hp => ?_, ?_⟩
  · unfold absorb at hp
    dsimp only at hp
    split at hp
    · rwa [Table.get?_modify_of_ne _ _ (Ne.symm ht)] at hp
    · exact hp
  · apply heard_append s
    intro n hm
    rw [hn n hm]
    exact ht

/-- A connection is left alone by what happens to others, and by what is sent to it. -/
theorem act_spares (h : s.Numbered) (ha : s.called? a ≠ some k) : Spares k s (s.act a) := by
  cases a with
  | accept remote =>
    have hne : k ≠ ⟨s.nextNumber⟩ := fun he => ha (congrArg some he.symm)
    obtain ⟨cause, he⟩ | ⟨c, -, he⟩ := s.accept_cases remote
    · rw [act, he]
      exact ⟨rfl, fun _ hp => hp, rfl⟩
    · rw [act, he]
      refine ⟨Table.get?_insert_of_ne _ _ hne, fun p hp => ?_, rfl⟩
      rwa [Table.get?_insert_of_ne _ _ hne] at hp
  | io socket domain data =>
    have hne : socket ≠ k := fun he => ha (congrArg some he)
    obtain ⟨-, he⟩ | ⟨c, hc, he⟩ := s.io_cases socket domain data
    · rw [act, he]
      exact .refl k s
    · rw [act, he]
      obtain ⟨effects, hs⟩ := c.io_shows s.setting s.pools domain data
      have hsocket : (c.io s.setting s.pools domain data).connection.socket = c.socket :=
        hs.course.socket_eq
      have hcs := (h.connection socket c hc).1
      refine absorb_spares s ?_ fun n hn => ?_
      · rw [hsocket, hcs]
        exact hne
      · rw [hs.notices] at hn
        obtain ⟨e, -, hn⟩ := List.mem_flatMap.1 hn
        rw [hsocket]
        exact Effect.socket_of_notices n hn
  | drop socket =>
    have hne : k ≠ socket := fun he => ha (congrArg some he.symm)
    obtain ⟨-, he⟩ | ⟨c, hc, he⟩ := s.drop_cases socket
    · rw [act, he]
      exact .refl k s
    · rw [act, he]
      refine ⟨Table.get?_erase_of_ne _ hne, fun _ hp => hp, ?_⟩
      apply heard_append s
      intro n hn
      rw [Connection.socket_of_drop n hn, (h.connection socket c hc).1]
      exact hne.symm
  | send socket event =>
    obtain ⟨cause, he⟩ | ⟨p, queue, -, -, -, he⟩ := s.send_cases socket event
    all_goals
      rw [act, he]
      exact ⟨rfl, fun _ hp => hp, rfl⟩
  | receive socket =>
    obtain he | ⟨queue, -, he⟩ := s.receive_cases socket
    all_goals
      rw [act, he]
      exact ⟨rfl, fun _ hp => hp, rfl⟩
  | dropReceiver socket => exact ⟨rfl, fun _ hp => hp, rfl⟩
  | close socket => exact ⟨rfl, fun p hp => (Table.of_get?_erase hp).2, rfl⟩
  | files files => exact ⟨rfl, fun _ hp => hp, rfl⟩

/-- A connection that takes in bytes keeps its place. -/
theorem connection_io {c : Connection} (h : s.Numbered) (hc : s.connections.get? k = some c)
    (domain : String) (data : Bytes) :
    s.act (.io k domain data) = s.absorb (c.io s.setting s.pools domain data) ∧
      (s.act (.io k domain data)).connections.get? k =
        some (c.io s.setting s.pools domain data).connection := by
  obtain ⟨hnone, -⟩ | ⟨c', hc', he⟩ := s.io_cases k domain data
  · cases hc.symm.trans hnone
  · cases hc.symm.trans hc'
    obtain ⟨effects, hs⟩ := c.io_shows s.setting s.pools domain data
    have hsocket : (c.io s.setting s.pools domain data).connection.socket = k :=
      hs.course.socket_eq.trans (h.connection k c hc).1
    refine ⟨congrArg Prod.snd he, ?_⟩
    rw [act, he]
    unfold absorb
    rw [hsocket]
    exact Table.get?_insert_self _ _ _

/-- Half a request of the first client leaves the message behind that it was read with, for the next
request. -/
theorem io_recycles (hn : s.Numbered)
    (hs : s.setting =
      { config := { limits := { bufferSize := 2, poolCapacity := 1 } }, files := {} })
    (hp : s.pools = .empty 1)
    (hc : s.connections.get? ⟨1⟩ = some
      { socket := ⟨1⟩, buffer := ⟨[0, 0], 0, some 65536⟩
        reassembly := { maxMessageSize := 67108864 } }) :
    ∃ m, (s.act (.io ⟨1⟩ "localhost" [0x47])).pools.messages.stack
        s.setting.config.limits.messageConfig = [m] ∧
      ((s.act (.io ⟨1⟩ "localhost" [0x47])).pools.messages.get
        s.setting.config.limits.messageConfig).1 = some m := by
  let setting : Setting :=
    { config := { limits := { bufferSize := 2, poolCapacity := 1 } }, files := {} }
  let c : Connection :=
    { socket := ⟨1⟩, buffer := ⟨[0, 0], 0, some 65536⟩
      reassembly := { maxMessageSize := 67108864 } }
  let c₁ : Connection := { c with domain := some "localhost", buffer := ⟨[0x47, 0], 1, some 65536⟩ }
  have hwait : c.io setting (.empty 1) "localhost" [0x47] = Connection.checkSize 1048576
      { Connection.pop setting (.empty 1) c₁ with outcome := .ok .goOn } :=
    congrArg (Connection.checkSize 1048576) (Connection.drain_of_wait rfl)
  have hpools : (s.act (.io ⟨1⟩ "localhost" [0x47])).pools =
      (Connection.pop setting (.empty 1) c₁).pools := by
    rw [(connection_io hn hc "localhost" [0x47]).1, hs, hp]
    exact congrArg Turn.pools hwait
  have henabled : (Connection.pop setting (.empty 1) c₁).pools.messages.isEnabled = true := by
    decide +kernel
  have hidle : ((Connection.pop setting (.empty 1) c₁).pools.messages.stack
      setting.config.limits.messageConfig).length = 1 := by decide +kernel
  obtain ⟨m, hm⟩ := List.length_eq_one_iff.1 hidle
  rw [hpools, hs, Pool.get, henabled, hm]
  exact ⟨m, rfl, rfl⟩

theorem connection_drop (s : Server) (k : SocketId) :
    (s.act (.drop k)).connections.get? k = none := by
  obtain ⟨hnone, he⟩ | ⟨c, -, he⟩ := s.drop_cases k
  · rw [act, he]
    exact hnone
  · rw [act, he]
    exact Table.get?_erase_self _ _

/-- Where a connection comes from: it was left alone, or it is new, or it took in bytes. -/
theorem connection_act {c : Connection} (h : s.Numbered)
    (hc : (s.act a).connections.get? k = some c) :
    (s.connections.get? k = some c ∧ Spares k s (s.act a)) ∨
      (∃ remote, a = .accept remote ∧ k = ⟨s.nextNumber⟩ ∧
        Connection.create s.setting.config.limits k = .ok c) ∨
      ∃ before domain data, a = .io k domain data ∧ s.connections.get? k = some before ∧
        c = (before.io s.setting s.pools domain data).connection ∧
        s.act a = s.absorb (before.io s.setting s.pools domain data) := by
  by_cases ha : s.called? a = some k
  · cases a with
    | accept remote =>
      cases ha
      obtain ⟨cause, he⟩ | ⟨new, hnew, he⟩ := s.accept_cases remote
      · rw [act, he] at hc
        exact absurd (h.connection _ c hc).2 (Nat.lt_irrefl _)
      · rw [act, he] at hc
        obtain ⟨-, rfl⟩ | ⟨hne, -⟩ := Table.of_get?_insert hc
        · exact .inr (.inl ⟨remote, rfl, rfl, hnew⟩)
        · exact absurd rfl hne
    | io socket domain data =>
      cases ha
      cases hb : s.connections.get? k with
      | none =>
        have he : s.io k domain data = (none, s) := by rw [io, hb]
        rw [act, he, hb] at hc
        cases hc
      | some before =>
        obtain ⟨he, hafter⟩ := connection_io h hb domain data
        rw [hafter] at hc
        exact .inr (.inr ⟨before, domain, data, rfl, rfl, (Option.some.inj hc).symm, he⟩)
    | drop socket =>
      cases ha
      rw [connection_drop] at hc
      cases hc
    | _ => cases ha
  · have hs := act_spares h ha
    exact .inl ⟨hs.connection ▸ hc, hs⟩

/-- Where there is a connection, there is room for what it needs. -/
def Roomy (s : Server) : Prop :=
  ∀ k c, s.connections.get? k = some c → s.setting.config.limits.bufferSize ≤ Buffer.maxStore

theorem Roomy.act (h : s.Roomy) (hn : s.Numbered) (a : Act) : (s.act a).Roomy := by
  intro k c hc
  rw [config_act]
  obtain ⟨hs, -⟩ | ⟨_, -, -, hnew⟩ | ⟨before, _, _, -, hb, -⟩ := connection_act hn hc
  · exact h k c hs
  · exact (Connection.create_fresh hnew).2.2.2
  · exact h k before hb

/-- The pools change when a connection takes in bytes and when it is dropped. -/
theorem pools_act (s : Server) (a : Act) :
    (s.act a).pools = s.pools ∨
      (∃ k c domain data, a = .io k domain data ∧ s.connections.get? k = some c ∧
        (s.act a).pools = (c.io s.setting s.pools domain data).pools) ∨
      ∃ k c, a = .drop k ∧ s.connections.get? k = some c ∧
        (s.act a).pools = (c.drop s.pools).1 := by
  cases a with
  | accept remote =>
    obtain ⟨_, he⟩ | ⟨_, -, he⟩ := s.accept_cases remote
    all_goals
      rw [act, he]
      exact .inl rfl
  | io socket domain data =>
    obtain ⟨-, he⟩ | ⟨c, hc, he⟩ := s.io_cases socket domain data
    · rw [act, he]
      exact .inl rfl
    · rw [act, he]
      exact .inr (.inl ⟨socket, c, domain, data, rfl, hc, rfl⟩)
  | drop socket =>
    obtain ⟨-, he⟩ | ⟨c, hc, he⟩ := s.drop_cases socket
    · rw [act, he]
      exact .inl rfl
    · rw [act, he]
      exact .inr (.inr ⟨socket, c, rfl, hc, rfl⟩)
  | send socket event =>
    obtain ⟨_, he⟩ | ⟨_, _, -, -, -, he⟩ := s.send_cases socket event
    all_goals
      rw [act, he]
      exact .inl rfl
  | receive socket =>
    obtain he | ⟨_, -, he⟩ := s.receive_cases socket
    all_goals
      rw [act, he]
      exact .inl rfl
  | dropReceiver socket => exact .inl rfl
  | close socket => exact .inl rfl
  | files files => exact .inl rfl

/-- A queue is left alone by all but what is sent to its socket and taken from it. -/
theorem queue_act (ha : s.queued? a ≠ some k) :
    (s.act a).outbound.get? k = s.outbound.get? k := by
  cases a with
  | accept remote =>
    have hne : k ≠ ⟨s.nextNumber⟩ := fun he => ha (congrArg some he.symm)
    obtain ⟨cause, he⟩ | ⟨c, -, he⟩ := s.accept_cases remote
    · rw [act, he]
    · rw [act, he]
      exact Table.get?_insert_of_ne _ _ hne
  | io socket domain data =>
    obtain ⟨-, he⟩ | ⟨c, -, he⟩ := s.io_cases socket domain data
    · rw [act, he]
    · rw [act, he]
      rfl
  | drop socket =>
    obtain ⟨-, he⟩ | ⟨c, -, he⟩ := s.drop_cases socket <;> rw [act, he]
  | send socket event =>
    have hne : k ≠ socket := fun he => ha (congrArg some he.symm)
    obtain ⟨cause, he⟩ | ⟨p, queue, -, -, -, he⟩ := s.send_cases socket event
    · rw [act, he]
    · rw [act, he]
      exact Table.get?_insert_of_ne _ _ hne
  | receive socket =>
    have hne : k ≠ socket := fun he => ha (congrArg some he.symm)
    obtain he | ⟨queue, -, he⟩ := s.receive_cases socket
    · rw [act, he]
    · rw [act, he]
      exact Table.get?_insert_of_ne _ _ hne
  | dropReceiver socket =>
    have hne : k ≠ socket := fun he => ha (congrArg some he.symm)
    exact Table.get?_erase_of_ne _ hne
  | close socket => rfl
  | files files => rfl

/-- Once a socket has lost its connection, nothing more is heard about it. -/
theorem run_gone (h : s.Numbered) (hk : k.number < s.nextNumber) (hc : s.connections.get? k = none)
    (acts : List Act) :
    (s.run acts).connections.get? k = none ∧ (s.run acts).heard k = s.heard k := by
  induction acts generalizing s with
  | nil => exact ⟨hc, rfl⟩
  | cons a acts ih =>
    -- A call for a connection that is not there does nothing.
    have hs : Spares k s (s.act a) := by
      by_cases ha : s.called? a = some k
      · cases a with
        | accept remote =>
          cases ha
          exact absurd hk (Nat.lt_irrefl _)
        | io socket domain data =>
          cases ha
          have he : s.io k domain data = (none, s) := by rw [io, hc]
          rw [act, he]
          exact .refl k s
        | drop socket =>
          cases ha
          have he : s.dropConnection k = s := by rw [dropConnection, hc]
          rw [act, he]
          exact .refl k s
        | _ => cases ha
      · exact act_spares h ha
    have hnumber := Nat.lt_of_lt_of_le hk (s.nextNumber_le_act a)
    obtain ⟨hgone, hheard⟩ := ih (h.act a) hnumber (hs.connection.trans hc)
    exact ⟨hgone, hheard.trans hs.heard⟩

end Frame

end Server

end OriginServer
