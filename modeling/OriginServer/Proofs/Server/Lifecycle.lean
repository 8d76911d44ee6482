import OriginServer.Proofs.Connection.Calls
import OriginServer.Proofs.Server.Act

namespace OriginServer

open OriginServer.Http

/-- The protocol of a connection, its flag and what was heard about it agree. -/
inductive Told (f : Face) : List Notice → Prop
  | silent (hp : f.protocol = .http) (hu : f.isUpgraded = false) : Told f []
  | talking {domain : String} (events : List Event) (hp : f.protocol = .webSocket)
      (hu : f.isUpgraded = true) (hd : f.domain = some domain) :
      Told f (.opened f.socket domain :: events.map (Notice.event f.socket))

section Effects

variable {f g : Face} {notices : List Notice}

theorem Connection.deliver_eq (socket : SocketId) (payload : Bytes) :
    deliver socket payload = (Event.read? payload).toList.map (Notice.event socket) := by
  unfold deliver
  cases Event.read? payload <;> rfl

theorem Told.step {e : Effect} (h : Told f notices) (hs : Effect.Step f e g) :
    Told g (notices ++ e.notices f.socket) := by
  cases hs with
  | bound hd =>
    cases h with
    | silent hp hu => exact .silent hp hu
    | talking events hp hu hd' => cases hd.symm.trans hd'
  | answered hp hs => simpa only [Effect.notices, List.append_nil] using h
  | switched hp hd =>
    cases h with
    | silent _ hu => exact .talking [] rfl rfl hd
    | talking events hp' hu hd' => cases hp.symm.trans hp'
  | ponged hp hl => simpa only [Effect.notices, List.append_nil] using h
  | @delivered payload hp =>
    cases h with
    | silent hp' hu => cases hp.symm.trans hp'
    | talking events hp' hu hd =>
      rw [Effect.notices, Connection.deliver_eq, List.cons_append, ← List.map_append]
      exact .talking _ hp hu hd

theorem Told.course {effects : List Effect} {closes : Bool} (h : Told f notices)
    (hc : Effect.Course f effects g closes) :
    Told g (notices ++ effects.flatMap (Effect.notices f.socket)) := by
  induction hc generalizing notices with
  | nil f => simpa only [List.flatMap_nil, List.append_nil] using h
  | closed hp hl => simpa only [List.flatMap_singleton, Effect.notices, List.append_nil] using h
  | @cons f g _ e later _ hs hl ih =>
    have hlater := ih (h.step hs)
    rw [hs.socket_eq] at hlater
    rw [List.flatMap_cons, ← List.append_assoc]
    exact hlater

theorem Told.isUpgraded_iff (h : Told f notices) :
    f.protocol = .webSocket ↔ f.isUpgraded = true := by
  cases h with
  | silent hp hu => simp [hp, hu]
  | talking events hp hu hd => simp [hp, hu]

theorem Told.opened_iff (h : Told f notices) :
    f.isUpgraded = true ↔ ∃ domain, Notice.opened f.socket domain ∈ notices := by
  cases h with
  | silent hp hu => simp [hu]
  | @talking domain events hp hu hd =>
    refine iff_of_true hu ⟨domain, List.mem_cons_self⟩

end Effects

namespace Server

variable {s : Server} {k : SocketId}

/-- What holds of a connection of a server: its application knows of it, and so does its peer. -/
structure Living (s : Server) (k : SocketId) (c : Connection) : Prop where
  told : Told c.face (s.heard k)
  peer : ∀ p, s.peers.get? k = some p → p.isUpgraded = c.isUpgraded

theorem living_accept {c : Connection} (h : s.Numbered) (remote : SocketAddress)
    (hc : Connection.create s.setting.config.limits ⟨s.nextNumber⟩ = .ok c) :
    (s.accept remote).2.Living ⟨s.nextNumber⟩ c := by
  have hheard : s.heard ⟨s.nextNumber⟩ = [] := by
    apply List.filter_eq_nil_iff.2
    intro n hn
    have hlt := h.notice n hn
    simp only [decide_eq_true_eq]
    intro he
    rw [he] at hlt
    exact absurd hlt (Nat.lt_irrefl _)
  have hface := Connection.face_of_create hc
  rw [s.accept_of_create remote hc]
  refine ⟨?_, fun p hp => ?_⟩
  · have hsilent : Told c.face [] := by
      rw [hface]
      exact .silent rfl rfl
    exact (congrArg (Told c.face) hheard).mpr hsilent
  · rw [Table.get?_insert_self] at hp
    cases hp
    exact (congrArg Face.isUpgraded hface).symm

/-- A call that is taken over adds its notices to what was heard. -/
theorem heard_absorb {α : Type} {t : Turn α} (s : Server)
    (hn : ∀ n ∈ t.notices, n.socket = k) :
    (s.absorb t).heard k = s.heard k ++ t.notices := by
  have hall : t.notices.filter (·.socket = k) = t.notices := by
    apply List.filter_eq_self.2
    intro n hm
    simpa using hn n hm
  unfold heard absorb
  rw [List.filter_append, hall]

theorem Living.absorb {c : Connection} {t : Turn Flow} {effects : List Effect} (h : s.Living k c)
    (hk : c.socket = k) (ht : t.Shows c.face effects) : (s.absorb t).Living k t.connection := by
  have hsocket : t.connection.socket = k := ht.course.socket_eq.trans hk
  have hface : c.face.socket = k := hk
  have hnotices : ∀ n ∈ t.notices, n.socket = k := by
    intro n hn
    rw [ht.notices, hface] at hn
    obtain ⟨e, -, hn⟩ := List.mem_flatMap.1 hn
    exact Effect.socket_of_notices n hn
  have htold : Told t.connection.face ((s.absorb t).heard k) := by
    rw [heard_absorb s hnotices, ht.notices]
    exact h.told.course ht.course
  refine ⟨htold, fun p hp => ?_⟩
  unfold Server.absorb at hp
  rw [hsocket] at hp
  dsimp only at hp
  split at hp
  · rename_i hu
    obtain ⟨p', -, rfl⟩ := Table.of_get?_modify hp
    rw [if_pos rfl, hu]
  · -- A connection whose flag is not set has never had it set.
    rename_i hu
    have hf := Bool.eq_false_iff.2 hu
    rw [hf, h.peer p hp]
    apply Bool.eq_false_iff.2
    intro hc
    have hws := ht.course.webSocket (h.told.isUpgraded_iff.2 hc)
    exact hu (htold.isUpgraded_iff.1 hws)

/-- Whatever happens to a server, what was heard about its connections fits their state. -/
theorem living_act (h : s.Numbered) (hl : ∀ k c, s.connections.get? k = some c → s.Living k c)
    (a : Act) (k : SocketId) (c : Connection) (hc : (s.act a).connections.get? k = some c) :
    (s.act a).Living k c := by
  obtain ⟨hs, hspares⟩ | ⟨remote, rfl, rfl, hnew⟩ | ⟨before, domain, data, rfl, hb, rfl, ha⟩ :=
    connection_act h hc
  · refine ⟨?_, fun p hp => (hl k c hs).peer p (hspares.peer p hp)⟩
    rw [hspares.heard]
    exact (hl k c hs).told
  · exact living_accept h remote hnew
  · rw [ha]
    obtain ⟨effects, ht⟩ := before.io_shows s.setting s.pools domain data
    exact (hl k before hb).absorb (h.connection k before hb).1 ht

/-- What holds of every server that has been running. -/
structure Sound (s : Server) : Prop where
  numbered : s.Numbered
  living : ∀ k c, s.connections.get? k = some c → s.Living k c

theorem Sound.act (h : s.Sound) (a : Act) : (s.act a).Sound :=
  ⟨h.numbered.act a, living_act h.numbered h.living a⟩

theorem sound_run (setting : Setting) (acts : List Act) : ((start setting).run acts).Sound :=
  run_keeps (fun _ a h => h.act a) ⟨numbered_start setting, nofun⟩ acts

/-- A connection that is a WebSocket is one as long as it stays. -/
theorem webSocket_run {c c' : Connection} (h : s.Numbered) (hc : s.connections.get? k = some c)
    (hp : c.protocol = .webSocket) (acts : List Act)
    (hc' : (s.run acts).connections.get? k = some c') : c'.protocol = .webSocket := by
  induction acts generalizing s c with
  | nil =>
    cases hc.symm.trans hc'
    exact hp
  | cons a acts ih =>
    have hk := (h.connection k c hc).2
    cases hm : (s.act a).connections.get? k with
    | none =>
      have hlt := Nat.lt_of_lt_of_le hk (s.nextNumber_le_act a)
      obtain ⟨hgone, -⟩ := run_gone (h.act a) hlt hm acts
      cases hgone.symm.trans hc'
    | some mid =>
      refine ih (h.act a) hm ?_ hc'
      obtain ⟨hs, -⟩ | ⟨_, -, rfl, -⟩ | ⟨before, domain, data, -, hb, rfl, -⟩ :=
        connection_act h hm
      · cases hc.symm.trans hs
        exact hp
      · exact absurd hk (Nat.lt_irrefl _)
      · cases hc.symm.trans hb
        obtain ⟨effects, ht⟩ := c.io_shows s.setting s.pools domain data
        exact ht.course.webSocket hp

/-- What is heard at the end of a connection, and whatever happens after it. -/
theorem heard_drop {c : Connection} (h : s.Numbered) (hc : s.connections.get? k = some c)
    (later : List Act) :
    ((s.act (.drop k)).run later).heard k =
      s.heard k ++ if c.protocol = .webSocket then [.closed k] else [] := by
  obtain ⟨hk, hlt⟩ := h.connection k c hc
  obtain ⟨hnone, -⟩ | ⟨c', hc', he⟩ := s.drop_cases k
  · cases hc.symm.trans hnone
  · cases hc.symm.trans hc'
    have hgone := s.connection_drop k
    have hlt' := Nat.lt_of_lt_of_le hlt (s.nextNumber_le_act (.drop k))
    rw [(run_gone (h.act _) hlt' hgone later).2, act, he]
    unfold heard Connection.drop
    rw [List.filter_append, hk]
    congr 1
    split
    · simp [Notice.socket]
    · rfl

/-- A request that makes the first connection of a server a WebSocket. -/
theorem io_upgrade :
    ∃ (setting : Setting) (remote : SocketAddress) (server : Server) (request : Bytes)
        (t : Turn Flow),
      (start setting).accept remote = (.ok ⟨1⟩, server) ∧
      server.io ⟨1⟩ "localhost" request = (some ⟨t.output, t.outcome⟩, server.absorb t) ∧
      t.outcome = .ok .goOn ∧ t.connection.socket = ⟨1⟩ ∧ t.connection.domain = some "localhost" ∧
      t.connection.protocol = .webSocket ∧ t.connection.isUpgraded = true ∧
      server.setting.config.limits.fileChunkSize ≤ Buffer.maxStore := by
  obtain ⟨setting, c, request, t, hsetting, hc, hio, hgo, hconn⟩ := Connection.io_upgrade
  let remote : SocketAddress := ⟨.v4 [127, 0, 0, 1], 5000⟩
  let s : Server := (start setting).act (.accept remote)
  obtain ⟨haccept, hget, hpools⟩ : (start setting).accept remote = (.ok ⟨1⟩, s) ∧
      s.connections.get? ⟨1⟩ = some c ∧ s.pools = .empty 32 := by
    subst hsetting
    cases hc
    exact ⟨rfl, rfl, rfl⟩
  have hsetting' : s.setting = setting := by
    subst hsetting
    rfl
  obtain ⟨hnone, -⟩ | ⟨c', hc', he⟩ := s.io_cases ⟨1⟩ "localhost" request
  · cases hget.symm.trans hnone
  · cases hget.symm.trans hc'
    rw [hsetting', hpools, hio] at he
    have hchunk : s.setting.config.limits.fileChunkSize ≤ Buffer.maxStore := by
      subst hsetting
      decide
    refine ⟨setting, remote, s, request, t, haccept, he, hgo, ?_⟩
    rw [hconn]
    exact ⟨rfl, rfl, rfl, rfl, hchunk⟩

/-- Whatever happens to a server, about a connection that is dropped the application has heard
nothing, or that the socket was opened with its domain, then events, and at the drop that it was
closed. The connection is a WebSocket just when its flag is set, which its peer shares, and when
the socket was opened, and it stays one. -/
theorem opened_heard_closed (setting : Setting) (acts later : List Act) {k : SocketId}
    {c : Connection} (hs : s = (start setting).run acts) (hc : s.connections.get? k = some c) :
    ((s.heard k = [] ∧ ((s.act (.drop k)).run later).heard k = []) ∨
      ∃ (domain : String) (events : List Event), c.domain = some domain ∧
        s.heard k = .opened k domain :: events.map (Notice.event k) ∧
        ((s.act (.drop k)).run later).heard k =
          .opened k domain :: (events.map (Notice.event k) ++ [.closed k])) ∧
    (c.protocol = .webSocket ↔ c.isUpgraded = true) ∧
    (∀ p, s.peers.get? k = some p → p.isUpgraded = c.isUpgraded) ∧
    (c.isUpgraded = true ↔ ∃ domain, Notice.opened k domain ∈ s.heard k) ∧
    (c.protocol = .webSocket →
      ∀ c', (s.run later).connections.get? k = some c' → c'.protocol = .webSocket) := by
  subst hs
  obtain ⟨hn, hliving⟩ := sound_run setting acts
  obtain ⟨htold, hpeer⟩ := hliving k c hc
  have hk : c.face.socket = k := (hn.connection k c hc).1
  have hend := heard_drop hn hc later
  refine ⟨?_, htold.isUpgraded_iff, hpeer, hk ▸ htold.opened_iff,
    fun hp c' hc' => webSocket_run hn hc hp later hc'⟩
  generalize ((start setting).run acts).heard k = notices at htold hend ⊢
  cases htold with
  | silent hp hu =>
    have hp' : c.protocol ≠ .webSocket := by
      intro hws
      cases hws.symm.trans hp
    rw [if_neg hp'] at hend
    exact .inl ⟨rfl, hend⟩
  | talking events hp hu hd =>
    have hp' : c.protocol = .webSocket := hp
    rw [if_pos hp', hk] at hend
    exact .inr ⟨_, events, hd, by rw [hk], hend⟩

/-- A client that upgrades its connection and leaves. -/
theorem opened_heard_closed_upgrade :
    ∃ (setting : Setting) (acts : List Act) (events : List Event), acts.length = 2 ∧
      (((start setting).run acts).act (.drop ⟨1⟩)).heard ⟨1⟩ =
        .opened ⟨1⟩ "localhost" :: (events.map (Notice.event ⟨1⟩) ++ [.closed ⟨1⟩]) := by
  obtain ⟨setting, remote, server, request, t, haccept, hio, -, hsocket, hdomain, hprotocol, -⟩ :=
    io_upgrade
  have hc : ((start setting).run
      [.accept remote, .io ⟨1⟩ "localhost" request]).connections.get? ⟨1⟩ = some t.connection := by
    change (Server.io ((start setting).accept remote).2 ⟨1⟩ "localhost" request).2.connections.get?
      ⟨1⟩ = _
    rw [haccept, hio, absorb, hsocket]
    exact Table.get?_insert_self _ _ _
  obtain ⟨hheard, hflag, -, hopened, -⟩ := opened_heard_closed setting _ [] rfl hc
  obtain ⟨hnone, -⟩ | ⟨domain, events, hd, -, hend⟩ := hheard
  · -- A WebSocket was opened, so something was heard.
    obtain ⟨domain, hm⟩ := hopened.1 (hflag.1 hprotocol)
    rw [hnone] at hm
    cases hm
  · cases hdomain.symm.trans hd
    exact ⟨setting, _, events, rfl, hend⟩

end Server

end OriginServer
