import OriginServer.Proofs.Connection.Recycling
import OriginServer.Proofs.Server.Act

namespace OriginServer

open OriginServer.Http OriginServer.Site

/-- What a connection is given for a call. -/
structure Fed where
  files : FileSystem
  domain : String
  data : Bytes

/-- What can be seen of a call, and of its connection then. -/
structure Shown where
  output : List Output
  notices : List Notice
  outcome : Except ConnectionError Flow
  protocol : Protocol
  isUpgraded : Bool
  pending : Nat
  waiting : Bytes

def Shown.renumber (k : SocketId) (s : Shown) : Shown :=
  { s with notices := s.notices.map (Notice.renumber k) }

def Turn.shown (t : Turn Flow) : Shown :=
  { output := t.output
    notices := t.notices
    outcome := t.outcome
    protocol := t.connection.protocol
    isUpgraded := t.connection.isUpgraded
    pending := t.connection.pending
    waiting := t.connection.buffer.content }

namespace Server

/-- What an act gives a connection, and what the connection shows then. -/
def call? (s : Server) (k : SocketId) : Act → Option (Fed × Shown)
  | .io socket domain data =>
    if socket = k then
      (s.connections.get? k).map fun c =>
        (⟨s.setting.files, domain, data⟩, (c.io s.setting s.pools domain data).shown)
    else none
  | _ => none

/-- The calls of a connection among all that happens to the server. -/
def calls (s : Server) (k : SocketId) : List Act → List (Fed × Shown)
  | [] => []
  | a :: acts => (s.call? k a).toList ++ (s.act a).calls k acts

/-- What a connection is given by all that happens. -/
def fed (s : Server) (k : SocketId) (acts : List Act) : List Fed := (s.calls k acts).map Prod.fst

/-- What a connection shows of all that happens. -/
def shown (s : Server) (k : SocketId) (acts : List Act) : List Shown :=
  (s.calls k acts).map Prod.snd

end Server

/-- What a connection shows that has pools of its own. -/
def Connection.replay (setting : Setting) (pools : Pools) (c : Connection) : List Fed → List Shown
  | [] => []
  | f :: later =>
    let t := c.io { setting with files := f.files } pools f.domain f.data
    t.shown :: replay setting t.pools t.connection later

/-- What a new connection shows that is alone, without recycling. -/
def Connection.alone (setting : Setting) (fed : List Fed) : List Shown :=
  match Connection.create setting.config.limits ⟨0⟩ with
  | .error _ => []
  | .ok c => c.replay setting (.empty 0) fed

section Renumbering

theorem Notice.renumber_socket (n : Notice) : n.renumber n.socket = n := by
  cases n <;> rfl

theorem Notice.renumber_renumber (j k : SocketId) (n : Notice) :
    (n.renumber k).renumber j = n.renumber j := by
  cases n <;> rfl

theorem Shown.renumber_renumber (j k : SocketId) (s : Shown) :
    (s.renumber k).renumber j = s.renumber j := by
  unfold renumber
  simp only [List.map_map, Function.comp_def, Notice.renumber_renumber]

variable {k : SocketId} {t t' : Turn Flow}

theorem Turn.Twin.shown (h : t.Twin k t') : t'.shown = t.shown.renumber k := by
  unfold Turn.shown Shown.renumber
  rw [h.output, h.notices, h.outcome, h.connection]
  rfl

/-- Under the number that it has, a call is its own twin. -/
theorem Connection.notices_renumber {setting : Setting} {pools : Pools} {c : Connection}
    (hk : c.socket = k) (domain : String) (data : Bytes) :
    (c.io setting pools domain data).notices.map (Notice.renumber k) =
      (c.io setting pools domain data).notices := by
  have hown : ∀ n ∈ (c.io setting pools domain data).notices, n.renumber k = id n := by
    intro n hn
    obtain ⟨effects, ht⟩ := c.io_shows setting pools domain data
    rw [ht.notices] at hn
    obtain ⟨e, -, hn⟩ := List.mem_flatMap.1 hn
    have hs : n.socket = k := (Effect.socket_of_notices n hn).trans hk
    rw [← hs]
    exact n.renumber_socket
  exact (List.map_congr_left hown).trans (List.map_id _)

end Renumbering

namespace Server

variable {s s' : Server} {k : SocketId} {n : Nat}

/-- A server whose idle objects stand in their places, with room for more where there is need. -/
structure Stocked (s : Server) : Prop where
  numbered : s.Numbered
  roomy : s.Roomy
  keyed : s.pools.Keyed

theorem stocked_start (setting : Setting) : (start setting).Stocked :=
  ⟨numbered_start setting, nofun, Pools.keyed_empty _⟩

theorem Stocked.act (h : s.Stocked) (a : Act) : (s.act a).Stocked := by
  refine ⟨h.numbered.act a, h.roomy.act h.numbered a, ?_⟩
  obtain hp | ⟨k, c, domain, data, -, hc, hp⟩ | ⟨k, c, -, -, hp⟩ := s.pools_act a
  · rw [hp]
    exact h.keyed
  · rw [hp]
    exact (Connection.io_twin 0 k domain data h.keyed h.keyed (h.roomy k c hc)).keyed
  · rw [hp]
    exact h.keyed.putFrames _

section Alone

theorem call?_of_none (hc : s.connections.get? k = none) (a : Act) : s.call? k a = none := by
  cases a with
  | io socket domain data => simp only [call?, hc, Option.map_none, ite_self]
  | _ => rfl

theorem call?_of_ne {a : Act} (ha : s.called? a ≠ some k) : s.call? k a = none := by
  cases a with
  | io socket domain data => exact if_neg fun he => ha (congrArg some he)
  | _ => rfl

theorem call?_io {c : Connection} (hc : s.connections.get? k = some c) (domain : String)
    (data : Bytes) :
    s.call? k (.io k domain data) =
      some (⟨s.setting.files, domain, data⟩, (c.io s.setting s.pools domain data).shown) := by
  simp only [call?, hc, if_true, Option.map_some]

/-- Without a connection there are no calls. -/
theorem calls_gone (h : s.Numbered) (hk : k.number < s.nextNumber)
    (hc : s.connections.get? k = none) (acts : List Act) : s.calls k acts = [] := by
  induction acts generalizing s with
  | nil => rfl
  | cons a acts ih =>
    obtain ⟨hgone, -⟩ := run_gone h hk hc [a]
    have hlt := Nat.lt_of_lt_of_le hk (s.nextNumber_le_act a)
    rw [calls, call?_of_none hc, ih (h.act a) hlt hgone]
    rfl

/-- From any point on, what a connection shows among others is what it shows with pools of its
own. -/
theorem calls_replay {setting : Setting} {pools : Pools} {c : Connection} (h : s.Stocked)
    (hs : s.setting.config = (setting.withPoolCapacity n).config) (hp : pools.Keyed)
    (hc : s.connections.get? k = some (c.renumber k)) (acts : List Act) :
    s.shown k acts = (c.replay setting pools (s.fed k acts)).map (Shown.renumber k) := by
  unfold shown fed
  induction acts generalizing s pools c with
  | nil => rfl
  | cons a acts ih =>
    have hs' : (s.act a).setting.config = (setting.withPoolCapacity n).config :=
      (s.config_act a).trans hs
    have hlt := (h.numbered.connection k _ hc).2
    by_cases ha : s.called? a = some k
    · cases a with
      | accept remote =>
        cases ha
        exact absurd hlt (Nat.lt_irrefl _)
      | io socket domain data =>
        cases ha
        -- The call is the twin of one with the other pools, and so are the later ones.
        have hsetting : s.setting =
            ({ setting with files := s.setting.files } : Setting).withPoolCapacity n :=
          congrArg (Setting.mk · s.setting.files) hs
        have hroom : setting.config.limits.bufferSize ≤ Buffer.maxStore := by
          have hr := h.roomy k _ hc
          rw [hs] at hr
          exact hr
        have ht : (c.io { setting with files := s.setting.files } pools domain data).Twin k _ :=
          Connection.io_twin n k domain data hp h.keyed hroom
        rw [← hsetting] at ht
        have hnext := (connection_io h.numbered hc domain data).2
        rw [ht.connection] at hnext
        have hlater := ih (h.act _) hs' ht.keyed hnext
        simp only [calls, call?_io hc, Option.toList_some, List.singleton_append, List.map_cons,
          Connection.replay]
        rw [ht.shown, hlater]
      | drop socket =>
        cases ha
        have hlt' := Nat.lt_of_lt_of_le hlt (s.nextNumber_le_act (.drop k))
        have hgone := calls_gone (h.numbered.act _) hlt' (s.connection_drop k) acts
        rw [calls, hgone]
        rfl
      | _ => cases ha
    · have hsame := (act_spares h.numbered ha).connection.trans hc
      rw [calls, call?_of_ne ha]
      exact ih (h.act a) hs' hp hsame

theorem create_renumber (limits : ServerLimits) (k : SocketId) :
    Connection.create limits k =
      (Connection.create limits ⟨0⟩).map (Connection.renumber k) := by
  unfold Connection.create
  cases Buffer.withCapacity limits.bufferSize <;> rfl

theorem alone_nil (setting : Setting) : Connection.alone setting [] = [] := by
  unfold Connection.alone
  split <;> rfl

/-- What a connection shows among others is what it shows alone. -/
theorem calls_alone {setting : Setting} (h : s.Stocked)
    (hs : s.setting.config = (setting.withPoolCapacity n).config)
    (hk : s.nextNumber ≤ k.number) (acts : List Act) :
    s.shown k acts = (Connection.alone setting (s.fed k acts)).map (Shown.renumber k) := by
  unfold shown fed
  induction acts generalizing s with
  | nil =>
    rw [calls, List.map_nil, List.map_nil, alone_nil]
    rfl
  | cons a acts ih =>
    have hnone : s.connections.get? k = none := by
      cases hc : s.connections.get? k with
      | none => rfl
      | some c => exact absurd (h.numbered.connection k c hc).2 (Nat.not_lt.2 hk)
    have hs' : (s.act a).setting.config = (setting.withPoolCapacity n).config :=
      (s.config_act a).trans hs
    rw [calls, call?_of_none hnone, Option.toList_none, List.nil_append]
    cases hc : (s.act a).connections.get? k with
    | none =>
      by_cases hlt : k.number < (s.act a).nextNumber
      · rw [calls_gone (h.numbered.act a) hlt hc, List.map_nil, List.map_nil, alone_nil]
        rfl
      · exact ih (h.act a) hs' (Nat.not_lt.1 hlt)
    | some c =>
      obtain ⟨hold, -⟩ | ⟨_, -, -, hnew⟩ | ⟨_, _, _, -, hold, -⟩ := connection_act h.numbered hc
      · cases hnone.symm.trans hold
      · -- The connection is new, as the one that is alone.
        rw [hs] at hnew
        have hcreate : Connection.create (setting.withPoolCapacity n).config.limits =
            Connection.create setting.config.limits := rfl
        rw [hcreate, create_renumber] at hnew
        cases halone : Connection.create setting.config.limits ⟨0⟩ with
        | error cause =>
          rw [halone] at hnew
          cases hnew
        | ok c₀ =>
          rw [halone] at hnew
          cases hnew
          unfold Connection.alone
          rw [halone]
          exact calls_replay (h.act a) hs' (Pools.keyed_empty 0) hc acts
      · cases hnone.symm.trans hold

end Alone

section Resizing

/-- The same server with pools of another size. -/
def resize (s : Server) (n : Nat) (pools : Pools) : Server :=
  { s with setting := s.setting.withPoolCapacity n, pools }

theorem accept_resize (s : Server) (n : Nat) (pools : Pools) (remote : SocketAddress) :
    ((s.resize n pools).accept remote).2 = (s.accept remote).2.resize n pools := by
  have hc : Connection.create (s.resize n pools).setting.config.limits =
      Connection.create s.setting.config.limits := rfl
  have hn : (s.resize n pools).nextNumber = s.nextNumber := rfl
  simp only [accept, hc, hn]
  cases Connection.create s.setting.config.limits ⟨s.nextNumber⟩ <;> rfl

theorem send_resize (s : Server) (n : Nat) (pools : Pools) (k : SocketId) (event : Event) :
    ((s.resize n pools).send k event).2 = (s.send k event).2.resize n pools := by
  have hp : (s.resize n pools).peers = s.peers := rfl
  have ho : (s.resize n pools).outbound = s.outbound := rfl
  simp only [send, hp, ho]
  cases s.peers.get? k with
  | none => rfl
  | some p =>
    dsimp only
    cases p.isUpgraded with
    | false => rfl
    | true => cases s.outbound.get? k <;> rfl

theorem receive_resize (s : Server) (n : Nat) (pools : Pools) (k : SocketId) :
    ((s.resize n pools).receive k).2 = (s.receive k).2.resize n pools := by
  have ho : (s.resize n pools).outbound = s.outbound := rfl
  simp only [receive, ho]
  cases s.outbound.get? k <;> rfl

theorem absorb_resize {t t' : Turn Flow} (s : Server) (n : Nat) (pools : Pools)
    (hc : t'.connection = t.connection) (hn : t'.notices = t.notices) :
    (s.resize n pools).absorb t' = (s.absorb t).resize n t'.pools := by
  simp only [absorb, hc, hn]
  rfl

/-- A call is the same with pools of another size. -/
theorem io_resize {c : Connection} (n : Nat) {pools : Pools} (h : s.Stocked) (hp : pools.Keyed)
    (hc : s.connections.get? k = some c) (domain : String) (data : Bytes) :
    let t := c.io s.setting s.pools domain data
    let t' := c.io (s.setting.withPoolCapacity n) pools domain data
    t'.shown = t.shown ∧ t'.connection = t.connection ∧ t'.notices = t.notices ∧
      t'.pools.Keyed := by
  intro t t'
  have hk := (h.numbered.connection k c hc).1
  have hself : ∀ c : Connection, c.socket = k → c.renumber k = c := by
    rintro c rfl
    rfl
  have ht : t.Twin k t' := by
    have htwin : t.Twin k _ := Connection.io_twin n k domain data h.keyed hp (h.roomy k c hc)
    rwa [hself c hk] at htwin
  obtain ⟨effects, hs⟩ := c.io_shows s.setting s.pools domain data
  have hnotices : t.notices.map (Notice.renumber k) = t.notices :=
    Connection.notices_renumber hk domain data
  have hshown : t.shown.renumber k = t.shown := by
    unfold Shown.renumber
    exact congrArg (fun notices => { t.shown with notices }) hnotices
  exact ⟨ht.shown.trans hshown, ht.connection.trans (hself _ (hs.course.socket_eq.trans hk)),
    ht.notices.trans hnotices, ht.keyed'⟩

/-- Whatever happens, a server with pools of another size differs in its pools only. -/
theorem act_resize (n : Nat) {pools : Pools} (h : s.Stocked) (hp : pools.Keyed) (a : Act) :
    ∃ pools' : Pools, pools'.Keyed ∧ (s.resize n pools).act a = (s.act a).resize n pools' := by
  cases a with
  | accept remote => exact ⟨pools, hp, s.accept_resize n pools remote⟩
  | io k domain data =>
    cases hc : s.connections.get? k with
    | none =>
      refine ⟨pools, hp, ?_⟩
      have hc' : (s.resize n pools).connections.get? k = none := hc
      simp only [act, io, hc, hc']
    | some c =>
      have hc' : (s.resize n pools).connections.get? k = some c := hc
      obtain ⟨-, hconnection, hnotices, hkeyed⟩ := io_resize n h hp hc domain data
      refine ⟨_, hkeyed, ?_⟩
      simp only [act, io, hc, hc']
      exact absorb_resize s n pools hconnection hnotices
  | drop k =>
    cases hc : s.connections.get? k with
    | none =>
      refine ⟨pools, hp, ?_⟩
      have hc' : (s.resize n pools).connections.get? k = none := hc
      simp only [act, dropConnection, hc, hc']
    | some c =>
      have hc' : (s.resize n pools).connections.get? k = some c := hc
      refine ⟨_, hp.putFrames c.reassembly.frames, ?_⟩
      simp only [act, dropConnection, hc, hc']
      rfl
  | send k event => exact ⟨pools, hp, s.send_resize n pools k event⟩
  | receive k => exact ⟨pools, hp, s.receive_resize n pools k⟩
  | dropReceiver k => exact ⟨pools, hp, rfl⟩
  | close k => exact ⟨pools, hp, rfl⟩
  | files files => exact ⟨pools, hp, rfl⟩

theorem calls_resize (n : Nat) {pools : Pools} (h : s.Stocked) (hp : pools.Keyed) (k : SocketId)
    (acts : List Act) : (s.resize n pools).calls k acts = s.calls k acts := by
  induction acts generalizing s pools with
  | nil => rfl
  | cons a acts ih =>
    obtain ⟨pools', hp', he⟩ := act_resize n h hp a
    have hcall : (s.resize n pools).call? k a = s.call? k a := by
      cases hc : s.connections.get? k with
      | none => exact (call?_of_none (s := s.resize n pools) hc a).trans (call?_of_none hc a).symm
      | some c =>
        cases a with
        | io socket domain data =>
          by_cases hk : socket = k
          · subst hk
            have hc' : (s.resize n pools).connections.get? socket = some c := hc
            obtain ⟨hshown, -⟩ := io_resize n h hp hc domain data
            rw [call?_io hc, call?_io hc']
            exact congrArg (fun shown => some (_, shown)) hshown
          · exact (if_neg hk).trans (if_neg hk).symm
        | _ => rfl
    rw [calls, calls, hcall, he, ih (h.act a) hp']

end Resizing

section Start

theorem shown_start (setting : Setting) (n : Nat) (acts : List Act) (k : SocketId) :
    (start (setting.withPoolCapacity n)).shown k acts =
      (Connection.alone setting ((start (setting.withPoolCapacity n)).fed k acts)).map
        (Shown.renumber k) := by
  have h := stocked_start (setting.withPoolCapacity n)
  by_cases hk : k.number < (start (setting.withPoolCapacity n)).nextNumber
  · have hnone := calls_gone h.numbered hk rfl acts
    rw [shown, fed, hnone, List.map_nil, List.map_nil, alone_nil]
    rfl
  · exact calls_alone h rfl (Nat.not_lt.1 hk) acts

/-- Recycling leaks nothing. Whatever happens to a server, the calls of every connection are the
same with pools of any size as without, and two connections that are given the same show the same,
whatever else happens around them, up to the number of the socket. -/
theorem calls_isolated (setting : Setting) :
    (∀ (n : Nat) (acts : List Act) (k : SocketId),
      (start (setting.withPoolCapacity n)).calls k acts =
        (start (setting.withPoolCapacity 0)).calls k acts) ∧
    ∀ (n n' : Nat) (acts acts' : List Act) (k k' : SocketId),
      (start (setting.withPoolCapacity n)).fed k acts =
        (start (setting.withPoolCapacity n')).fed k' acts' →
      ((start (setting.withPoolCapacity n)).shown k acts).map (Shown.renumber k') =
        (start (setting.withPoolCapacity n')).shown k' acts' := by
  constructor
  · intro n acts k
    have hresize : start (setting.withPoolCapacity n) =
        (start (setting.withPoolCapacity 0)).resize n (.empty n) := rfl
    rw [hresize]
    exact calls_resize n (stocked_start _) (Pools.keyed_empty n) k acts
  · intro n n' acts acts' k k' hfed
    rw [shown_start, shown_start, hfed, List.map_map]
    apply List.map_congr_left
    intro shown _
    exact Shown.renumber_renumber k' k shown

/-- A connection that reads with the message of another one, and one that is alone, without
recycling. -/
theorem calls_isolated_second :
    ∃ (setting : Setting) (before : List Act) (a : Act) (acts : List Act) (m : StoredMessage),
      ((start (setting.withPoolCapacity 1)).calls ⟨1⟩ before).length = 1 ∧
      (((start (setting.withPoolCapacity 1)).run before).pools.messages.get
        setting.config.limits.messageConfig).1 = some m ∧
      m ∈ ((start (setting.withPoolCapacity 1)).run before).pools.messages.stack
        setting.config.limits.messageConfig ∧
      ((start (setting.withPoolCapacity 1)).fed ⟨2⟩ (before ++ [a])).length = 1 ∧
      ((start (setting.withPoolCapacity 1)).shown ⟨2⟩ (before ++ [a])).map (Shown.renumber ⟨1⟩) =
        (start (setting.withPoolCapacity 0)).shown ⟨1⟩ acts := by
  let setting : Setting :=
    { config := { limits := { bufferSize := 2, poolCapacity := 1 } }, files := {} }
  let remote : SocketAddress := ⟨.v4 [127, 0, 0, 1], 5000⟩
  let c (k : SocketId) : Connection :=
    { socket := k, buffer := ⟨[0, 0], 0, some 65536⟩
      reassembly := { maxMessageSize := 67108864 } }
  let s : Server := (start (setting.withPoolCapacity 1)).run [.accept remote, .accept remote]
  let s' : Server := (start (setting.withPoolCapacity 0)).run [.accept remote]
  have hn : s.Numbered := (numbered_start _).run _
  have hfirst : s.connections.get? ⟨1⟩ = some (c ⟨1⟩) := rfl
  have hc : s.connections.get? ⟨2⟩ = some (c ⟨2⟩) := rfl
  have hc' : s'.connections.get? ⟨1⟩ = some (c ⟨1⟩) := rfl
  obtain ⟨m, hm, hget⟩ := io_recycles hn rfl rfl hfirst
  let before : List Act := [.accept remote, .accept remote, .io ⟨1⟩ "localhost" [0x47]]
  have hcalled : ((start (setting.withPoolCapacity 1)).calls ⟨1⟩ before).length = 1 := by
    change ((s.call? ⟨1⟩ (.io ⟨1⟩ "localhost" [0x47])).toList ++ []).length = 1
    rw [call?_io hfirst]
    rfl
  have hsecond : (s.act (.io ⟨1⟩ "localhost" [0x47])).connections.get? ⟨2⟩ = some (c ⟨2⟩) :=
    (act_spares hn (by decide)).connection.trans hc
  have hfed : (start (setting.withPoolCapacity 1)).fed ⟨2⟩
      (before ++ [.io ⟨2⟩ "localhost" [0x47]]) = [⟨{}, "localhost", [0x47]⟩] := by
    change (((s.act (.io ⟨1⟩ "localhost" [0x47])).call? ⟨2⟩
      (.io ⟨2⟩ "localhost" [0x47])).toList ++ []).map Prod.fst = _
    rw [call?_io hsecond]
    rfl
  have hfed' : (start (setting.withPoolCapacity 0)).fed ⟨1⟩
      [.accept remote, .io ⟨1⟩ "localhost" [0x47]] = [⟨{}, "localhost", [0x47]⟩] := by
    change ((s'.call? ⟨1⟩ (.io ⟨1⟩ "localhost" [0x47])).toList ++ []).map Prod.fst = _
    rw [call?_io hc']
    rfl
  exact ⟨setting, before, .io ⟨2⟩ "localhost" [0x47], _, m, hcalled, hget,
    hm ▸ List.mem_singleton_self m, congrArg List.length hfed,
    (calls_isolated setting).2 1 0 _ _ ⟨2⟩ ⟨1⟩ (hfed.trans hfed'.symm)⟩

end Start

end Server

end OriginServer
