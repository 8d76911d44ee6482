import Mathlib.Data.List.Induction
import OriginServer.Proofs.Server.Lifecycle

namespace OriginServer

open OriginServer.WebSocket

namespace Server

section Telling

/-- The socket that an act takes on. -/
def newcomer? (s : Server) : Act → Option SocketId
  | .accept remote => (s.accept remote).1.toOption
  | _ => none

/-- The event that an act sends to a socket with success. -/
def taken? (s : Server) (k : SocketId) : Act → Option Event
  | .send socket event =>
    if socket = k ∧ (s.send socket event).1.isOk = true then some event else none
  | _ => none

/-- What an act receives for a socket. -/
def received? (s : Server) (k : SocketId) : Act → List Bytes
  | .receive socket => if socket = k then (s.receive socket).1 else []
  | _ => []

/-- What all that happens to a server adds up to. -/
def gather {α : Type} (f : Server → Act → List α) (s : Server) : List Act → List α
  | [] => []
  | a :: acts => f s a ++ gather f (s.act a) acts

/-- The sockets that are taken on, in their order. -/
def newcomers (s : Server) (acts : List Act) : List SocketId :=
  gather (fun s a => (s.newcomer? a).toList) s acts

/-- The events that are sent to a socket with success, in their order. -/
def sent (s : Server) (k : SocketId) (acts : List Act) : List Event :=
  gather (fun s a => (s.taken? k a).toList) s acts

/-- What is received for a socket, in its order. -/
def received (s : Server) (k : SocketId) (acts : List Act) : List Bytes :=
  gather (fun s a => s.received? k a) s acts

/-- The socket was taken on, and since then it has not come to `ending`. -/
def Lasts (s : Server) (acts : List Act) (k : SocketId) (ending : Act) : Prop :=
  ∃ first a later, acts = first ++ a :: later ∧ (s.run first).newcomer? a = some k ∧
    ending ∉ later

/-- At some time the connection of the socket was a WebSocket. -/
def Switched (s : Server) (acts : List Act) (k : SocketId) : Prop :=
  ∃ first c, first <+: acts ∧ (s.run first).connections.get? k = some c ∧
    c.protocol = .webSocket

theorem gather_concat {α : Type} (f : Server → Act → List α) (s : Server) (acts : List Act)
    (a : Act) : gather f s (acts ++ [a]) = gather f s acts ++ f (s.run acts) a := by
  induction acts generalizing s with
  | nil => exact List.append_nil _
  | cons b acts ih => rw [List.cons_append, gather, gather, ih, List.append_assoc, run_cons]

theorem lasts_nil (s : Server) (k : SocketId) (ending : Act) : ¬ s.Lasts [] k ending := by
  rintro ⟨first, a, later, he, -⟩
  exact List.append_ne_nil_of_right_ne_nil first (List.cons_ne_nil a later) he.symm

theorem lasts_concat {s : Server} {acts : List Act} {a ending : Act} {k : SocketId} :
    s.Lasts (acts ++ [a]) k ending ↔
      (s.run acts).newcomer? a = some k ∨ s.Lasts acts k ending ∧ ending ≠ a := by
  constructor
  · rintro ⟨first, b, later, he, hb, hl⟩
    obtain rfl | ⟨later, last, rfl⟩ := List.eq_nil_or_concat' later
    · obtain ⟨rfl, hab⟩ := List.append_inj' he rfl
      cases hab
      exact .inl hb
    · rw [← List.cons_append, ← List.append_assoc] at he
      obtain ⟨rfl, hab⟩ := List.append_inj' he rfl
      cases hab
      rw [List.mem_append, not_or, List.mem_singleton] at hl
      exact .inr ⟨⟨first, b, later, rfl, hb, hl.1⟩, hl.2⟩
  · rintro (hnew | ⟨⟨first, b, later, rfl, hb, hl⟩, hne⟩)
    · exact ⟨acts, a, [], rfl, hnew, List.not_mem_nil⟩
    · refine ⟨first, b, later ++ [a], List.append_assoc _ _ _, hb, ?_⟩
      rw [List.mem_append, not_or, List.mem_singleton]
      exact ⟨hl, hne⟩

theorem switched_concat {s : Server} {acts : List Act} {a : Act} {k : SocketId} :
    s.Switched (acts ++ [a]) k ↔ s.Switched acts k ∨
      ∃ c, ((s.run acts).act a).connections.get? k = some c ∧ c.protocol = .webSocket := by
  constructor
  · rintro ⟨first, c, hf, hc, hp⟩
    obtain rfl | hf := List.prefix_concat_iff.1 hf
    · rw [run_append] at hc
      exact .inr ⟨c, hc, hp⟩
    · exact .inl ⟨first, c, hf, hc, hp⟩
  · rintro (⟨first, c, hf, hc, hp⟩ | ⟨c, hc, hp⟩)
    · exact ⟨first, c, hf.trans (List.prefix_append _ _), hc, hp⟩
    · refine ⟨acts ++ [a], c, List.prefix_refl _, ?_, hp⟩
      rw [run_append]
      exact hc

end Telling

section Numbers

variable {s : Server} {k : SocketId} {a : Act}

/-- A socket that is taken on has the next number. -/
theorem newcomer?_eq_some (h : s.newcomer? a = some k) :
    a.isAccept = true ∧ k = ⟨s.nextNumber⟩ := by
  cases a with
  | accept remote =>
    obtain ⟨cause, he⟩ | ⟨c, -, he⟩ := s.accept_cases remote
    · rw [newcomer?, he] at h
      cases h
    · rw [newcomer?, he] at h
      cases h
      exact ⟨rfl, rfl⟩
  | _ => cases h

/-- Sockets are numbered in the order in which they come, without going beyond their count. -/
theorem newcomers_ascending (s : Server) (acts : List Act) :
    (s.newcomers acts).Pairwise (fun j k => j.number < k.number) ∧
      ∀ k ∈ s.newcomers acts,
        s.nextNumber ≤ k.number ∧ k.number < s.nextNumber + acts.countP Act.isAccept := by
  induction acts generalizing s with
  | nil => exact ⟨List.Pairwise.nil, List.forall_mem_nil _⟩
  | cons a acts ih =>
    obtain ⟨hpairs, hbounds⟩ := ih (s.act a)
    have hnext := s.nextNumber_act a
    have hcount := List.countP_cons (p := Act.isAccept) (a := a) (l := acts)
    have hlater : ∀ k ∈ (s.act a).newcomers acts,
        s.nextNumber ≤ k.number ∧ k.number < s.nextNumber + (a :: acts).countP Act.isAccept := by
      intro k hk
      have hb := hbounds k hk
      omega
    have hcons : s.newcomers (a :: acts) =
        (s.newcomer? a).toList ++ (s.act a).newcomers acts := rfl
    rw [hcons]
    cases hnew : s.newcomer? a with
    | none => exact ⟨hpairs, hlater⟩
    | some k =>
      obtain ⟨haccept, rfl⟩ := newcomer?_eq_some hnew
      rw [if_pos haccept] at hnext hcount
      refine ⟨List.pairwise_cons.2 ⟨fun j hj => ?_, hpairs⟩,
        List.forall_mem_cons.2 ⟨⟨Nat.le_refl _, ?_⟩, hlater⟩⟩
      · have hb := hbounds j hj
        dsimp only
        omega
      · dsimp only
        omega

end Numbers

section Entries

variable {s : Server} {k : SocketId} {a : Act}

/-- A peer is there from the time when its socket is taken on until it is closed. -/
theorem isSome_peer_act :
    ((s.act a).peers.get? k).isSome = true ↔
      s.newcomer? a = some k ∨ (s.peers.get? k).isSome = true ∧ Act.close k ≠ a := by
  have hkept {s' : Server} (hnew : s.newcomer? a = none)
      (hp : (s'.peers.get? k).isSome = (s.peers.get? k).isSome) (hclose : Act.close k ≠ a) :
      (s'.peers.get? k).isSome = true ↔
        s.newcomer? a = some k ∨ (s.peers.get? k).isSome = true ∧ Act.close k ≠ a := by
    simp [hnew, hp, hclose]
  cases a with
  | accept remote =>
    obtain ⟨cause, he⟩ | ⟨c, -, he⟩ := s.accept_cases remote
    · rw [act, he]
      exact hkept (by rw [newcomer?, he]; rfl) rfl (by simp)
    · have hnew : s.newcomer? (.accept remote) = some ⟨s.nextNumber⟩ := by
        rw [newcomer?, he]
        rfl
      rw [act, he, hnew]
      dsimp only
      by_cases hk : k = ⟨s.nextNumber⟩
      · subst hk
        simp [Table.get?_insert_self]
      · simp [Table.get?_insert_of_ne _ _ hk, Ne.symm hk]
  | io socket domain data =>
    obtain ⟨-, he⟩ | ⟨c, -, he⟩ := s.io_cases socket domain data
    · rw [act, he]
      exact hkept rfl rfl (by simp)
    · rw [act, he]
      refine hkept rfl ?_ (by simp)
      unfold absorb
      dsimp only
      split
      · by_cases hk : k = (c.io s.setting s.pools domain data).connection.socket
        · rw [← hk, Table.get?_modify_self, Option.isSome_map]
        · rw [Table.get?_modify_of_ne _ _ hk]
      · rfl
  | drop socket =>
    obtain ⟨-, he⟩ | ⟨c, -, he⟩ := s.drop_cases socket
    all_goals
      rw [act, he]
      exact hkept rfl rfl (by simp)
  | send socket event =>
    obtain ⟨_, he⟩ | ⟨_, _, -, -, -, he⟩ := s.send_cases socket event
    all_goals
      rw [act, he]
      exact hkept rfl rfl (by simp)
  | receive socket =>
    obtain he | ⟨_, -, he⟩ := s.receive_cases socket
    all_goals
      rw [act, he]
      exact hkept rfl rfl (by simp)
  | dropReceiver socket => exact hkept rfl rfl (by simp)
  | close socket =>
    by_cases hk : k = socket
    · subst hk
      simp [act, close, Table.get?_erase_self, newcomer?]
    · refine hkept rfl ?_ fun h => hk (Act.close.inj h)
      exact congrArg Option.isSome (Table.get?_erase_of_ne _ hk)
  | files files => exact hkept rfl rfl (by simp)

/-- A queue is there from the time when its socket is taken on until it is read no more. -/
theorem isSome_queue_act :
    ((s.act a).outbound.get? k).isSome = true ↔
      s.newcomer? a = some k ∨ (s.outbound.get? k).isSome = true ∧ Act.dropReceiver k ≠ a := by
  by_cases hq : s.queued? a = some k
  · cases a with
    | accept remote =>
      cases hq
      obtain ⟨cause, he⟩ | ⟨c, -, he⟩ := s.accept_cases remote
      · rw [act, newcomer?, he]
        simp [Except.toOption]
      · rw [act, newcomer?, he]
        simp [Except.toOption, Table.get?_insert_self]
    | send socket event =>
      cases hq
      obtain ⟨_, he⟩ | ⟨_, queue, -, -, hk, he⟩ := s.send_cases k event
      · rw [act, he]
        simp [newcomer?]
      · rw [act, he]
        simp [newcomer?, Table.get?_insert_self, hk]
    | receive socket =>
      cases hq
      obtain he | ⟨queue, hk, he⟩ := s.receive_cases k
      · rw [act, he]
        simp [newcomer?]
      · rw [act, he]
        simp [newcomer?, Table.get?_insert_self, hk]
    | dropReceiver socket =>
      cases hq
      simp [act, dropReceiver, newcomer?, Table.get?_erase_self]
    | _ => cases hq
  · have hnew : s.newcomer? a ≠ some k := by
      intro h
      obtain ⟨haccept, rfl⟩ := newcomer?_eq_some h
      cases a with
      | accept remote => exact hq rfl
      | _ => cases haccept
    have hdrop : Act.dropReceiver k ≠ a := by
      rintro rfl
      exact hq rfl
    rw [queue_act hq]
    simp [hnew, hdrop]

/-- Without its connection, a peer stays as it is. -/
theorem peer_act_of_none (h : s.Numbered) (hc : (s.act a).connections.get? k = none) {p : Peer}
    (hp : (s.act a).peers.get? k = some p) : s.peers.get? k = some p := by
  by_cases ha : s.called? a = some k
  · cases a with
    | accept remote =>
      cases ha
      obtain ⟨cause, he⟩ | ⟨c, -, he⟩ := s.accept_cases remote
      · rw [act, he] at hp
        exact hp
      · rw [act, he] at hc
        cases (Table.get?_insert_self _ _ _).symm.trans hc
    | io socket domain data =>
      cases ha
      cases hb : s.connections.get? k with
      | none =>
        rw [act, io, hb] at hp
        exact hp
      | some before =>
        cases (connection_io h hb domain data).2.symm.trans hc
    | drop socket =>
      cases ha
      obtain ⟨-, he⟩ | ⟨_, -, he⟩ := s.drop_cases k
      all_goals
        rw [act, he] at hp
        exact hp
    | _ => cases ha
  · exact (act_spares h ha).peer p hp

end Entries

section Records

variable {setting : Setting} {acts : List Act} {k : SocketId}

theorem isSome_peer_run :
    (((start setting).run acts).peers.get? k).isSome = true ↔
      (start setting).Lasts acts k (.close k) := by
  induction acts using List.reverseRecOn with
  | nil => exact iff_of_false Bool.false_ne_true (lasts_nil _ _ _)
  | append_singleton acts a ih =>
    rw [run_append, lasts_concat, ← ih]
    exact isSome_peer_act

theorem isSome_queue_run :
    (((start setting).run acts).outbound.get? k).isSome = true ↔
      (start setting).Lasts acts k (.dropReceiver k) := by
  induction acts using List.reverseRecOn with
  | nil => exact iff_of_false Bool.false_ne_true (lasts_nil _ _ _)
  | append_singleton acts a ih =>
    rw [run_append, lasts_concat, ← ih]
    exact isSome_queue_act

/-- A connection that is there has switched protocols just when it is a WebSocket. -/
theorem switched_iff {c : Connection}
    (hc : ((start setting).run acts).connections.get? k = some c) :
    (start setting).Switched acts k ↔ c.protocol = .webSocket := by
  constructor
  · rintro ⟨first, before, ⟨later, rfl⟩, hb, hp⟩
    rw [run_append] at hc
    exact webSocket_run (sound_run setting first).numbered hb hp later hc
  · exact fun hp => ⟨acts, c, List.prefix_refl _, hc, hp⟩

/-- The flag of a peer tells whether its connection has switched protocols, also when the
connection is gone. -/
theorem isUpgraded_run {p : Peer} (hp : ((start setting).run acts).peers.get? k = some p) :
    p.isUpgraded = true ↔ (start setting).Switched acts k := by
  induction acts using List.reverseRecOn with
  | nil => cases hp
  | append_singleton acts a ih =>
    cases hc : ((start setting).run (acts ++ [a])).connections.get? k with
    | some c =>
      have hliving := (sound_run setting (acts ++ [a])).living k c hc
      rw [switched_iff hc, hliving.peer p hp]
      exact hliving.told.isUpgraded_iff.symm
    | none =>
      rw [run_append] at hp hc
      have hnone : ¬ ∃ c, (((start setting).run acts).act a).connections.get? k = some c ∧
          c.protocol = .webSocket := by
        rintro ⟨c, hsome, -⟩
        cases hc.symm.trans hsome
      rw [ih (peer_act_of_none (sound_run setting acts).numbered hc hp), switched_concat,
        or_iff_left hnone]

end Records

section Queues

/-- The queue of a socket is what was sent to it and not yet received. -/
structure Queued (s : Server) (k : SocketId) (size : Nat) (sent : List Event)
    (received : List Bytes) : Prop where
  fresh : s.nextNumber ≤ k.number → sent = [] ∧ received = []
  queue : ∀ queue, s.outbound.get? k = some queue →
    received ++ queue = sent.map fun e => messageBytes .text e.write size
  front : received <+: sent.map fun e => messageBytes .text e.write size

variable {s s' : Server} {k : SocketId} {size : Nat} {sent : List Event} {received : List Bytes}

theorem Queued.congr (h : s.Queued k size sent received) (hn : s.nextNumber ≤ s'.nextNumber)
    (hq : s'.outbound.get? k = s.outbound.get? k) : s'.Queued k size sent received :=
  ⟨fun hk => h.fresh (Nat.le_trans hn hk), fun queue h' => h.queue queue (hq ▸ h'), h.front⟩

/-- What an act adds to the queue of a socket was sent, and what it takes off was received. -/
theorem Queued.act (h : s.Queued k size sent received) (hs : s.Numbered)
    (hsize : s.setting.config.limits.messageChunkSize = size) (a : Act) :
    (s.act a).Queued k size (sent ++ (s.taken? k a).toList) (received ++ s.received? k a) := by
  by_cases hq : s.queued? a = some k
  · cases a with
    | accept remote =>
      cases hq
      obtain ⟨hsent, hreceived⟩ := h.fresh (Nat.le_refl _)
      subst hsent hreceived
      obtain ⟨cause, he⟩ | ⟨c, -, he⟩ := s.accept_cases remote
      · rw [Server.act, he]
        exact h.congr (Nat.le_succ _) rfl
      · rw [Server.act, he]
        refine ⟨fun _ => ⟨rfl, rfl⟩, fun queue hqueue => ?_, h.front⟩
        rw [Table.get?_insert_self] at hqueue
        exact (Option.some.inj hqueue).symm
    | send socket event =>
      cases hq
      obtain ⟨cause, he⟩ | ⟨p, queue, hp, -, hk, he⟩ := s.send_cases k event
      · have htaken : s.taken? k (.send k event) = none := by
          rw [taken?, he]
          exact if_neg fun h => Bool.false_ne_true h.2
        have hreceived : s.received? k (.send k event) = [] := rfl
        rw [Server.act, he, htaken, hreceived, Option.toList_none, List.append_nil,
          List.append_nil]
        exact h
      · have htaken : s.taken? k (.send k event) = some event := by
          rw [taken?, he]
          exact if_pos ⟨rfl, rfl⟩
        have hreceived : s.received? k (.send k event) = [] := rfl
        have hwaits : received ++ (queue ++ [messageBytes .text event.write size]) =
            (sent ++ [event]).map fun e => messageBytes .text e.write size := by
          rw [← List.append_assoc, h.queue queue hk, List.map_append, List.map_singleton]
        rw [Server.act, he, htaken, hreceived, Option.toList_some, List.append_nil, hsize]
        refine ⟨fun hn => absurd (hs.peer k p hp) (Nat.not_lt.2 hn), fun queue' hqueue => ?_, ?_⟩
        · rw [Table.get?_insert_self] at hqueue
          rw [← Option.some.inj hqueue, hwaits]
        · rw [← hwaits]
          exact List.prefix_append _ _
    | receive socket =>
      cases hq
      have htaken : s.taken? k (.receive k) = none := rfl
      rw [Server.act, received?, if_pos rfl, htaken, Option.toList_none, List.append_nil]
      obtain he | ⟨queue, hk, he⟩ := s.receive_cases k
      · rw [he, List.append_nil]
        exact h
      · have hall := h.queue queue hk
        rw [he]
        refine ⟨fun hn => absurd (hs.queue k queue hk) (Nat.not_lt.2 hn), fun queue' hqueue => ?_,
          hall ▸ List.prefix_refl _⟩
        rw [Table.get?_insert_self] at hqueue
        rw [← Option.some.inj hqueue, List.append_nil]
        exact hall
    | dropReceiver socket =>
      cases hq
      have htaken : s.taken? k (.dropReceiver k) = none := rfl
      have hreceived : s.received? k (.dropReceiver k) = [] := rfl
      rw [htaken, hreceived, Option.toList_none, List.append_nil, List.append_nil]
      refine ⟨h.fresh, fun queue hqueue => ?_, h.front⟩
      cases (Table.get?_erase_self _ _).symm.trans hqueue
    | _ => cases hq
  · have htaken : s.taken? k a = none := by
      cases a with
      | send socket event => exact if_neg fun h => hq (congrArg some h.1)
      | _ => rfl
    have hreceived : s.received? k a = [] := by
      cases a with
      | receive socket => exact if_neg fun h => hq (congrArg some h)
      | _ => rfl
    rw [htaken, hreceived, Option.toList_none, List.append_nil, List.append_nil]
    exact h.congr (s.nextNumber_le_act a) (queue_act hq)

theorem queued_run (setting : Setting) (k : SocketId) (acts : List Act) :
    ((start setting).run acts).Queued k setting.config.limits.messageChunkSize
      ((start setting).sent k acts) ((start setting).received k acts) := by
  induction acts using List.reverseRecOn with
  | nil => exact ⟨fun _ => ⟨rfl, rfl⟩, nofun, List.nil_prefix⟩
  | append_singleton acts a ih =>
    unfold Server.sent Server.received at ih ⊢
    rw [run_append, gather_concat, gather_concat]
    exact ih.act (sound_run setting acts).numbered (chunkSize_run setting acts) a

end Queues

section Answers

variable {setting : Setting} {acts : List Act} {s : Server}

/-- What becomes of an event that is sent, by what has happened to its socket. -/
theorem send_told (hs : s = (start setting).run acts) (k : SocketId) (event : Event) :
    (¬ (start setting).Lasts acts k (.close k) ∧
      s.send k event = (.error (.unknownSocket k), s)) ∨
    ((start setting).Lasts acts k (.close k) ∧ ¬ (start setting).Switched acts k ∧
      s.send k event = (.error (.notUpgraded k), s)) ∨
    ((start setting).Lasts acts k (.close k) ∧ (start setting).Switched acts k ∧
      ¬ (start setting).Lasts acts k (.dropReceiver k) ∧
      s.send k event = (.error (.closed k), s)) ∨
    ((start setting).Lasts acts k (.close k) ∧ (start setting).Switched acts k ∧
      (start setting).Lasts acts k (.dropReceiver k) ∧
      ∃ queue, s.outbound.get? k = some queue ∧
        s.send k event = (.ok (),
          { s with
            outbound := s.outbound.insert k
              (queue ++ [messageBytes .text event.write
                setting.config.limits.messageChunkSize]) })) := by
  subst hs
  rw [← isSome_peer_run, ← isSome_queue_run]
  cases hp : ((start setting).run acts).peers.get? k with
  | none =>
    refine .inl ⟨Bool.false_ne_true, ?_⟩
    rw [send, hp]
  | some p =>
    rw [← isUpgraded_run hp]
    cases hu : p.isUpgraded with
    | false =>
      refine .inr (.inl ⟨rfl, Bool.false_ne_true, ?_⟩)
      simp only [send, hp, hu, Bool.not_false, if_true]
    | true =>
      cases hq : ((start setting).run acts).outbound.get? k with
      | none =>
        refine .inr (.inr (.inl ⟨rfl, rfl, Bool.false_ne_true, ?_⟩))
        simp only [send, hp, hu, hq, Bool.not_true, Bool.false_eq_true, if_false]
      | some queue =>
        refine .inr (.inr (.inr ⟨rfl, rfl, rfl, queue, rfl, ?_⟩))
        simp only [send, hp, hu, hq, chunkSize_run, Bool.not_true, Bool.false_eq_true, if_false]

/-- Whatever has happened to a server, no two sockets have had the same number, and none has a
number beyond their count. An event can be sent to a socket just when the socket was taken on and
not closed since, its connection has switched protocols, and its queue is still read. The message is
then put behind that queue, and no other queue changes; otherwise nothing changes, and the first
condition that fails is reported. So what was received for a socket, with what waits for it, is all
that was sent to it with success, in order. -/
theorem sends_reach (hs : s = (start setting).run acts) :
    ((start setting).newcomers acts).Nodup ∧
    (∀ k ∈ (start setting).newcomers acts, k.number ≤ acts.countP Act.isAccept) ∧
    (∀ k event,
      ((s.send k event).1 = .ok () ↔
        (start setting).Lasts acts k (.close k) ∧ (start setting).Switched acts k ∧
          (start setting).Lasts acts k (.dropReceiver k)) ∧
      ((s.send k event).1 = .ok () →
        ∃ queue, s.outbound.get? k = some queue ∧
          (s.send k event).2 =
            { s with
              outbound := s.outbound.insert k
                (queue ++ [messageBytes .text event.write
                  setting.config.limits.messageChunkSize]) } ∧
          ∀ j ≠ k, (s.send k event).2.outbound.get? j = s.outbound.get? j) ∧
      ∀ cause, (s.send k event).1 = .error cause →
        (s.send k event).2 = s ∧
          ((¬ (start setting).Lasts acts k (.close k) ∧ cause = .unknownSocket k) ∨
            ((start setting).Lasts acts k (.close k) ∧ ¬ (start setting).Switched acts k ∧
              cause = .notUpgraded k) ∨
            ((start setting).Lasts acts k (.close k) ∧ (start setting).Switched acts k ∧
              ¬ (start setting).Lasts acts k (.dropReceiver k) ∧ cause = .closed k))) ∧
    ∀ k,
      (start setting).received k acts <+:
        ((start setting).sent k acts).map
          (fun e => messageBytes .text e.write setting.config.limits.messageChunkSize) ∧
      ∀ queue, s.outbound.get? k = some queue →
        (start setting).received k acts ++ queue =
          ((start setting).sent k acts).map
            fun e => messageBytes .text e.write setting.config.limits.messageChunkSize := by
  obtain ⟨hpairs, hbounds⟩ := newcomers_ascending (start setting) acts
  refine ⟨?_, fun k hk => ?_, fun k event => ?_, fun k => ?_⟩
  · exact hpairs.imp fun hlt he => Nat.ne_of_lt hlt (congrArg SocketId.number he)
  · have hlt : k.number < 1 + acts.countP Act.isAccept := (hbounds k hk).2
    omega
  · obtain ⟨hopen, he⟩ | ⟨hopen, hswitched, he⟩ | ⟨hopen, hswitched, hread, he⟩ |
      ⟨hopen, hswitched, hread, queue, hq, he⟩ := send_told hs k event
    · rw [he]
      refine ⟨iff_of_false nofun fun h => hopen h.1, nofun, fun cause hcause => ⟨rfl, ?_⟩⟩
      exact .inl ⟨hopen, (Except.error.inj hcause).symm⟩
    · rw [he]
      refine ⟨iff_of_false nofun fun h => hswitched h.2.1, nofun, fun cause hcause => ⟨rfl, ?_⟩⟩
      exact .inr (.inl ⟨hopen, hswitched, (Except.error.inj hcause).symm⟩)
    · rw [he]
      refine ⟨iff_of_false nofun fun h => hread h.2.2, nofun, fun cause hcause => ⟨rfl, ?_⟩⟩
      exact .inr (.inr ⟨hopen, hswitched, hread, (Except.error.inj hcause).symm⟩)
    · rw [he]
      refine ⟨iff_of_true rfl ⟨hopen, hswitched, hread⟩, fun _ => ⟨queue, hq, rfl, ?_⟩, nofun⟩
      exact fun j hj => Table.get?_insert_of_ne _ _ hj
  · subst hs
    have hqueued := queued_run setting k acts
    exact ⟨hqueued.front, hqueued.queue⟩

/-- An event that is sent to the first client, once its connection is a WebSocket. -/
theorem sends_reach_hello :
    ∃ (setting : Setting) (acts : List Act) (s : Server) (queue : List Bytes),
      s = (start setting).run acts ∧ acts.length = 2 ∧
      (s.send ⟨1⟩ { event := "hello" }).1 = .ok () ∧
      (s.send ⟨1⟩ { event := "hello" }).2.outbound.get? ⟨1⟩ =
        some (queue ++ [messageBytes .text (Event.write { event := "hello" })
          setting.config.limits.messageChunkSize]) := by
  obtain ⟨setting, remote, server, request, t, haccept, hio, -, hsocket, -, hprotocol, -⟩ :=
    io_upgrade
  let acts : List Act := [.accept remote, .io ⟨1⟩ "localhost" request]
  have hnew : ((start setting).run []).newcomer? (.accept remote) = some ⟨1⟩ :=
    congrArg (fun answer => answer.1.toOption) haccept
  have hlasts (ending : Act) (h : ending ∉ [.io ⟨1⟩ "localhost" request]) :
      (start setting).Lasts acts ⟨1⟩ ending :=
    ⟨[], .accept remote, [.io ⟨1⟩ "localhost" request], rfl, hnew, h⟩
  have hconnection : ((start setting).run acts).connections.get? ⟨1⟩ = some t.connection := by
    change (Server.io ((start setting).accept remote).2 ⟨1⟩ "localhost" request).2.connections.get?
      ⟨1⟩ = _
    rw [haccept, hio, absorb, hsocket]
    exact Table.get?_insert_self _ _ _
  obtain ⟨-, -, hsend, -⟩ :=
    sends_reach (show (start setting).run acts = (start setting).run acts from rfl)
  obtain ⟨hiff, happend, -⟩ := hsend ⟨1⟩ { event := "hello" }
  have hok := hiff.2 ⟨hlasts _ (by simp), ⟨acts, _, List.prefix_refl _, hconnection, hprotocol⟩,
    hlasts _ (by simp)⟩
  obtain ⟨queue, -, he, -⟩ := happend hok
  refine ⟨setting, acts, _, queue, rfl, rfl, hok, ?_⟩
  rw [he]
  exact Table.get?_insert_self _ _ _

end Answers

end Server

end OriginServer
