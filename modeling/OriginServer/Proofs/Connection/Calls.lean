import OriginServer.Proofs.Connection.Delivery

namespace OriginServer

open OriginServer.Http OriginServer.Site OriginServer.WebSocket

/-- A call of a connection, with the idle objects and the files that there are. -/
structure Call where
  pools : Pools
  files : FileSystem
  domain : String
  data : Bytes
  keyed : pools.Keyed

namespace Call

def setting (a : Call) (config : Config) : Setting := { config, files := a.files }

/-- What a call makes of a connection. -/
def turn (a : Call) (config : Config) (c : Connection) : Turn Flow :=
  c.io (a.setting config) a.pools a.domain a.data

end Call

namespace Connection

/-- The turns that calls come to, one after the other, whatever the outcome of each. -/
def turns (config : Config) (c : Connection) : List Call → List (Turn Flow)
  | [] => []
  | a :: later => a.turn config c :: turns config (a.turn config c).connection later

/-- The connection after calls. -/
def after (config : Config) (c : Connection) : List Call → Connection
  | [] => c
  | a :: later => after config (a.turn config c).connection later

/-- What the turns of a kind keep holds after calls that came to such turns. -/
theorem after_invariant {config : Config} {P : Connection → Prop} {Q : Turn Flow → Prop}
    (hstep : ∀ (c : Connection) (a : Call), P c → Q (a.turn config c) →
      P (a.turn config c).connection)
    {c : Connection} {calls : List Call} (hc : P c) (hq : ∀ t ∈ turns config c calls, Q t) :
    P (after config c calls) := by
  induction calls generalizing c with
  | nil => exact hc
  | cons a later ih =>
    obtain ⟨ha, hlater⟩ := List.forall_mem_cons.1 hq
    exact ih (hstep c a hc ha) hlater

variable {setting : Setting} {pools : Pools} {c : Connection}

/-- A call goes on only with a request that is not too long. -/
theorem checkSize_goOn {limit : Nat} {t : Turn Flow} (h : (checkSize limit t).outcome = .ok .goOn) :
    t.outcome = .ok .goOn ∧ (t.connection.protocol = .http → t.connection.pending ≤ limit) := by
  unfold checkSize at h
  split at h
  · rename_i ho
    split at h
    · cases h
    · rename_i hsize
      exact ⟨ho, fun hp => Nat.not_lt.1 fun hlt => hsize ⟨hp, hlt⟩⟩
  · rename_i hne
    exact absurd h hne

/-- Every call leaves a buffer whose bytes are in store. -/
theorem io_sound {domain : String} {data : Bytes} (hb : c.buffer.Sound) (hp : pools.Keyed)
    (hr : setting.config.limits.bufferSize ≤ Buffer.maxStore) :
    (io setting pools c domain data).connection.buffer.Sound := by
  obtain ⟨cause, -, hio⟩ | ⟨bound, hbind, hcases⟩ := io_cases setting pools c domain data
  · rw [hio]
    exact hb
  · obtain ⟨-, name, rfl⟩ := bind_complete hbind
    obtain ⟨cause, -, hio⟩ | ⟨buffer, hpush, hio⟩ := hcases
    · rw [hio]
      exact hb
    · have hsound : buffer.Sound := (Buffer.Sound.push hb hpush).1
      rw [hio, connection_checkSize]
      exact (drain_follows hsound hp hr).2.buffer

/-- A request that makes a new connection a WebSocket. -/
theorem io_upgrade :
    ∃ (setting : Setting) (c : Connection) (request : Bytes) (t : Turn Flow),
      setting = { config := { limits := { bufferSize := 2 } }, files := {} } ∧
      create setting.config.limits ⟨1⟩ = .ok c ∧
      io setting (.empty 32) c "localhost" request = t ∧ t.outcome = .ok .goOn ∧
      t.connection =
        { socket := ⟨1⟩, domain := some "localhost", protocol := .webSocket, isUpgraded := true
          buffer := { threshold := some 65536 }
          reassembly := { maxMessageSize := 67108864 } } := by
  let setting : Setting := { config := { limits := { bufferSize := 2 } }, files := {} }
  let c : Connection :=
    { socket := ⟨1⟩, buffer := ⟨[0, 0], 0, some 65536⟩
      reassembly := { maxMessageSize := 67108864 } }
  let upgraded : Connection :=
    { c with
      domain := some "localhost", protocol := .webSocket, isUpgraded := true
      buffer := { threshold := some 65536 } }
  obtain ⟨request, buffer, hpush, hnext, htaken⟩ :
      ∃ (request : Bytes) (buffer : Buffer), c.buffer.push request = .ok buffer ∧
        let taken := pop setting (.empty 32) { c with domain := some "localhost", buffer }
        taken.outcome = .ok .next ∧ taken.connection = upgraded := by
    let request := Bytes.ofText ("GET / HTTP/1.1\r\nHost: localhost\r\nUpgrade: websocket\r\n" ++
      "Connection: Upgrade\r\nSec-WebSocket-Version: 13\r\n" ++
      "Sec-WebSocket-Key: dGhlIHNhbXBsZSBub25jZQ==\r\n\r\n")
    exact ⟨request, ⟨request, request.length, some 65536⟩, by decide +kernel, by decide +kernel⟩
  have hbind : c.bind "localhost" = .ok { c with domain := some "localhost" } := rfl
  have hio := io_single hbind hpush hnext (by rw [htaken]; rfl) (by rw [htaken])
  exact ⟨setting, c, request, _, rfl, rfl, hio, rfl, htaken⟩

end Connection

end OriginServer
