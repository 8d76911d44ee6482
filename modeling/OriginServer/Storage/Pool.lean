import OriginServer.Table

namespace OriginServer

/-- Objects that a pool can keep for a later owner. -/
class Recyclable (κ : outParam Type) (α : Type) where
  key : α → κ
  /-- A new object, unless there is no room for it. -/
  create : κ → Option α
  /-- The object with all that belongs to its last use removed. -/
  reset : α → α

structure Pool (κ α : Type) where
  perKey : Nat
  slots : Table κ (List α) := []
  deriving Repr

namespace Pool

variable {κ α : Type} [DecidableEq κ] [Recyclable κ α]

/-- A pool that keeps nothing is switched off. -/
def isEnabled (p : Pool κ α) : Bool := 0 < p.perKey

/-- The idle objects of a key, the one that is handed out next first. -/
def stack (p : Pool κ α) (k : κ) : List α := (p.slots.get? k).getD []

def idle (p : Pool κ α) (k : κ) : Nat := (p.stack k).length

/-- Takes the object put last, or a new one. -/
def get (p : Pool κ α) (k : κ) : Option α × Pool κ α :=
  match p.isEnabled, p.stack k with
  | true, a :: rest => (some a, { p with slots := p.slots.insert k rest })
  | _, _ => (Recyclable.create k, p)

/-- Puts an object back. The one put first gives way when there are too many. -/
def put (p : Pool κ α) (a : α) : Pool κ α :=
  if p.isEnabled then
    let a := Recyclable.reset a
    let k := Recyclable.key a
    { p with slots := p.slots.insert k ((a :: p.stack k).take p.perKey) }
  else p

end Pool

end OriginServer
