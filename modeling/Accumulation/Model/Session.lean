/-
# Accumulation.Model.Session — the session of a game, as the report components read it.

A session is known by its key, the instance and the number of the machine with a dash between them.
An instance may end in a dash and a number may start with one, so two sessions can have one key:
`Clash` says which (`sessionKey_eq_iff`).
-/
import Accumulation.Lib.Decimal

namespace Accumulation.Model

open Accumulation.Lib

structure Session where
  start : Int
  vmid : Int
  instanceId : String
  streamIp : String
  /-- the numbers of `StreamPorts` -/
  streamPorts : List Int
  deriving DecidableEq

/-- `StreamPorts.Contains` -/
def StreamPorts.contains (streamPorts : List Int) (port : String) : Bool :=
  streamPorts.any fun streamPort => toString streamPort == port

/-- `unique` -/
def unique (instanceId : String) (vmid : Int) : String := instanceId ++ "-" ++ toString vmid

namespace Session

def sessionKey (session : Session) : String := unique session.instanceId session.vmid

/-! ## What a key tells -/

/-- The same machine of the same instance. -/
def Same (session other : Session) : Prop :=
  session.instanceId = other.instanceId ∧ session.vmid = other.vmid

/-- One instance is the other with a dash behind it, and the dash is the sign of the other's
number. -/
def Clash (session other : Session) : Prop :=
  (session.instanceId = other.instanceId ++ "-" ∧ 0 < session.vmid ∧ other.vmid = -session.vmid) ∨
    (other.instanceId = session.instanceId ++ "-" ∧ 0 < other.vmid ∧ session.vmid = -other.vmid)

variable {session other : Session}

theorem toList_sessionKey (session : Session) :
    session.sessionKey.toList = session.instanceId.toList ++ '-' :: Decimal.spell session.vmid := by
  rw [sessionKey, unique, String.toList_append, String.toList_append, Decimal.toString_eq_spell,
    List.append_assoc]
  rfl

theorem sessionKey_eq_iff :
    session.sessionKey = other.sessionKey ↔ session.Same other ∨ session.Clash other := by
  have hdash (a b : String) : a = b ++ "-" ↔ a.toList = b.toList ++ ['-'] := by
    rw [← String.toList_inj, String.toList_append]
    rfl
  rw [← String.toList_inj, toList_sessionKey, toList_sessionKey, Decimal.append_spell_inj, Same,
    Clash, hdash, hdash, String.toList_inj]

/-- Sessions that clash are two. -/
theorem Clash.not_same (h : session.Clash other) : ¬ session.Same other := by
  rintro ⟨-, hvmid⟩
  rcases h with ⟨-, hpos, hneg⟩ | ⟨-, hpos, hneg⟩ <;> omega

end Session

end Accumulation.Model
