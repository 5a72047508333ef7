import Wirescript.Netlist.Basic

/-!
# Chains

A straight line of handles inside one statement: execution goes from each to the next, and there are
no jumps.
-/

namespace Wirescript

mutual

/-- The handles of a sequence in order, with sequences inside it opened up. -/
def Handle.parts : Handle → List Handle
  | .multi handles => Handle.partsOf handles
  | .pass => [.pass]
  | .basic entry exits => [.basic entry exits]
  | .goto target => [.goto target]
  | .label l => [.label l]
  | .branch entry fallThrough target jumps => [.branch entry fallThrough target jumps]
  | .rollback => [.rollback]
  | .ret => [.ret]

def Handle.partsOf : List Handle → List Handle
  | [] => []
  | h :: rest => h.parts ++ Handle.partsOf rest

end

/-- Wires from several terminals to one. -/
def wiresTo (target : Terminal) (sources : List Terminal) : List Wire :=
  sources.map fun s ↦ ⟨s, target⟩

structure Chain where
  /-- Where execution enters, once there is a part that has a way in. -/
  entry : Option Terminal := none
  exits : List Terminal := []
  deriving Inhabited

namespace Chain

/-- The wires that join a handle to the end of the chain, and the chain with it. What was joined
before a part that does not belong into a chain stays joined. -/
def appendParts (c : Chain) (wires : List Wire) :
    List Handle → Except Fault Unit × Chain × List Wire
  | [] => (.ok (), c, wires)
  | .pass :: rest => c.appendParts wires rest
  | .basic entry exits :: rest =>
    appendParts ⟨c.entry.or (some entry), exits⟩ (wires ++ wiresTo entry c.exits) rest
  | other :: _ => (.error (.internal (.jumpInChain other)), c, wires)

def append (c : Chain) (h : Handle) : Except Fault Unit × Chain × List Wire :=
  c.appendParts [] h.parts

/-- The chain as one handle. -/
def toHandle (c : Chain) : Handle :=
  match c.entry with
  | some entry => .basic entry c.exits
  | none => .pass

end Chain

end Wirescript
