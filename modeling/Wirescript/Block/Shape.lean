import Wirescript.Wire

/-!
# Block shapes

What kinds of blocks there are to place: a name, and the terminals by which wires reach the block.
-/

namespace Wirescript

inductive BlockKind where
  /-- Runs: has a `Before` input and an `After` output for execution. -/
  | active
  /-- Computes outputs from inputs whenever one of them is read. -/
  | passive
  /-- A source of data without inputs. -/
  | value
  deriving DecidableEq, Repr, Inhabited

def BlockKind.name : BlockKind → String
  | .active => "Active"
  | .passive => "Passive"
  | .value => "Value"

structure TerminalShape where
  name : String
  wire : WireType
  deriving DecidableEq, Repr, Inhabited

/-- Name and wire. -/
def TerminalShape.render (t : TerminalShape) : String := t.name ++ ": " ++ t.wire.name

structure BlockShape where
  name : String
  kind : BlockKind
  inputs : List TerminalShape
  outputs : List TerminalShape
  deriving DecidableEq, Repr, Inhabited

namespace BlockShape

/-- A source with one output. -/
def source (name : String) (output : String × WireType) : BlockShape where
  name := name
  kind := .value
  inputs := []
  outputs := [⟨output.1, output.2⟩]

/-- A computation. -/
def passive (name : String) (inputs outputs : List (String × WireType)) : BlockShape where
  name := name
  kind := .passive
  inputs := inputs.map fun (n, w) ↦ ⟨n, w⟩
  outputs := outputs.map fun (n, w) ↦ ⟨n, w⟩

/-- A block that runs: `Before` comes first among the inputs and `After` among the outputs. -/
def active (name : String) (inputs : List (String × WireType))
    (outputs : List (String × WireType) := []) : BlockShape where
  name := name
  kind := .active
  inputs := ⟨"Before", .void⟩ :: inputs.map fun (n, w) ↦ ⟨n, w⟩
  outputs := ⟨"After", .void⟩ :: outputs.map fun (n, w) ↦ ⟨n, w⟩

end BlockShape

end Wirescript
