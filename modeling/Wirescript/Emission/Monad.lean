import Wirescript.Diagnostic
import Wirescript.Netlist.Chain
import Wirescript.Netlist.Placement
import Wirescript.Notice
import Wirescript.Program.Basic

/-!
# The state of emission

Emission walks the statements of prepared routines and places blocks, fills their slots and wires
them. All that it has done so far is one value, the `Emitter`, and is kept when it stops. What it
remembers within a routine saves blocks: a vector that was taken apart, the value of an inline
variable, the element that was stored last.

It stops for two reasons. A complaint is about the script: the statement is left out and emission
goes on. A fault ends it.
-/

namespace Wirescript

/-- A block that takes a variable apart, with how often each of its outputs has been used. -/
structure BreakCache where
  outputs : Triple Terminal
  uses : Triple Nat := .splat 0
  deriving DecidableEq, Repr, Inhabited

/-- One more use of an output, if it has been used less often than the limit. -/
def BreakCache.take? (c : BreakCache) (axis : Axis) (limit : Nat) : Option (Terminal × BreakCache) :=
  if c.uses.get axis < limit then
    some (c.outputs.get axis, { c with uses := c.uses.set axis (c.uses.get axis + 1) })
  else
    none

/-- Where the value of an expression comes from. Without a terminal it is the default of its type,
which is what an input without a wire reads; the null object travels that way. -/
abbrev Feed := Option Terminal

/-- What an inline variable stands for. -/
structure InlineValue where
  feed : Feed
  reads : Nat := 0
  deriving DecidableEq, Repr, Inhabited

/-- The element of an array that was stored last, so that a store to the next one can start there. -/
structure ListCursor where
  array : Variable
  index : Float32
  /-- The element; none when it was stored through the array variable itself. -/
  element : Option Terminal
  deriving DecidableEq, Repr, Inhabited

structure Emitter where
  options : EmitOptions := {}
  placement : Placement := {}
  netlist : Netlist := {}
  diagnostics : Diagnostics := []
  notices : List Notice := []
  /-- Where execution enters the routines that are done; none for one that places no block. -/
  entries : Table Routine (Option Terminal) := {}
  /-- The terminals that call each routine. -/
  calls : Table Routine (List Terminal) := {}
  breaks : Table Variable BreakCache := {}
  inlines : Table Variable InlineValue := {}
  cursor : Option ListCursor := none
  highlightDepth : Nat := 0
  deriving Inhabited

/-- Why the emission of a statement stops. -/
inductive Stop where
  | complaint (diagnostic : Diagnostic)
  | fault (fault : Fault)

/-- Emission of a part of a statement. -/
abbrev Emit := ExceptT Stop (StateM Emitter)

/-- Emission of whole statements, which only a fault stops. -/
abbrev Assemble := ExceptT Fault (StateM Emitter)

instance : MonadLift (Except Fault) Emit where
  monadLift r := match r with
    | .ok a => pure a
    | .error f => throw (.fault f)

instance : MonadLift Assemble Emit where
  monadLift a := ExceptT.mk do
    match ← a.run with
    | .ok a => return .ok a
    | .error f => return .error (.fault f)

namespace Emit

/-! ### Placing and wiring -/

def complain {α : Type} (complaint : Complaint) (span : Span) : Emit α :=
  throw (.complaint (.error complaint span))

def breach {α : Type} (b : Breach) : Emit α := throw (.fault (.internal b))

/-- Places a block. It is highlighted between marks that say so. -/
def place (shape : BlockShape) : Emit Block := modifyGet fun s ↦
  let (block, placement) := s.placement.place shape
  (block, { s with
    placement := placement
    netlist := if 0 < s.highlightDepth then s.netlist.highlight block.id else s.netlist })

def setValue (block : Block) (slot : Nat) (value : BlockValue) : Emit Unit := modify fun s ↦
  { s with netlist := s.netlist.setValue block.id slot value }

def connect (source target : Terminal) : Emit Unit := modify fun s ↦
  { s with netlist := s.netlist.connect ⟨source, target⟩ }

/-- Wires an input, unless it is to read the default. -/
def feed (source : Feed) (target : Terminal) : Emit Unit :=
  match source with
  | some t => connect t target
  | none => return

/-- Wires the inputs of a block in order, from a position on. -/
def feedAll (block : Block) : Nat → List Feed → Emit Unit
  | _, [] => return
  | i, source :: rest => do
    feed source (← block.inputAt i)
    feedAll block (i + 1) rest

/-- Joins a handle to a chain. -/
def append (chain : Chain) (h : Handle) : Emit Chain := do
  let (outcome, chain, wires) := chain.append h
  modify fun s ↦ { s with netlist := s.netlist.connectAll wires }
  outcome
  return chain

/-- The handle of a block that runs and then goes on. -/
def active (block : Block) : Emit Handle := do
  let entry ← block.before
  let exit ← block.after
  return .basic entry [exit]

/-- Groups the blocks that are placed by an action, also if it stops. -/
def inExpression {α : Type} (a : Emit α) : Emit α := ExceptT.mk do
  modify fun s ↦ { s with placement := s.placement.enterExpression }
  let outcome ← a.run
  modify fun s ↦ { s with placement := s.placement.exitExpression }
  return outcome

/-- Leaves a statement out that there is a complaint about. -/
def attempt (a : Emit Handle) : Assemble Handle := ExceptT.mk do
  match ← a.run with
  | .ok h => return .ok h
  | .error (.fault f) => return .error f
  | .error (.complaint d) =>
    modify fun s ↦ { s with diagnostics := s.diagnostics ++ [d] }
    return .ok .pass

end Emit

end Wirescript
