import Wirescript.Emission.Statement
import Wirescript.Netlist.Connector

/-!
# Emission of programs

Emits routine after routine and wires the calls between them at the end.
-/

namespace Wirescript

namespace Assemble

/-- Emits statements and joins them in order. -/
def join (routine : Routine) : Connector → List Stmt → Assemble Connector
  | c, [] => return c
  | c, s :: rest => do
    let h ← Emit.attempt (Emit.stmt routine s)
    let (c, wires) := c.push h
    modify fun s ↦ { s with netlist := s.netlist.connectAll wires }
    join routine c rest

/-- Wires the jumps of a routine and reports loops without a block at its span. -/
def close (c : Connector) (span : Span) : Assemble (Option Terminal) := do
  let (outcome, closing) := c.finish
  modify fun s ↦ { s with
    netlist := s.netlist.connectAll closing.wires
    notices := s.notices ++ closing.notices }
  let entry ← outcome
  modify fun s ↦ { s with
    diagnostics := s.diagnostics
      ++ closing.emptyLoops.map fun l ↦ .warning (.emptyLoop l.name) span }
  return entry

/-- Emits a routine. What was remembered within another one is forgotten first. -/
def routine (r : Routine) (body : Stmt) : Assemble Unit := do
  modify fun s ↦ { s with breaks := {}, inlines := {}, cursor := none, highlightDepth := 0 }
  let before := (← get).placement.blocks.length
  let c ← join r { routine := r.name } body.items
  let entry ← close c body.span
  modify fun s ↦ { s with
    entries := s.entries.insert r entry
    notices := s.notices ++ [.emitted r.name (s.placement.blocks.length - before)] }

/-- Wires the calls of each routine in turn. -/
def calls : List (Routine × List Terminal) → Assemble Unit
  | [] => return
  | (r, sources) :: rest => do
    match (← get).entries.get? r with
    | none => throw (.missingCallee r.name)
    | some entry =>
      modify fun s ↦ { s with
        netlist := s.netlist.connectAll ((entry.map fun t ↦ wiresTo t sources).getD []) }
    calls rest

def routines : List (Routine × Stmt) → Assemble Unit
  | [] => return
  | (r, body) :: rest => do
    routine r body
    routines rest

/-- Emits all routines of a program and wires the calls between them. -/
def program (bodies : Bodies) : Assemble Unit := do
  routines bodies.entries
  calls (← get).calls.entries
  modify fun s ↦ { s with
    calls := {}
    notices := s.notices
      ++ [.emittedAll bodies.size s.placement.blocks.length s.diagnostics.length] }

end Assemble

/-- Emits a program. The answer is the fault that stopped it, if any, and all that was done. -/
def Bodies.emit (bodies : Bodies) (options : EmitOptions) : Except Fault Unit × Emitter :=
  (Assemble.program bodies).run { options := options }

end Wirescript
