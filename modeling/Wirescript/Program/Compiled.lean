import Wirescript.Emission.Program
import Wirescript.Program.Prepared

/-!
# Compilation

From a program to the blocks and wires of a level.
-/

namespace Wirescript

structure Compilation where
  diagnostics : Diagnostics
  /-- The routines that were emitted, the entry first. -/
  bodies : Bodies := {}
  placement : Placement := {}
  netlist : Netlist := {}
  deriving Inhabited

def Compilation.hasErrors (c : Compilation) : Bool := c.diagnostics.hasErrors

namespace Program

/-- Emits prepared routines. -/
def emitted (bodies : Bodies) (options : EmitOptions) : Work Emitter := do
  let (outcome, emitter) := bodies.emit options
  modify (· ++ emitter.notices)
  outcome
  return emitter

/-- Compiles a program. Nothing is done to one whose analysis found errors. -/
def compile (p : Program) (analysis : Analysis) (options : Options) : Work Compilation := do
  if analysis.diagnostics.hasErrors then
    return { diagnostics := analysis.diagnostics }
  let bodies ← p.prepare analysis options.inlining
  let emitter ← emitted bodies options.emit
  let diagnostics := analysis.diagnostics ++ emitter.diagnostics
  Work.note (.compiled p.entry.name bodies.size diagnostics.length)
  return {
    diagnostics := diagnostics
    bodies := bodies
    placement := emitter.placement
    netlist := emitter.netlist }

end Program

end Wirescript
