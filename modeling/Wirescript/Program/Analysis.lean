import Wirescript.Notice
import Wirescript.Program.CallGraph
import Wirescript.Program.Scope

/-!
# Analysis of whole programs

What is known about a program before anything is done to it: who calls whom, and which names stand
for what. It decides which routines are worth a copy at each call.
-/

namespace Wirescript

structure Analysis where
  entry : Routine
  calls : CallGraph
  scopes : Table Routine ScopeTree
  /-- The routines that call themselves, directly or not. -/
  recursive : List Routine
  diagnostics : Diagnostics
  deriving Inhabited

def Program.analyze (p : Program) : Analysis :=
  let calls := CallGraph.ofBodies p.bodies
  let scopings := p.bodies.entries.map fun (r, body) ↦ (r, Scoping.ofBody r body)
  { entry := p.entry
    calls := calls
    scopes := ⟨scopings.map fun (r, s) ↦ (r, s.tree)⟩
    recursive := p.bodies.keys.filter calls.isRecursive
    diagnostics := scopings.flatMap fun (_, s) ↦ s.diagnostics }

namespace Analysis

def notice (a : Analysis) : Notice :=
  .analyzed a.calls.calls.size a.calls.sites.length a.recursive.length

def isRecursive (a : Analysis) (r : Routine) : Bool := decide (r ∈ a.recursive)

/-- Calls of the routine can be replaced by its body: it is called, it is not the entry, and it
does not call itself. -/
def canInline (a : Analysis) (r : Routine) : Bool :=
  decide (r ≠ a.entry) && !a.isRecursive r && decide (0 < a.calls.callCount r)

/-- A copy at each call is asked for, or costs nothing because there is one call only. -/
def shouldInline (a : Analysis) (r : Routine) : Bool :=
  a.canInline r && (r.modifiers.inline || decide (a.calls.callCount r = 1))

/-- The routines of a list whose calls are replaced. -/
def inlined (a : Analysis) (mode : Inlining) (routines : List Routine) : List Routine :=
  match mode with
  | .auto => routines.filter a.shouldInline
  | .always => routines.filter a.canInline
  | .never => []

end Analysis

end Wirescript
