import Wirescript.Program.Basic
import Wirescript.Reach
import Wirescript.Tree.Visit

/-!
# Call graphs

Which routine calls which, once for each call. Routines without a body may be called and call
nothing themselves.
-/

namespace Wirescript

/-- The routines with a body, each with the routines that it calls, once for each call. -/
structure CallGraph where
  calls : Table Routine (List Routine)
  deriving Inhabited

namespace CallGraph

def ofBodies (bodies : Bodies) : CallGraph :=
  ⟨⟨bodies.entries.map fun (r, body) ↦ (r, body.callSites)⟩⟩

/-- The routines that a routine calls, once for each call. -/
def callees (g : CallGraph) (r : Routine) : List Routine := (g.calls.get? r).getD []

/-- The callee of every call in the graph. -/
def sites (g : CallGraph) : List Routine := g.calls.entries.flatMap Prod.snd

/-- How many calls name a routine. -/
def callCount (g : CallGraph) (r : Routine) : Nat := g.sites.count r

/-- The roots and everything that is called from them, directly or not, by distance. -/
def reached (g : CallGraph) (roots : List Routine) : List Routine :=
  Reach.closure g.callees g.sites.length roots

/-- A routine calls itself, directly or not. -/
def isRecursive (g : CallGraph) (r : Routine) : Bool := decide (r ∈ g.reached (g.callees r))

end CallGraph

end Wirescript
