import Wirescript.Flat.Expanded
import Wirescript.Flat.Extracted
import Wirescript.Flat.Lowered
import Wirescript.Program.Analysis
import Wirescript.Program.Storage

/-!
# Prepared programs

A prepared program is one that can be emitted: flat bodies without hidden effects, calls expanded as
far as asked, only routines that are still called, the entry first, and a name of its own for every
cell.
-/

namespace Wirescript

/-- Work that leaves notices and may stop. The notices are kept when it does. -/
abbrev Work := ExceptT Fault (StateM (List Notice))

namespace Work

def note (n : Notice) : Work Unit := modify (· ++ [n])

end Work

namespace Program

/-- The body of a routine without structured control flow. -/
def lowered (routine : Routine) (body : Stmt) : Work Stmt := do
  let l ← lower routine body
  Work.note (l.notice routine)
  return l.body

/-- The flat body of a routine without hidden effects. -/
def extracted (routine : Routine) (body : Stmt) : Work Stmt := do
  let e ← extract routine body
  Work.note (e.notice routine)
  return e.body

/-- The body of a routine as flat statements without hidden effects. -/
def flatten (routine : Routine) (body : Stmt) : Work Stmt := do
  extracted routine (← lowered routine body)

/-- All bodies as flat statements. -/
def flat (p : Program) : Work Bodies := do
  let entries ← p.bodies.entries.mapM fun (r, body) ↦ return (r, ← flatten r body)
  let bodies : Bodies := ⟨entries⟩
  Work.note (.flattened bodies.statementCount)
  return bodies

/-- Expands the calls in the given routines one after another, after some sites. -/
def expandEach (i : Inliner) (sites : Nat) : List (Routine × Stmt) → Work (List (Routine × Stmt))
  | [] => return []
  | (r, body) :: rest => do
    let (outcome, sites) := (i.expand r body).run sites
    let e ← outcome
    Work.note (e.notice r)
    return (r, e.body) :: (← expandEach i sites rest)

/-- The routines that are not inlined, with their calls expanded. -/
def expand (bodies : Bodies) (inlined : List Routine) : Work Bodies := do
  let remaining := bodies.entries.filter fun (r, _) ↦ decide (r ∉ inlined)
  return ⟨← expandEach ⟨inlined, bodies⟩ 0 remaining⟩

/-- What the entry still calls, directly or not, with the entry first. A call of a routine without
a body is a fault. -/
def called (bodies : Bodies) (entry : Routine) : Except Fault Bodies :=
  let reached := (CallGraph.ofBodies bodies).reached [entry]
  match reached.find? fun r ↦ !bodies.contains r with
  | some r => .error (.missingCallee r.name)
  | none =>
    let kept := bodies.entries.filter fun (r, _) ↦ decide (r ∈ reached)
    let (first, others) := kept.partition fun (r, _) ↦ decide (r = entry)
    .ok ⟨first ++ others⟩

/-- Makes a program ready to be emitted. -/
def prepare (p : Program) (analysis : Analysis) (inlining : Inlining) : Work Bodies := do
  unless p.bodies.contains p.entry do
    throw (.missingCallee p.entry.name)
  let bodies ← p.flat
  let inlined := analysis.inlined inlining p.bodies.keys
  let expanded ← expand bodies inlined
  let live ← called expanded p.entry
  Work.note (.inlined inlined.length (expanded.size - live.size) live.statementCount)
  let named := live.named
  Work.note named.notice
  return named.bodies

end Program

end Wirescript
