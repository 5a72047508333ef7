import Wirescript.Fault
import Wirescript.Reach

/-!
# Control flow of flat code

The graph of a list of statements without structure: which runs of statements are entered only at
their first one and left only at their last, and where control can go from one to another. Node 0
stands for the start and node 1 for the end; the runs follow in the order of the statements.

A rollback counts as a jump here, although nothing is ever wired for it: the statement after the
event it belongs to is reached by that way.
-/

namespace Wirescript

/-- Control leaves the statement by a jump or a return, if only on one of two ways. -/
def Stmt.isJump : Stmt → Bool
  | .goto .. | .gotoIf .. | .gotoOn .. | .rollback .. | .ret .. | .retValue .. => true
  | _ => false

def Stmt.label? : Stmt → Option Label
  | .label _ l => some l
  | _ => none

/-- The label that a jump names. -/
def Stmt.target? : Stmt → Option Label
  | .goto _ l | .gotoIf _ l _ _ | .gotoOn _ l _ _ | .rollback _ l => some l
  | _ => none

/-- A node of the graph: the statements from `start` up to `stop`, and the nodes that follow. -/
structure FlowNode where
  start : Nat
  stop : Nat
  successors : List Nat
  deriving DecidableEq, Repr, Inhabited

structure Flow where
  nodes : List FlowNode
  /-- The number of statements. -/
  size : Nat
  /-- The node from which control runs off the end of the list, if there is one. -/
  exit : Option Nat
  deriving DecidableEq, Repr, Inhabited

namespace Flow

/-- The node of the start. -/
def start : Nat := 0

/-- The node of the end. -/
def finish : Nat := 1

/-- Splits statements into runs: a label begins one, a jump or a return ends one. -/
def runs (statements : List Stmt) : List (List Stmt) :=
  statements.splitBy fun s t ↦ !s.isJump && t.label?.isNone

/-- The node of the run that a label begins. Of several definitions the last one counts. -/
def nodeOf? (runs : List (List Stmt)) (l : Label) : Option Nat :=
  (runs.zipIdx 2).foldl
    (fun found (run, id) ↦ if run.head?.bind Stmt.label? = some l then some id else found) none

/-- Where control goes after the last statement of a run, when `next` follows the run. -/
def successors (runs : List (List Stmt)) (next : Nat) (last : Stmt) : Except Fault (List Nat) :=
  match last.target? with
  | none => .ok [if last.endsFlow then finish else next]
  | some l =>
    match nodeOf? runs l with
    | none => .error (.internal (.undefinedLabel l))
    | some id => .ok (if last.endsFlow then [id] else [id, next].eraseDups)

/-- The nodes of runs, of which the first has the given number and begins at the given position. -/
def nodesFrom (runs : List (List Stmt)) (id position : Nat) :
    List (List Stmt) → Except Fault (List FlowNode)
  | [] => .ok []
  | run :: rest => do
    let next := if rest.isEmpty then finish else id + 1
    let successors ← (run.getLast?.map (successors runs next)).getD (.ok [next])
    let stop := position + run.length
    return ⟨position, stop, successors⟩ :: (← nodesFrom runs (id + 1) stop rest)

/-- The graph of a list of statements. There is none if a jump names a label that no statement
defines. -/
def build (statements : List Stmt) : Except Fault Flow := do
  let runs := runs statements
  let nodes ← nodesFrom runs 2 0 runs
  let exit := match statements.getLast? with
    | none => some start
    | some last => if last.endsFlow then none else some (runs.length + 1)
  return {
    nodes := ⟨0, 0, [if runs.isEmpty then finish else 2]⟩ :: ⟨0, 0, []⟩ :: nodes
    size := statements.length
    exit := exit }

def successorsOf (f : Flow) (id : Nat) : List Nat := (f.nodes[id]?.map FlowNode.successors).getD []

/-- The nodes from which control can go to a node. -/
def predecessorsOf (f : Flow) (id : Nat) : List Nat :=
  f.nodes.zipIdx.filterMap fun (node, i) ↦ if id ∈ node.successors then some i else none

/-- The node that holds the statement at a position. -/
def nodeAt? (f : Flow) (position : Nat) : Option Nat :=
  f.nodes.findIdx? fun node ↦ decide (node.start ≤ position) && decide (position < node.stop)

/-- The nodes that control can reach from the start. -/
def reachableNodes (f : Flow) : List Nat := Reach.closure f.successorsOf f.nodes.length [start]

/-- For each statement, whether control can reach it. -/
def reachable (f : Flow) : List Bool :=
  let reached := f.reachableNodes
  f.nodes.zipIdx.flatMap fun (node, id) ↦
    List.replicate (node.stop - node.start) (decide (id ∈ reached))

/-- Control can run off the end of the list without a return. -/
def fallsThrough (f : Flow) : Bool :=
  match f.exit with
  | none => false
  | some id => decide (id ∈ f.reachableNodes)

end Flow

end Wirescript
