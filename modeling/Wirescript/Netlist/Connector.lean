import Wirescript.Netlist.Chain
import Wirescript.Notice
import Wirescript.Table

/-!
# Connecting the statements of a routine

Joins the handles of a routine in order. Jumps are recorded on the way and wired at the end, when it
is known what each label stands for: the terminal that execution enters there, the end of the
routine, or another label that follows with nothing between.

Labels that lead only to each other form a loop without a block. There is nothing to wire for them,
so they are left out and reported.
-/

namespace Wirescript

/-- A position that waits for what follows it. -/
inductive Anchor where
  /-- The start of the routine. -/
  | entry
  | label (label : Label)
  deriving DecidableEq, Repr, Inhabited

/-- What follows at a position. -/
inductive Destination where
  | terminal (terminal : Terminal)
  /-- Control leaves the routine. -/
  | finish
  /-- A jump follows with nothing between. -/
  | goto (label : Label)
  deriving DecidableEq, Repr, Inhabited

structure Connector where
  routine : String
  /-- The terminals where execution leaves what was joined last. -/
  pending : List Terminal := []
  /-- The positions that nothing has followed yet. -/
  waiting : List Anchor := [.entry]
  destinations : Table Anchor Destination := {}
  /-- The terminals that jump to each label. -/
  jumps : Table Label (List Terminal) := {}
  deriving Inhabited

namespace Connector

/-- Says what follows at all waiting positions. -/
def settle (c : Connector) (d : Destination) : Connector :=
  { c with
    waiting := []
    destinations := c.waiting.foldl (fun t a ↦ t.insert a d) c.destinations }

/-- Adds terminals that jump to a label. -/
def jump (c : Connector) (target : Label) (sources : List Terminal) : Connector :=
  { c with jumps := c.jumps.insert target ((c.jumps.get? target).getD [] ++ sources) }

/-- Joins one handle that is not a sequence. The wires lead to where execution enters it. -/
def pushPart (c : Connector) : Handle → Connector × List Wire
  | .pass | .multi _ => (c, [])
  | .basic entry exits =>
    ({ c.settle (.terminal entry) with pending := exits }, wiresTo entry c.pending)
  | .branch entry fallThrough target exits =>
    ({ (c.settle (.terminal entry)).jump target exits with pending := fallThrough },
      wiresTo entry c.pending)
  | .goto target =>
    ({ (c.jump target c.pending).settle (.goto target) with pending := [] }, [])
  | .label l => ({ c with waiting := c.waiting ++ [.label l] }, [])
  | .rollback | .ret => ({ c.settle .finish with pending := [] }, [])

/-- Joins a handle. -/
def push (c : Connector) (h : Handle) : Connector × List Wire :=
  h.parts.foldl (fun (c, wires) part ↦
    let (c, more) := c.pushPart part
    (c, wires ++ more)) (c, [])

/-! ### What labels stand for -/

/-- Where control gets to from a position. -/
inductive Resolution where
  | terminal (terminal : Terminal)
  | finish
  /-- Nowhere: the labels lead back to this one. -/
  | loop (label : Label)
  deriving DecidableEq, Repr, Inhabited

def Resolution.terminal? : Resolution → Option Terminal
  | .terminal t => some t
  | .finish | .loop _ => none

def unsettled (c : Connector) : Anchor → Fault
  | .label l => .unresolvedLabel c.routine l
  | .entry => .internal (.unsettledEntry c.routine)

/-- Follows jumps from a position for at most the given number of steps. A position that was seen
before closes a loop. -/
def follow (c : Connector) : Nat → List Anchor → Anchor → Except Fault Resolution
  | 0, _, a => .error (c.unsettled a)
  | steps + 1, seen, a =>
    match c.destinations.get? a with
    | none => .error (c.unsettled a)
    | some (.terminal t) => .ok (.terminal t)
    | some .finish => .ok .finish
    | some (.goto next) =>
      if a ∈ seen then .ok (.loop next) else c.follow steps (a :: seen) (.label next)

/-- Where control gets to from a position. The steps suffice: every step but the last one sees
another position that has a destination. -/
def resolve (c : Connector) (a : Anchor) : Except Fault Resolution :=
  c.follow (c.destinations.size + 2) [] a

/-! ### Closing a routine -/

/-- What comes out at the end of a routine. Wires and notices are those up to the fault, if there is
one. -/
structure Closing where
  wires : List Wire := []
  notices : List Notice := []
  /-- The labels that only lead back to themselves, each once. -/
  emptyLoops : List Label := []
  deriving Inhabited

abbrev Close := ExceptT Fault (StateM Closing)

/-- Resolves a position and reports a loop without a block. -/
def closeAt (c : Connector) (a : Anchor) : Close (Option Terminal) := do
  let r ← c.resolve a
  match r with
  | .loop l =>
    modify fun s ↦ { s with
      notices := s.notices ++ [.emptyLoop c.routine l]
      emptyLoops := if l ∈ s.emptyLoops then s.emptyLoops else s.emptyLoops ++ [l] }
  | _ => return r.terminal?
  return none

/-- Wires the jumps to each label in turn. -/
def closeJumps (c : Connector) : List (Label × List Terminal) → Close Unit
  | [] => return
  | (l, sources) :: rest => do
    let target ← c.closeAt (.label l)
    modify fun s ↦ { s with
      notices := s.notices ++ [.resolved c.routine l target]
      wires := s.wires ++ (target.map fun t ↦ wiresTo t sources).getD [] }
    c.closeJumps rest

/-- Wires all jumps. The answer is where execution enters the routine, unless it places no block. -/
def finish (c : Connector) : Except Fault (Option Terminal) × Closing :=
  let closed := { c.settle .finish with pending := [] }
  let work : Close (Option Terminal) := do
    closed.closeJumps closed.jumps.entries
    closed.closeAt .entry
  work.run {}

end Connector

end Wirescript
