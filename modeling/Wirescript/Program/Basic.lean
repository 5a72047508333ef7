import Wirescript.Table
import Wirescript.Tree.Basic

/-!
# Programs

A program is its routines with their bodies, in the order of the script, and the routine that runs
when the level starts.
-/

namespace Wirescript

/-- Routines with their bodies, in order. -/
abbrev Bodies := Table Routine Stmt

/-- The number of statements in all bodies together. -/
def Bodies.statementCount (bodies : Bodies) : Nat :=
  bodies.entries.foldl (fun n (_, body) ↦ n + body.items.length) 0

structure Program where
  bodies : Bodies
  /-- The routine that runs when the level starts. -/
  entry : Routine
  deriving Inhabited

/-- Which calls are replaced by a copy of the body they call. -/
inductive Inlining where
  /-- Those of routines marked for it, and of routines that are called once. -/
  | auto
  /-- Those of every routine for which it is possible. -/
  | always
  | never
  deriving DecidableEq, Repr, Inhabited

def Inlining.all : List Inlining := [.auto, .always, .never]

def Inlining.name : Inlining → String
  | .auto => "auto"
  | .always => "always"
  | .never => "never"

/-- What the target can do and how far outputs of blocks are shared. -/
structure EmitOptions where
  /-- How often one block that breaks up a vector serves each axis. -/
  breakReuse : Nat := 2
  /-- How often the value of an inline variable may be read. -/
  inlineReuse : Nat := 16
  /-- A block that stands at a fixed position can be referred to. -/
  blockQuery : Bool := false
  deriving DecidableEq, Repr, Inhabited

structure Options where
  inlining : Inlining := .auto
  emit : EmitOptions := {}
  deriving DecidableEq, Repr, Inhabited

end Wirescript
