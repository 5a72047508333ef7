import Wirescript.Notice
import Wirescript.Program.Basic
import Wirescript.Tree.Substitution
import Wirescript.Tree.Visit

/-!
# Names of storage

In the level all cells that are not global share one space of names, whatever routine they come
from. So each variable is given a name of its own. The first one of a name keeps it, and later ones
have a number added. Globals keep their names, since their cells are marked as global.
-/

namespace Wirescript

/-- The names given so far. -/
structure Naming where
  names : Table Slot String := {}
  /-- The last number that was added to a name. -/
  counts : Table String Nat := {}
  /-- How many variables could not keep their name. -/
  renamed : Nat := 0
  deriving Inhabited

namespace Naming

/-- A name with a number added. -/
def numbered (name : String) (n : Nat) : String := s!"{name}_{n}"

/-- The first of the given number of numbers from `n` on that makes an unused name; the number after
them if there is none. -/
def firstFree (taken : List String) (name : String) : Nat → Nat → Nat
  | 0, n => n
  | tries + 1, n =>
    if numbered name n ∈ taken then firstFree taken name tries (n + 1) else n

/-- The names in use. -/
def taken (st : Naming) : List String := st.names.entries.map Prod.snd

/-- Gives a variable a name, unless it has one or is global. One of any `k + 1` numbers makes a name
that is not among `k` names in use. -/
def add (st : Naming) (s : Slot) : Naming :=
  if s.role = .global || st.names.contains s then st
  else if s.name ∈ st.taken then
    let n := firstFree st.taken s.name st.taken.length ((st.counts.get? s.name).getD 0 + 1)
    { names := st.names.insert s (numbered s.name n)
      counts := st.counts.insert s.name n
      renamed := st.renamed + 1 }
  else
    { st with names := st.names.insert s s.name }

/-- The cell that holds a variable. -/
def slotOf : Variable → Slot
  | .slot s => s
  | .component base _ _ => slotOf base

/-- The variables of a program in the order in which they are mentioned. -/
def mentions (bodies : Bodies) : List Variable :=
  bodies.entries.flatMap fun (r, body) ↦ r.formals ++ body.mentions

def ofBodies (bodies : Bodies) : Naming :=
  (mentions bodies).foldl (fun st x ↦ st.add (slotOf x)) {}

/-- The variable under its new name. -/
def variableOf (st : Naming) : Variable → Variable
  | .slot s => .slot { s with name := (st.names.get? s).getD s.name }
  | .component base axis origin => .component (st.variableOf base) axis origin

def routineOf (st : Naming) (r : Routine) : Routine :=
  { r with
    parameters := r.parameters.map st.variableOf
    returnSlot := r.returnSlot.map st.variableOf }

def substitution (st : Naming) : Substitution where
  var := st.variableOf
  routine := st.routineOf

end Naming

/-- A program in which no two cells share a name, except that a global may have the name of one that
is not. -/
structure Named where
  bodies : Bodies
  /-- How many variables could not keep their name. -/
  renamed : Nat
  deriving Inhabited

def Named.notice (n : Named) : Notice := .renamed n.renamed n.bodies.size

/-- Gives every variable of the program a name of its own. -/
def Bodies.named (bodies : Bodies) : Named :=
  let naming := Naming.ofBodies bodies
  { bodies := ⟨bodies.entries.map fun (r, body) ↦
      (naming.routineOf r, body.substitute naming.substitution)⟩
    renamed := naming.renamed }

end Wirescript
