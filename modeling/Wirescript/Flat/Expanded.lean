import Wirescript.Fault
import Wirescript.Notice
import Wirescript.Program.Basic
import Wirescript.Tree.Build
import Wirescript.Tree.Substitution
import Wirescript.Tree.Visit

/-!
# Expansion of calls

Replaces calls by copies of the bodies they call. By then every call of a routine is a statement.
An expanded call stores its arguments in variables of its own, runs a copy of the body on them, and
copies parameters that are passed by reference back. A return in the copy stores the result and
jumps behind the copy.

Each expanded call is a site, and sites are numbered across the whole program. Variables and labels
of a copy carry the number of their site, so copies never share any; globals are shared by all.
-/

namespace Wirescript

/-- What calls are replaced by what. -/
structure Inliner where
  /-- The routines whose calls are replaced. -/
  inlined : List Routine
  bodies : Bodies
  deriving Inhabited

/-- The state is the number of sites so far, which is kept when an expansion stops. -/
abbrev Expand := ExceptT Fault (StateM Nat)

namespace Expand

/-- A name inside the copy of a site. -/
def siteName (site : Nat) (name : String) : String := s!"inl{site}_{name}"

/-- The variable of the caller that a parameter can stand for as it is: the callee neither writes
the parameter nor gives it away, and nobody else can write the variable meanwhile. -/
def alias? (parameter : Variable) (argument : Expr) (written : List Variable) : Option Variable :=
  if parameter.modifiers.readonly && !parameter.modifiers.byReference
      && decide (parameter ∉ written) then
    argument.read?.filter fun x ↦ !x.isGlobal && !x.isComponent
  else
    none

/-- What the arguments of a call become: what each parameter stands for in the copy, the statements
that run before the copy and those that run after it. -/
structure Bindings where
  images : Table Variable Variable := {}
  before : List Stmt := []
  after : List Stmt := []
  deriving Inhabited

/-- The variable of a site that takes the place of the parameter at a position. -/
def stand (site position : Nat) (parameter : Variable) : Variable :=
  .slot ⟨.argument site position, siteName site parameter.name, parameter.type, .temporary, {}⟩

/-- Adds the argument at a position. -/
def bindArgument (routine : Routine) (site : Nat) (span : Span) (written : List Variable)
    (b : Bindings) : (Variable × Expr) × Nat → Except Fault Bindings
  | ((parameter, argument), position) =>
    match alias? parameter argument written with
    | some x => .ok { b with images := b.images.insert parameter x }
    | none =>
      let x := stand site position parameter
      let before := if parameter.modifiers.out then [] else [.assign span x argument]
      let bound : Bindings :=
        ⟨b.images.insert parameter x, b.before ++ before, b.after⟩
      if parameter.modifiers.byReference then
        match argument.read? with
        | none => .error (.internal (.expansionReference argument routine.name))
        | some target =>
          .ok { bound with after := b.after ++ [.assign span target (Build.read x span)] }
      else
        .ok bound

def bindArguments (routine : Routine) (site : Nat) (span : Span) (written : List Variable)
    (arguments : List Expr) : Except Fault Bindings :=
  (routine.parameters.zip arguments).zipIdx.foldlM (bindArgument routine site span written) {}

/-- A variable of the body in the copy of a site. A component that keeps its base is the same one;
any other is a copy of its own. -/
def copyVariable (site : Nat) (bound : Table Variable Variable) (x : Variable) : Variable :=
  match bound.get? x with
  | some y => y
  | none =>
    match x with
    | .slot s =>
      if s.role = .global then .slot s
      else .slot { s with origin := .copied site s.origin, name := siteName site s.name }
    | .component base axis origin =>
      let copied := copyVariable site bound base
      .component copied axis (if copied = base then origin else .copied site origin)

/-- Makes a body into the copy of a site, which leaves by a jump to `exit`. -/
def copy (site : Nat) (bound : Table Variable Variable) (result : Option Variable) (exit : Label) :
    Substitution where
  var := copyVariable site bound
  label l := ⟨s!"{l.name}#{site}"⟩
  ret s := .block s [.goto s exit]
  retValue s value :=
    match result with
    | some x => .block s [.assign s x value, .goto s exit]
    | none => .block s [.goto s exit]

/-- What takes the place of a call. Calls in the copy are expanded by `inner`. -/
def call (i : Inliner) (inner : Routine → List Stmt → Expand (List Stmt)) (span : Span)
    (routine : Routine) (arguments : List Expr) (result : Option Variable) :
    Expand (List Stmt) := do
  let some body := i.bodies.get? routine
    | throw (.missingCallee routine.name)
  unless routine.parameters.length = arguments.length do
    throw (.internal
      (.expansionArity routine.name arguments.length routine.parameters.length))
  let site ← modifyGet fun sites ↦ (sites + 1, sites + 1)
  let b ← bindArguments routine site span body.writes arguments
  let exit : Label := ⟨s!"{routine.name}.return#{site}"⟩
  let copied ← inner routine (body.substitute (copy site b.images result exit)).flatten
  return b.before ++ copied ++ .label span exit :: b.after

/-- What takes the place of a statement. -/
def stmt (i : Inliner) (inner : Routine → List Stmt → Expand (List Stmt)) :
    Stmt → Expand (List Stmt)
  | .call span (.routine r) arguments result =>
    if r ∈ i.inlined then call i inner span r arguments result
    else return [.call span (.routine r) arguments result]
  | s => return [s]

/-- Expands the calls among statements of a routine, and those in the copies, down to a depth. -/
def stmts (i : Inliner) : Nat → Routine → List Stmt → Expand (List Stmt)
  | 0, routine, _ => throw (.internal (.expansionDepth routine.name))
  | depth + 1, _, statements => return (← statements.mapM (stmt i (stmts i depth))).flatten

end Expand

/-- A body in which calls have been expanded. -/
structure Expanded where
  span : Span
  statements : List Stmt
  /-- How many sites there are in it. -/
  sites : Nat
  deriving Inhabited

namespace Expanded

def body (e : Expanded) : Stmt := .block e.span e.statements

def notice (e : Expanded) (routine : Routine) : Notice :=
  .inlinedInto routine.name e.sites e.statements.length

end Expanded

/-- Expands the calls in the body of a routine. Copies nest at most as deep as there are routines to
copy, since none of those calls itself. -/
def Inliner.expand (i : Inliner) (routine : Routine) (body : Stmt) : Expand Expanded := do
  let first ← get
  let statements ← Expand.stmts i (i.inlined.length + 1) routine body.flatten
  return ⟨body.span, statements, (← get) - first⟩

end Wirescript
