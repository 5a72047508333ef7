import Wirescript.Flat.Flow
import Wirescript.Machine.Eval
import Wirescript.Program.Basic
import Wirescript.Tree.Visit

/-!
# Running flat code

Runs a prepared program without its blocks, statement by statement. Storage is as in a level: every
variable is one cell, parameters included, and a call writes its arguments to the cells of the
parameters before the callee starts.

The statements still to run are a tail of the body. What a call does is a parameter of the loop, so
that the loop of one body can be studied with any meaning of calls; `invoke` ties the knot. The
number of steps is limited, and the limit counts the statements of all bodies together.
-/

namespace Wirescript

/-- A running program: its cells and how many statements it has run. The state is kept when the
program stops with a fault. -/
structure Machine (κ : Type) where
  memory : Memory κ := {}
  steps : Nat := 0
  deriving Inhabited

abbrev Exec (κ : Type) := ExceptT Fault (StateM (Machine κ))

/-- Where control goes after a statement. -/
inductive Control where
  | next
  | jump (target : Label)
  | stop
  deriving DecidableEq, Repr, Inhabited

/-- The statements from a label on. Of several definitions of a label the last one counts. -/
def Stmt.from? (l : Label) : List Stmt → Option (List Stmt)
  | [] => none
  | s :: rest => (Stmt.from? l rest).or (if s.label? = some l then some (s :: rest) else none)

namespace Exec

variable {κ : Type} [DecidableEq κ] (key : Slot → κ)

def eval (e : Expr) : Exec κ Value := do
  e.eval key (← get).memory

def load (x : Variable) : Exec κ Value := return (← get).memory.load key x

def store (x : Variable) (value : Value) : Exec κ Unit := do
  let memory ← (← get).memory.store key x value
  modify ({ · with memory := memory })

/-- Stores the value of an expression. -/
def assign (x : Variable) (value : Expr) : Exec κ Unit := do
  store key x (← eval key value)

/-- Writes the arguments to the parameters, from left to right. -/
def pass : List (Variable × Expr) → Exec κ Unit
  | [] => return
  | (parameter, argument) :: rest => do
    unless parameter.modifiers.out do
      assign key parameter argument
    pass rest

/-- Copies parameters that were passed by reference back to the arguments. -/
def passBack : List (Variable × Expr) → Exec κ Unit
  | [] => return
  | (parameter, argument) :: rest => do
    if parameter.modifiers.byReference then
      match argument.read? with
      | none => throw (.internal .runReference)
      | some target => store key target (← load key parameter)
    passBack rest

/-- A call of a routine, whose body is run by `invoke`. -/
def callRoutine (invoke : Routine → Exec κ Unit) (routine : Routine) (arguments : List Expr)
    (result : Option Variable) : Exec κ Unit := do
  pass key (routine.parameters.zip arguments)
  invoke routine
  passBack key (routine.parameters.zip arguments)
  match result, routine.returnSlot with
  | some x, some slot => store key x (← load key slot)
  | _, _ => return

/-- A call of a built-in function, which has to be one that can be evaluated. -/
def callBuiltin (b : Builtin) (arguments : List Expr) (result : Option Variable) : Exec κ Unit := do
  let some evaluator := b.evaluator
    | throw (.internal (.noEvaluator b.name))
  let values ← Expr.evalAll key (← get).memory arguments
  let some value := evaluator.compute? values
    | throw (.internal (.evaluatorFailed b.name))
  match result with
  | some x => store key x value
  | none => return

def call (invoke : Routine → Exec κ Unit) (callee : Callee) (arguments : List Expr)
    (result : Option Variable) : Exec κ Unit :=
  match callee with
  | .routine r => callRoutine key invoke r arguments result
  | .builtin b _ => callBuiltin key b arguments result

/-- An expression that stands as a statement. -/
def effect (invoke : Routine → Exec κ Unit) : Expr → Exec κ Unit
  | .step _ x _ down => do
    let op : BinaryOp := if down then .subtract else .add
    let some value := op.compute? (← load key x) (.float 1)
      | throw (.internal (.cannotStep x))
    store key x value
  | .assign _ x value => assign key x value
  | .call _ callee arguments => call key invoke callee arguments none
  | other => do
    let _ ← eval key other

/-- One statement of the body of a routine. -/
def stmt (invoke : Routine → Exec κ Unit) (routine : Routine) : Stmt → Exec κ Control
  | .define _ _ x value | .assign _ x value => do
    assign key x value
    return .next
  | .expression _ e => do
    effect key invoke e
    return .next
  | .call _ callee arguments result => do
    call key invoke callee arguments result
    return .next
  | .goto _ target => return .jump target
  | .gotoIf _ target condition sense => do
    let value ← eval key condition
    return if value.bool? = some sense then .jump target else .next
  | .rollback _ _ => return .stop
  | .gotoOn .. => throw (.internal .uninterpretedEvent)
  | .ret _ => return .stop
  | .retValue _ value => do
    match routine.returnSlot with
    | some slot => assign key slot value
    | none => pure ()
    return .stop
  | .declare .. | .label .. | .hint .. | .nop _ => return .next
  | other => throw (.internal (.notFlat other))

/-- Counts a statement. -/
def tick (limit : Nat) : Exec κ Unit := do
  modify fun m ↦ { m with steps := m.steps + 1 }
  if limit < (← get).steps then
    throw (.internal .stepLimit)

/-- Runs statements of a body until it ends, for at most the given number of statements. -/
def loop (limit : Nat) (invoke : Routine → Exec κ Unit) (routine : Routine) (code : List Stmt) :
    Nat → List Stmt → Exec κ Unit
  | _, [] => return
  | 0, _ :: _ => throw (.internal .stepLimit)
  | fuel + 1, s :: rest => do
    tick limit
    match ← stmt key invoke routine s with
    | .next => loop limit invoke routine code fuel rest
    | .stop => return
    | .jump target =>
      match Stmt.from? target code with
      | none => throw (.internal (.noLabel target routine.name))
      | some there => loop limit invoke routine code fuel there

/-- Runs the body of a routine, and calls in it down to a depth. A call takes a step of its own, so
neither the depth nor the length of a body is used up before the limit is. -/
def invoke (limit : Nat) (bodies : Bodies) : Nat → Routine → Exec κ Unit
  | 0, _ => throw (.internal .stepLimit)
  | depth + 1, routine => do
    let some body := bodies.get? routine
      | throw (.missingCallee routine.name)
    let code := body.flatten
    loop key limit (invoke limit bodies depth) routine code (limit + 1) code

end Exec

/-- How many statements a program may run. -/
def stepLimit : Nat := 100000

/-- Runs a routine of a program from empty memory, with cells found by storage name. The answer is
the fault that stopped the run, if any, and what the cells hold then. -/
def Bodies.run (bodies : Bodies) (routine : Routine) : Except Fault Unit × Machine String :=
  (Exec.invoke Memory.storageKey stepLimit bodies (stepLimit + 1) routine).run {}

/-- The cells of a program that hold a value, under their storage names. -/
def Bodies.cells (bodies : Bodies) (memory : Memory String) : List (String × Value) :=
  let names := bodies.entries.flatMap fun (r, body) ↦
    (r.formals ++ body.mentions).map fun x ↦ x.cell.storageName
  names.eraseDups.filterMap fun name ↦ (memory.get? name).map fun value ↦ (name, value)

end Wirescript
