import Wirescript.Emission.Element

/-!
# Emission of calls

A call of a built-in function is one block, with blocks that store what it gives. A call of a routine
sets the parameters, sends execution into the routine and, when it comes back, copies what was passed
by reference and the result. The way into a routine is a branch on `True`: its other exit runs when
the routine has ended. Where a routine begins is known only when all routines are done, so that the
branch is recorded and wired then.
-/

namespace Wirescript.Emit

/-- The variable that is passed by reference. -/
def reference (argument : Expr) : Emit Variable :=
  match argument.read? with
  | some x => return x
  | none => breach (.referenceArgument argument)

/-! ### Built-in functions -/

/-- Stores the outputs of a block, from a position on, to the arguments of output parameters. -/
def storeOutputs (block : Block) (span : Span) :
    Nat → Chain → List (Parameter × Expr) → Emit Handle
  | _, chain, [] => return chain.toHandle
  | output, chain, (p, argument) :: rest => do
    if p.modifiers.out then
      let x ← reference argument
      let h ← store span x (some (← block.outputAt output))
      storeOutputs block span (output + 1) (← append chain h) rest
    else
      storeOutputs block span output chain rest

/-- A computation whose results are stored. Nothing is placed if nothing asks for them. -/
def passiveCall (shape : BlockShape) (b : Builtin) (type : Ty) (arguments : List Expr)
    (result : Option Variable) (span : Span) : Emit Handle := do
  let outputs := b.parameters.any (·.modifiers.out)
  if !outputs && (result.isNone || type.isVoid) then
    return .pass
  let block ← inExpression (builtinBlock shape b (Expr.sources arguments))
  let parameters := b.parameters.zip arguments
  if type.isVoid then
    storeOutputs block span 0 {} parameters
  else
    match result with
    | none => storeOutputs block span 1 {} parameters
    | some x =>
      let h ← store span x (some (← block.outputAt 0))
      storeOutputs block span 1 (← append {} h) parameters

/-- The values of arguments, each in a group of its own. -/
def values : List Expr → Emit (List Feed)
  | [] => return []
  | e :: rest => do
    let value ← valueOf e
    return value :: (← values rest)

/-- A block that runs. Its inputs after the first are the arguments. -/
def activeCall (shape : BlockShape) (arguments : List Expr) : Emit Handle := do
  let inputs ← values arguments
  let block ← place shape
  feedAll block 1 inputs
  active block

/-- A block that shows a value. -/
def inspection (arguments : List Expr) : Emit Handle :=
  match arguments with
  | [value] =>
    match value.type.wire?.bind Catalog.inspect? with
    | none => complain (.cannotInspect value.type) value.span
    | some shape => do
      let feed ← valueOf value
      let block ← place shape
      feedAll block 1 [feed]
      active block
  | _ => breach (.emissionArguments .inspection)

/-- Stores a value that was computed for a call, if the call asks for it. -/
def keep (value : Emit Feed) (result : Option Variable) (span : Span) : Emit Handle := do
  let value ← inExpression value
  match result with
  | some x => store span x value
  | none => return .pass

def builtinCall (b : Builtin) (type : Ty) (arguments : List Expr) (result : Option Variable)
    (span : Span) : Emit Handle :=
  match b.emission with
  | .passive shape => passiveCall shape b type arguments result span
  | .active shape => activeCall shape arguments
  | .elementOf => keep (elementOf arguments (Expr.sources arguments)) result span
  | .blockAt => keep (blockAt arguments span) result span
  | .inspection => inspection arguments
  | .elementStore => elementStore arguments span
  | .rangeStore => rangeStore arguments span

/-! ### Routines -/

/-- Sets the parameters that are not outputs. -/
def passArguments : Chain → List (Variable × Expr) → Emit Chain
  | chain, [] => return chain
  | chain, (parameter, argument) :: rest => do
    if parameter.modifiers.out then passArguments chain rest
    else
      let h ← assign parameter argument
      passArguments (← append chain h) rest

/-- Copies parameters that were passed by reference back. -/
def passBack (span : Span) : Chain → List (Variable × Expr) → Emit Chain
  | chain, [] => return chain
  | chain, (parameter, argument) :: rest => do
    if parameter.modifiers.byReference then
      let x ← reference argument
      let h ← assign x (Build.read parameter span)
      passBack span (← append chain h) rest
    else
      passBack span chain rest

/-- The branch that sends execution into a routine. -/
def gate (routine : Routine) : Emit Handle := do
  let branch ← place Catalog.branch
  let truth ← place Catalog.truthTrue
  connect (← truth.outputAt 0) (← branch.input "Condition")
  let entrance ← branch.output "True"
  modify fun s ↦ { s with
    calls := s.calls.insert routine ((s.calls.get? routine).getD [] ++ [entrance]) }
  active branch

/-- Stores the result of a call. -/
def keepResult (routine : Routine) (span : Span) (chain : Chain) :
    Option Variable → Emit Chain
  | none => return chain
  | some x => do
    match routine.returnSlot with
    | none => breach (.storedVoid routine.name)
    | some slot =>
      let h ← assign x (Build.read slot span)
      append chain h

def routineCall (routine : Routine) (arguments : List Expr) (result : Option Variable)
    (span : Span) : Emit Handle := do
  unless routine.parameters.length = arguments.length do
    complain (.argumentCount routine.name routine.parameters.length arguments.length) span
  let parameters := routine.parameters.zip arguments
  let passed ← passArguments {} parameters
  let entered ← append passed (← gate routine)
  let returned ← passBack span entered parameters
  let kept ← keepResult routine span returned result
  return kept.toHandle

def call (callee : Callee) (arguments : List Expr) (result : Option Variable) (span : Span) :
    Emit Handle :=
  match callee with
  | .routine r => routineCall r arguments result span
  | .builtin b type => builtinCall b type arguments result span

end Wirescript.Emit
