import Wirescript.Netlist.Terminal
import Wirescript.Tree.Render

/-!
# Faults

A fault stops a pass: the input was one that it should never see, or a pass before it broke its
promise. Mistakes of the script's author are diagnostics instead. Each cause is a constructor that
holds what is to blame, and the wording of all of them is here.
-/

namespace Wirescript

/-- Broken promises between passes, and what the interpreter cannot run. -/
inductive Breach where
  /-- A jump names a label that nothing defines. -/
  | undefinedLabel (label : Label)
  | unextractable (statement : Stmt)
  | unextractableCompound (expression : Expr)
  | storeIntoNonArray (array : Expr)
  | noElementStore (type : Ty)
  | noElementType
  | expansionArity (routine : String) (given expected : Nat)
  | expansionReference (argument : Expr) (routine : String)
  /-- Expansions nest deeper than there are routines to expand. -/
  | expansionDepth (routine : String)
  | notData (expression : Expr)
  | noVariableBlock (x : Variable)
  | noSetBlock (x : Variable)
  | noUnaryBlock (op : UnaryOp) (operand : Ty)
  | noBinaryBlock (op : BinaryOp) (left right : Ty)
  | noConversion (source target : Ty)
  | callAsData (routine : String)
  | statementAsData (builtin : String)
  /-- A built-in with an emission of its own is called with too few or too many arguments. -/
  | emissionArguments (emission : Emission)
  | notLiteralList (values : Expr)
  | noListBlock (array : Ty)
  | noPointerStore (wire : WireType)
  | noReturnSlot (statement : Stmt)
  | unemittable (statement : Stmt)
  | eventReference (argument : Expr) (event : Event)
  | referenceArgument (argument : Expr)
  | storedVoid (routine : String)
  | noOutput (block : String) (index : Nat)
  | noInput (block : String) (index : Nat)
  | jumpInChain (handle : Handle)
  | unsettledEntry (routine : String)
  | stepLimit
  | noLabel (label : Label) (routine : String)
  | uninterpretedEvent
  | notFlat (statement : Stmt)
  | noEvaluator (builtin : String)
  | evaluatorFailed (builtin : String)
  | runReference
  | cannotStep (x : Variable)
  | cannotEvaluate (expression : Expr)
  | takesFloat (x : Variable)
  | holdsNoVector (x : Variable) (value : Value)

/-- How a built-in with an emission of its own wants to be called. -/
def Emission.usage : Emission → String
  | .elementOf => "'get' takes an array and an index"
  | .blockAt => "'getBlock' takes one position"
  | .inspection => "'inspect' takes one value"
  | .elementStore => "'set' takes an array, an index and a value"
  | .rangeStore => "'setRange' takes an array, a start index and values"
  | .passive shape | .active shape => "'" ++ shape.name ++ "' takes its inputs"

def Breach.message : Breach → String
  | .undefinedLabel label => s!"goto to undefined label '{label.name}'"
  | .unextractable s => s!"statement '{s.render}' reached extraction without being lowered"
  | .unextractableCompound e =>
    s!"compound assignment '{e.render}' reached extraction without being lowered"
  | .storeIntoNonArray array => s!"list store into non-array '{array.render}'"
  | .noElementStore type => s!"no 'set' built-in for {type.render}"
  | .noElementType => "array segment without element type"
  | .expansionArity routine given expected =>
    s!"call to '{routine}' passes {given} arguments for {expected} parameters"
  | .expansionReference argument routine =>
    s!"by-reference argument '{argument.render}' of '{routine}' is not a variable"
  | .expansionDepth routine => s!"call to '{routine}' expands into itself"
  | .notData e => s!"expression '{e.render}' cannot be emitted as data"
  | .noVariableBlock x => s!"no storage block for '{x.name}' of type {x.type.render}"
  | .noSetBlock x => s!"no set block for '{x.name}' of type {x.type.render}"
  | .noUnaryBlock op operand => s!"no block for unary '{op.symbol}' on {operand.render}"
  | .noBinaryBlock op left right => s!"no block for {left.render} {op.symbol} {right.render}"
  | .noConversion source target => s!"no conversion from {source.render} to {target.render}"
  | .callAsData routine => s!"call to '{routine}' left inside an expression"
  | .statementAsData builtin => s!"statement built-in '{builtin}' used as a value"
  | .emissionArguments emission => emission.usage
  | .notLiteralList values => s!"'setRange' expects a literal list, got '{values.render}'"
  | .noListBlock array => s!"no list block for {array.render}"
  | .noPointerStore wire => s!"no pointer store for {wire.name}"
  | .noReturnSlot s => s!"'{s.render}' returns a value but has no return slot"
  | .unemittable s => s!"statement '{s.render}' reached the emitter without being lowered"
  | .eventReference argument event =>
    s!"out argument '{argument.render}' of {event.name} is not a variable"
  | .referenceArgument argument =>
    s!"by-reference argument '{argument.render}' is not a variable"
  | .storedVoid routine => s!"result of void function '{routine}' is stored"
  | .noOutput block index => s!"block '{block}' has no output #{index}"
  | .noInput block index => s!"block '{block}' has no input #{index}"
  | .jumpInChain handle => s!"jump store {handle.describe} inside a straight-line chain"
  | .unsettledEntry routine => s!"entry of '{routine}' was never settled"
  | .stepLimit => "step limit exceeded"
  | .noLabel label routine => s!"no label {label.name} in {routine}"
  | .uninterpretedEvent => "events cannot be interpreted"
  | .notFlat s => s!"'{s.render}' is not in goto form"
  | .noEvaluator builtin => s!"built-in '{builtin}' has no evaluator"
  | .evaluatorFailed builtin => s!"'{builtin}' failed to evaluate"
  | .runReference => "by-reference argument is not a variable"
  | .cannotStep x => s!"cannot step {x.name}"
  | .cannotEvaluate e => s!"cannot evaluate '{e.render}'"
  | .takesFloat x => s!"{x.name} takes a float"
  | .holdsNoVector x value => s!"{x.name} holds {value.render}, not a vector"

/-- Why a pass stopped. -/
inductive Fault where
  | internal (breach : Breach)
  | unresolvedLabel (routine : String) (label : Label)
  | missingCallee (routine : String)
  /-- A built-in that can be evaluated has a parameter that it would have to write. -/
  | constantByReference (builtin parameter : String)
  | unknownTerminal (block terminal : String)

def Fault.message : Fault → String
  | .internal breach => "internal error: " ++ breach.message
  | .unresolvedLabel routine label =>
    s!"label '{label.name}' is referenced in function '{routine}' but never resolved"
  | .missingCallee routine => s!"function '{routine}' is called but was never emitted"
  | .constantByReference builtin parameter =>
    s!"constant folding of '{builtin}' does not support ref/out parameter '{parameter}'"
  | .unknownTerminal block terminal => s!"block '{block}' has no terminal named '{terminal}'"

end Wirescript
