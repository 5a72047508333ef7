import Wirescript.Block.Shape
import Wirescript.Builtin.Evaluator
import Wirescript.Symbol

/-!
# Built-in functions

A built-in function is its signature, an evaluator if its value can be computed, and the way a call
to it becomes blocks. A signature may be generic in one type; the arguments of a call bind it.
-/

namespace Wirescript

structure Parameter where
  name : String
  type : Ty
  modifiers : Modifiers := {}
  deriving DecidableEq, Repr, Inhabited

/-- Name and type, as in a signature. -/
def Parameter.signature (p : Parameter) : String := p.name ++ ": " ++ p.type.render

/-- How a call becomes blocks. -/
inductive Emission where
  /-- One passive block. Its inputs follow the parameters that are not `out`; its outputs are the
  result, if any, and then the `out` parameters. -/
  | passive (shape : BlockShape)
  /-- One active block whose inputs after the first follow the parameters. -/
  | active (shape : BlockShape)
  /-- A pointer to an element of an array. -/
  | elementOf
  /-- A reference to the block at a fixed position. -/
  | blockAt
  /-- A block that shows a value of any type. -/
  | inspection
  /-- A store to one element of an array. -/
  | elementStore
  /-- A store of a literal list to consecutive elements of an array. -/
  | rangeStore
  deriving DecidableEq, Repr, Inhabited

/-- A word for how a call becomes blocks, with the block if there is one of its own. -/
def Emission.describe : Emission → String
  | .passive shape => "Block " ++ shape.name
  | .active shape => "Statement " ++ shape.name
  | .elementOf | .blockAt => "Value"
  | .inspection | .elementStore | .rangeStore => "Custom"

structure Builtin where
  name : String
  parameters : List Parameter
  returnType : Ty
  /-- Computes the value of a call whose arguments are all known. -/
  evaluator : Option Evaluator
  emission : Emission
  deriving DecidableEq, Repr, Inhabited

namespace Builtin

def arity (b : Builtin) : Nat := b.parameters.length

/-- A call needs an execution wire, so it can only stand as a statement. -/
def isStatement (b : Builtin) : Bool :=
  match b.emission with
  | .active _ | .inspection | .elementStore | .rangeStore => true
  | .elementOf | .blockAt => false
  | .passive _ => b.parameters.any (·.modifiers.byReference)

/-! ### Generic signatures -/

/-- What a parameter of a type asks of an argument of a type: none when the argument does not fit,
otherwise the type that it binds, if the parameter is generic. -/
def demand? (parameter argument : Ty) : Option (Option Ty) :=
  match parameter, argument with
  | .generic, a => some (some a)
  | .array .generic, .array e => some (some e.toTy)
  | .segment .generic, .segment e => some (some e.toTy)
  | p, a => if p.accepts a then some none else none

/-- Adds what one argument binds to what the arguments before it have bound. -/
def bindNext? (bound : Option Ty) (parameter argument : Ty) : Option (Option Ty) :=
  match demand? parameter argument, bound with
  | none, _ => none
  | some none, _ => some bound
  | some (some g), none => some (some g)
  | some (some g), some b => if b = g then some (some g) else none

/-- Fits the types of the arguments to the signature; the answer is the type bound to the generic
placeholder, if there is one. -/
def bind? (b : Builtin) (arguments : List Ty) : Option (Option Ty) :=
  if arguments.length = b.arity then
    (b.parameters.zip arguments).foldlM (fun bound (p, a) ↦ bindNext? bound p.type a) none
  else
    none

/-- The type of a call whose arguments bound the generic placeholder. -/
def resultType (b : Builtin) (bound : Option Ty) : Ty :=
  match b.returnType with
  | .generic => bound.getD .error
  | other => other

end Builtin

end Wirescript
