import Wirescript.Builtin.Basic

/-!
# Routines

The functions that a script defines, and what a call can name. A routine is told apart from others
by its number; its name need not be unique.
-/

namespace Wirescript

/-- A function of the script, without its body. -/
structure Routine where
  id : Nat
  name : String
  parameters : List Variable
  returnType : Ty
  modifiers : Modifiers := {}
  /-- The cell that holds the result when a call ends. -/
  returnSlot : Option Variable
  deriving DecidableEq, Repr, Inhabited

namespace Routine

/-- A routine with a slot for its result, unless it has none. -/
def declare (id : Nat) (name : String) (parameters : List Variable) (returnType : Ty)
    (modifiers : Modifiers) : Routine where
  id := id
  name := name
  parameters := parameters
  returnType := returnType
  modifiers := modifiers
  returnSlot :=
    if returnType.isVoid then none
    else some (.slot ⟨.result id, name ++ "@ret", returnType, .temporary, {}⟩)

end Routine

/-- What a call names: a routine, or a built-in function at a result type. -/
inductive Callee where
  | routine (routine : Routine)
  | builtin (builtin : Builtin) (returnType : Ty)
  deriving DecidableEq, Repr, Inhabited

namespace Callee

def name : Callee → String
  | .routine r => r.name
  | .builtin b _ => b.name

def returnType : Callee → Ty
  | .routine r => r.returnType
  | .builtin _ t => t

/-- The modifiers of the parameters, in order. -/
def parameterModifiers : Callee → List Modifiers
  | .routine r => r.parameters.map Variable.modifiers
  | .builtin b _ => b.parameters.map Parameter.modifiers

def routine? : Callee → Option Routine
  | .routine r => some r
  | .builtin _ _ => none

def builtin? : Callee → Option Builtin
  | .routine _ => none
  | .builtin b _ => some b

/-- A call has effects or needs an execution wire, so it has to be a statement. -/
def needsStatement : Callee → Bool
  | .routine _ => true
  | .builtin b _ => b.isStatement

/-- Name, parameters and result. The result of a routine is written as its return slot. -/
def signature (c : Callee) : String :=
  let parameters := ", ".intercalate <| match c with
    | .routine r => r.parameters.map Variable.signature
    | .builtin b _ => b.parameters.map Parameter.signature
  let result := match c with
    | .routine r => (r.returnSlot.map Variable.signature).getD r.returnType.render
    | .builtin _ t => t.render
  s!"{c.name}({parameters}) -> {result}"

end Callee

end Wirescript
