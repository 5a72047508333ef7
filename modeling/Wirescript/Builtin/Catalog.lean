import Wirescript.Block.Catalog
import Wirescript.Diagnostic
import Wirescript.Routine

/-!
# The built-in functions of the language

The table of built-in functions and how a call finds its entry: by name and number of arguments
first, then by the first signature that the types of the arguments fit.
-/

namespace Wirescript.Builtin

/-- A built-in that computes a number or vector from others, with an evaluator. -/
def computed (name : String) (parameters : List (String × Ty)) (returnType : Ty)
    (evaluator : Evaluator) (shape : BlockShape) : Builtin where
  name := name
  parameters := parameters.map fun (n, t) ↦ ⟨n, t, {}⟩
  returnType := returnType
  evaluator := some evaluator
  emission := .passive shape

/-- A parameter that the callee only reads. -/
def given (name : String) (type : Ty) : Parameter := ⟨name, type, {}⟩

/-- A parameter that the callee writes. -/
def output (name : String) (type : Ty) : Parameter := ⟨name, type, { out := true }⟩

/-- A parameter whose argument has to be a constant. -/
def fixed (name : String) (type : Ty) : Parameter := ⟨name, type, { constant := true }⟩

def all : List Builtin :=
  [computed "abs" [("num", .float)] .float .absolute Catalog.absolute,
   computed "floor" [("num", .float)] .float .floor Catalog.floor,
   computed "ceil" [("num", .float)] .float .ceiling Catalog.ceiling,
   computed "round" [("num", .float)] .float .round Catalog.round,
   computed "min" [("a", .float), ("b", .float)] .float .minimum Catalog.min,
   computed "max" [("a", .float), ("b", .float)] .float .maximum Catalog.max,
   computed "pow" [("base", .float), ("exponent", .float)] .float .power Catalog.power,
   computed "distance" [("a", .vector3), ("b", .vector3)] .float .distance Catalog.distance,
   computed "dot" [("a", .vector3), ("b", .vector3)] .float .dot Catalog.dotProduct,
   computed "cross" [("a", .vector3), ("b", .vector3)] .vector3 .cross Catalog.crossProduct,
   ⟨"rotate", [given "vec" .vector3, given "rot" .rotation], .vector3, none,
     .passive Catalog.rotateVector⟩,
   ⟨"random", [given "min" .float, given "max" .float], .float, none, .passive Catalog.random⟩,
   ⟨"frame", [], .float, none, .passive Catalog.currentFrame⟩,
   ⟨"screenSize", [output "width" .float, output "height" .float], .void, none,
     .passive Catalog.screenSize⟩,
   ⟨"getPosition", [given "object" .object, output "position" .vector3, output "rotation" .rotation],
     .void, none, .passive Catalog.getPosition⟩,
   ⟨"raycast", [given "from" .vector3, given "to" .vector3, output "hit" .bool,
     output "hitPos" .vector3, output "hitObj" .object], .void, none, .passive Catalog.raycast⟩,
   ⟨"setPosition", [given "object" .object, given "position" .vector3, given "rotation" .rotation],
     .void, none, .active Catalog.setPosition⟩,
   ⟨"inspect", [given "value" .generic], .void, none, .inspection⟩,
   ⟨"get", [given "array" (.array .generic), given "index" .float], .generic, none, .elementOf⟩,
   ⟨"set", [given "array" (.array .generic), given "index" .float, given "value" .generic], .void,
     none, .elementStore⟩,
   ⟨"setRange", [given "array" (.array .generic), fixed "index" .float,
     given "values" (.segment .generic)], .void, none, .rangeStore⟩,
   ⟨"getBlock", [fixed "position" .vector3], .object, none, .blockAt⟩]

/-- The entries of a name, in the order of the table. -/
def named (name : String) : List Builtin := all.filter (·.name == name)

/-- The first entry of a name. -/
def find? (name : String) : Option Builtin := (named name).head?

/-- The first entry of a name whose signature the types of the arguments fit. -/
def lookup? (name : String) (arguments : List Ty) : Option Builtin :=
  (named name).find? fun b ↦ (b.bind? arguments).isSome

/-- Finds what a call refers to, with the generic placeholder replaced in the result type. -/
def resolve (name : String) (arguments : List Ty) (span : Span) : Except Diagnostic Callee :=
  match named name with
  | [] => .error (.error (.unknownFunction name) span)
  | first :: rest =>
    let overloads := (first :: rest).filter (·.arity == arguments.length)
    if overloads.isEmpty then
      .error (.error (.argumentCount name first.arity arguments.length) span)
    else
      match overloads.findSome? fun b ↦ (b.bind? arguments).map fun bound ↦ (b, bound) with
      | some (b, bound) => .ok (.builtin b (b.resultType bound))
      | none => .error (.error (.noOverload name arguments) span)

end Wirescript.Builtin
