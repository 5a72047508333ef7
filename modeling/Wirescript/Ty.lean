/-!
# Types of the script language

A fixed, closed set. Arrays hold elements of one of the scalar types; the generic element stands
for "any element type" in the signatures of built-in functions.
-/

namespace Wirescript

/-- What an array can hold. -/
inductive ElementTy where
  | bool
  | float
  | vector3
  | rotation
  | object
  /-- Any element type, in the signature of a built-in. -/
  | generic
  deriving DecidableEq, Repr, Inhabited

/-- The type of an expression. -/
inductive Ty where
  | void
  | bool
  | float
  | vector3
  | rotation
  | object
  /-- Any type, in the signature of a built-in. -/
  | generic
  | array (element : ElementTy)
  /-- A literal list `[a, b, c]`, which may only be stored into an array. -/
  | segment (element : ElementTy)
  /-- The type of an expression that has none. -/
  | error
  deriving DecidableEq, Repr, Inhabited

def ElementTy.render : ElementTy → String
  | .bool => "bool"
  | .float => "float"
  | .vector3 => "vector3"
  | .rotation => "rotation"
  | .object => "object"
  | .generic => "T"

/-- An element type as a type of its own. -/
def ElementTy.toTy : ElementTy → Ty
  | .bool => .bool
  | .float => .float
  | .vector3 => .vector3
  | .rotation => .rotation
  | .object => .object
  | .generic => .generic

def ElementTy.all : List ElementTy := [.bool, .float, .vector3, .rotation, .object, .generic]

namespace Ty

def all : List Ty :=
  [.void, .bool, .float, .vector3, .rotation, .object, .generic, .error]
    ++ ElementTy.all.map .array ++ ElementTy.all.map .segment

def isVoid : Ty → Bool
  | .void => true
  | _ => false

def isArray : Ty → Bool
  | .array _ => true
  | _ => false

/-- The two types that fall apart into three float components. -/
def isVectorLike : Ty → Bool
  | .vector3 | .rotation => true
  | _ => false

/-- The element type of an array or of a literal list; a scalar is its own element type. -/
def element? : Ty → Option ElementTy
  | .array e | .segment e => some e
  | .bool => some .bool
  | .float => some .float
  | .vector3 => some .vector3
  | .rotation => some .rotation
  | .object => some .object
  | .generic => some .generic
  | .void | .error => none

/-- A value of type `actual` may be passed where `expected` is declared. -/
def accepts (expected actual : Ty) : Bool :=
  match expected, actual with
  | .generic, _ => true
  | .array .generic, .array _ => true
  | .segment .generic, .segment _ => true
  | _, _ => decide (expected = actual)

def render : Ty → String
  | .void => "void"
  | .bool => "bool"
  | .float => "float"
  | .vector3 => "vector3"
  | .rotation => "rotation"
  | .object => "object"
  | .generic => "T"
  | .array e => e.render ++ "[]"
  | .segment e => "[" ++ e.render ++ "]"
  | .error => "?"

end Ty

end Wirescript
