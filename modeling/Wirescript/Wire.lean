import Wirescript.Ty

/-!
# Types of the wires between blocks

A wire either carries execution or a value. Outputs that name a storage cell carry a pointer, which
may also be read as the value it points at.
-/

namespace Wirescript

/-- What a terminal of a block carries. The `void` wire carries execution. -/
inductive WireType where
  | void
  | float
  | vec3
  | rot
  | bool
  | obj
  | con
  | floatPtr
  | vec3Ptr
  | rotPtr
  | boolPtr
  | objPtr
  | conPtr
  deriving DecidableEq, Repr, Inhabited

namespace WireType

def all : List WireType :=
  [.void, .float, .vec3, .rot, .bool, .obj, .con, .floatPtr, .vec3Ptr, .rotPtr, .boolPtr, .objPtr,
   .conPtr]

def isPointer : WireType → Bool
  | .floatPtr | .vec3Ptr | .rotPtr | .boolPtr | .objPtr | .conPtr => true
  | _ => false

/-- The pointer to a value of this type; execution and pointers stay as they are. -/
def toPointer : WireType → WireType
  | .float => .floatPtr
  | .vec3 => .vec3Ptr
  | .rot => .rotPtr
  | .bool => .boolPtr
  | .obj => .objPtr
  | .con => .conPtr
  | other => other

/-- What a pointer points at; anything else stays as it is. -/
def toValue : WireType → WireType
  | .floatPtr => .float
  | .vec3Ptr => .vec3
  | .rotPtr => .rot
  | .boolPtr => .bool
  | .objPtr => .obj
  | .conPtr => .con
  | other => other

/-- An output may feed an input of its own type, and a pointer also an input of the type it points
at. The reverse is not allowed. -/
def canConnect (source target : WireType) : Bool :=
  decide (source = target) || (source.isPointer && decide (source.toValue = target))

def name : WireType → String
  | .void => "Void"
  | .float => "Float"
  | .vec3 => "Vec3"
  | .rot => "Rot"
  | .bool => "Bool"
  | .obj => "Obj"
  | .con => "Con"
  | .floatPtr => "FloatPtr"
  | .vec3Ptr => "Vec3Ptr"
  | .rotPtr => "RotPtr"
  | .boolPtr => "BoolPtr"
  | .objPtr => "ObjPtr"
  | .conPtr => "ConPtr"

end WireType

/-- The wire that carries an element; nothing carries a generic one. -/
def ElementTy.wire? : ElementTy → Option WireType
  | .bool => some .bool
  | .float => some .float
  | .vector3 => some .vec3
  | .rotation => some .rot
  | .object => some .obj
  | .generic => none

/-- The wire that carries a value of the type. An array travels as a pointer to its first
element. -/
def Ty.wire? : Ty → Option WireType
  | .void => some .void
  | .bool => some .bool
  | .float => some .float
  | .vector3 => some .vec3
  | .rotation => some .rot
  | .object => some .obj
  | .array e => e.wire?.map WireType.toPointer
  | .generic | .segment _ | .error => none

end Wirescript
