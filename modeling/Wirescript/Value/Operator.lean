import Wirescript.Value.Basic

/-!
# Operators

The operators of the language, the type of an operation and its value. There is one table of
values: folding constants and running a script both read it, so they cannot disagree.
-/

namespace Wirescript

inductive UnaryOp where
  | identity
  | negate
  | not
  deriving DecidableEq, Repr, Inhabited

inductive BinaryOp where
  | add
  | subtract
  | multiply
  | divide
  | modulo
  | equals
  | notEquals
  | less
  | lessOrEqual
  | greater
  | greaterOrEqual
  | and
  | or
  deriving DecidableEq, Repr, Inhabited

namespace UnaryOp

def all : List UnaryOp := [.identity, .negate, .not]

def symbol : UnaryOp → String
  | .identity => "+"
  | .negate => "-"
  | .not => "!"

/-- The type of the operation on an operand of a type. -/
def resultType : UnaryOp → Ty → Ty
  | .not, _ => .bool
  | _, operand => operand

/-- The value of the operation, if it has one on that operand. -/
def compute? : UnaryOp → Value → Option Value
  | .identity, v => some v
  | .negate, .float f => some (.float (-f))
  | .negate, .vector3 v => some (.vector3 (v.map Neg.neg))
  | .negate, .rotation v => some (.rotation (v.map Neg.neg))
  | .not, .bool b => some (.bool !b)
  | _, _ => none

end UnaryOp

namespace BinaryOp

def all : List BinaryOp :=
  [.add, .subtract, .multiply, .divide, .modulo, .equals, .notEquals, .less, .lessOrEqual,
   .greater, .greaterOrEqual, .and, .or]

def symbol : BinaryOp → String
  | .add => "+"
  | .subtract => "-"
  | .multiply => "*"
  | .divide => "/"
  | .modulo => "%"
  | .equals => "=="
  | .notEquals => "!="
  | .less => "<"
  | .lessOrEqual => "<="
  | .greater => ">"
  | .greaterOrEqual => ">="
  | .and => "&&"
  | .or => "||"

/-- The left operand may decide the operation. -/
def isShortCircuit : BinaryOp → Bool
  | .and | .or => true
  | _ => false

def yieldsBool : BinaryOp → Bool
  | .equals | .notEquals | .less | .lessOrEqual | .greater | .greaterOrEqual | .and | .or => true
  | _ => false

/-- The type of the operation on operands of the types. -/
def resultType (op : BinaryOp) (left right : Ty) : Ty :=
  if op.yieldsBool then .bool
  else
    match left, right with
    | .float, .float => .float
    | .vector3, _ => .vector3
    | _, .vector3 => .vector3
    | .rotation, .rotation => .rotation
    | _, _ => .error

/-! ### Values -/

/-- The number that an arithmetic operator computes. -/
def arithmetic? : BinaryOp → Option (Float32 → Float32 → Float32)
  | .add => some (· + ·)
  | .subtract => some (· - ·)
  | .multiply => some (· * ·)
  | .divide => some (· / ·)
  | .modulo => some Number.remainder
  | _ => none

def onFloats (op : BinaryOp) (l r : Float32) : Option Value :=
  match op with
  | .equals => some (.bool (l.beq r))
  | .notEquals => some (.bool !(l.beq r))
  | .less => some (.bool (decide (l < r)))
  | .lessOrEqual => some (.bool (decide (l ≤ r)))
  | .greater => some (.bool (decide (r < l)))
  | .greaterOrEqual => some (.bool (decide (r ≤ l)))
  | _ => op.arithmetic?.map fun f ↦ .float (f l r)

def onBools (op : BinaryOp) (l r : Bool) : Option Value :=
  match op with
  | .and => some (.bool (l && r))
  | .or => some (.bool (l || r))
  | .equals => some (.bool (l == r))
  | .notEquals => some (.bool (l != r))
  | _ => none

def onVectors (op : BinaryOp) (l r : Vec3) : Option Value :=
  match op with
  | .equals => some (.bool (Vec3.sameNumbers l r))
  | .notEquals => some (.bool !(Vec3.sameNumbers l r))
  | _ => op.arithmetic?.map fun f ↦ .vector3 (l.zipWith f r)

/-- Rotations are added and compared by component. Their product is not known here. -/
def onRotations (op : BinaryOp) (l r : Vec3) : Option Value :=
  match op with
  | .add => some (.rotation (l.zipWith (· + ·) r))
  | .subtract => some (.rotation (l.zipWith (· - ·) r))
  | .equals => some (.bool (Vec3.sameNumbers l r))
  | .notEquals => some (.bool !(Vec3.sameNumbers l r))
  | _ => none

/-- A vector is multiplied, divided and reduced by a number on each axis. -/
def onVectorAndFloat (op : BinaryOp) (l : Vec3) (r : Float32) : Option Value :=
  match op with
  | .multiply | .divide | .modulo => op.arithmetic?.map fun f ↦ .vector3 (l.map (f · r))
  | _ => none

def onFloatAndVector (op : BinaryOp) (l : Float32) (r : Vec3) : Option Value :=
  match op with
  | .multiply => some (.vector3 (r.map (l * ·)))
  | _ => none

def onNulls : BinaryOp → Option Value
  | .equals => some (.bool true)
  | .notEquals => some (.bool false)
  | _ => none

/-- The left operand alone gives the value of the operation. -/
def decidedBy (op : BinaryOp) (left : Bool) : Bool :=
  match op with
  | .and => !left
  | .or => left
  | _ => false

/-- The value of the operation, if it has one on those operands. A short-circuit operator that its
left operand decides takes any right operand. -/
def compute? (op : BinaryOp) : Value → Value → Option Value
  | .float l, .float r => op.onFloats l r
  | .bool l, .bool r => op.onBools l r
  | .vector3 l, .vector3 r => op.onVectors l r
  | .vector3 l, .float r => op.onVectorAndFloat l r
  | .float l, .vector3 r => op.onFloatAndVector l r
  | .rotation l, .rotation r => op.onRotations l r
  | .null, .null => op.onNulls
  | .bool l, _ => if op.decidedBy l then some (.bool l) else none
  | _, _ => none

end BinaryOp

end Wirescript
