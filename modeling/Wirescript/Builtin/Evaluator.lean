import Wirescript.Value.Operator

/-!
# Evaluators of built-in functions

The built-in functions whose value is known as soon as their arguments are. An evaluator is data,
so that functions that refer to one can be compared.
-/

namespace Wirescript

inductive Evaluator where
  | absolute
  | floor
  | ceiling
  | round
  | minimum
  | maximum
  | power
  | distance
  | dot
  | cross
  /-- The same value whatever the arguments. -/
  | always (value : Value)
  deriving DecidableEq, Repr, Inhabited

namespace Evaluator

/-- The function of one number that an evaluator computes. -/
def ofNumber? : Evaluator → Option (Float32 → Float32)
  | .absolute => some Float32.abs
  | .floor => some Number.floor
  | .ceiling => some Number.ceiling
  | .round => some Number.round
  | _ => none

/-- The function of two numbers that an evaluator computes. -/
def ofNumbers? : Evaluator → Option (Float32 → Float32 → Float32)
  | .minimum => some Number.minimum
  | .maximum => some Number.maximum
  | .power => some Float32.pow
  | _ => none

def dotProduct (a b : Vec3) : Float32 := a.x * b.x + a.y * b.y + a.z * b.z

def crossProduct (a b : Vec3) : Vec3 :=
  ⟨a.y * b.z - a.z * b.y, a.z * b.x - a.x * b.z, a.x * b.y - a.y * b.x⟩

/-- The function of two vectors that an evaluator computes. -/
def ofVectors? : Evaluator → Option (Vec3 → Vec3 → Value)
  | .distance => some fun a b ↦
    let d := a.zipWith (· - ·) b
    .float (dotProduct d d).sqrt
  | .dot => some fun a b ↦ .float (dotProduct a b)
  | .cross => some fun a b ↦ .vector3 (crossProduct a b)
  | _ => none

/-- The value at the arguments; none when they do not have the number and the types asked for. -/
def compute? (e : Evaluator) (arguments : List Value) : Option Value :=
  match e, arguments with
  | .always value, _ => some value
  | e, [.float a] => e.ofNumber?.map fun f ↦ .float (f a)
  | e, [.float a, .float b] => e.ofNumbers?.map fun f ↦ .float (f a b)
  | e, [.vector3 a, .vector3 b] => e.ofVectors?.map fun f ↦ f a b
  | _, _ => none

end Evaluator

end Wirescript
