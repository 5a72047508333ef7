import Wirescript.Number.Shortest
import Wirescript.Ty

/-!
# Values

The values that constants and storage cells hold. Numbers are 32-bit floats throughout.
-/

namespace Wirescript

/-- One of the three components of a vector or rotation. -/
inductive Axis where
  | x
  | y
  | z
  deriving DecidableEq, Repr, Inhabited

namespace Axis

def name : Axis → String
  | .x => "x"
  | .y => "y"
  | .z => "z"

end Axis

/-- One thing for each axis. -/
structure Triple (α : Type) where
  x : α
  y : α
  z : α
  deriving DecidableEq, Repr, Inhabited

namespace Triple

variable {α β γ : Type}

def get (t : Triple α) : Axis → α
  | .x => t.x
  | .y => t.y
  | .z => t.z

/-- Replaces the component on one axis. -/
def set (t : Triple α) (axis : Axis) (a : α) : Triple α :=
  match axis with
  | .x => { t with x := a }
  | .y => { t with y := a }
  | .z => { t with z := a }

def map (f : α → β) (t : Triple α) : Triple β := ⟨f t.x, f t.y, f t.z⟩

def zipWith (f : α → β → γ) (s : Triple α) (t : Triple β) : Triple γ :=
  ⟨f s.x t.x, f s.y t.y, f s.z t.z⟩

/-- The same thing on every axis. -/
def splat (a : α) : Triple α := ⟨a, a, a⟩

def toList (t : Triple α) : List α := [t.x, t.y, t.z]

end Triple

/-- Three floats, as a direction or as angles. -/
abbrev Vec3 := Triple Float32

/-- The components in brackets. -/
def Vec3.render (v : Vec3) : String :=
  "(" ++ ", ".intercalate (v.map Number.render).toList ++ ")"

/-- Componentwise equality of numbers: a NaN differs from itself, the zeros are equal. -/
def Vec3.sameNumbers (v w : Vec3) : Bool := v.x.beq w.x && v.y.beq w.y && v.z.beq w.z

/-- A value of the script language. -/
inductive Value where
  | bool (b : Bool)
  | float (f : Float32)
  | vector3 (v : Vec3)
  | rotation (v : Vec3)
  /-- The null object. -/
  | null
  deriving DecidableEq, Repr, Inhabited

namespace Value

def type : Value → Ty
  | .bool _ => .bool
  | .float _ => .float
  | .vector3 _ => .vector3
  | .rotation _ => .rotation
  | .null => .object

def bool? : Value → Option Bool
  | .bool b => some b
  | _ => none

def float? : Value → Option Float32
  | .float f => some f
  | _ => none

/-- The components of a vector or rotation. -/
def components? : Value → Option Vec3
  | .vector3 v | .rotation v => some v
  | _ => none

/-- Three components as a rotation or, for any other type, as a vector. -/
def ofComponents (type : Ty) (v : Vec3) : Value :=
  match type with
  | .rotation => .rotation v
  | _ => .vector3 v

def render : Value → String
  | .bool b => if b then "true" else "false"
  | .float f => Number.render f
  | .vector3 v => "vec" ++ v.render
  | .rotation v => "rot" ++ v.render
  | .null => "null"

end Value

/-- The value that a storage cell of the type holds before anything is stored in it. -/
def Ty.default? : Ty → Option Value
  | .bool => some (.bool false)
  | .float => some (.float 0)
  | .vector3 => some (.vector3 (.splat 0))
  | .rotation => some (.rotation (.splat 0))
  | .object => some .null
  | .void | .generic | .array _ | .segment _ | .error => none

end Wirescript
