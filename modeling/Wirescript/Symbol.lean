import Wirescript.Value.Basic

/-!
# Variables and labels

A script tells variables apart by where they were introduced, not by name: two variables of sibling
scopes may share a name and are still two. The `Origin` of a variable is that identity, and every
pass that introduces variables has origins of its own, so equality of variables is equality of data
and no supply of fresh identities is needed.

A component of a vector variable is not a cell of its own. It is written as its base and an axis,
and has an origin like any other variable. Two mentions of it in the script are equal. A copy of a
body that gives it another base has a component of its own, even if a second component of that body
is given the same base.
-/

namespace Wirescript

/-- The modifiers written at a declaration. -/
structure Modifiers where
  readonly : Bool := false
  constant : Bool := false
  ref : Bool := false
  out : Bool := false
  inline : Bool := false
  global : Bool := false
  saved : Bool := false
  deriving DecidableEq, Repr, Inhabited

/-- The modifiers that a list of words names. -/
def Modifiers.ofWords (words : List String) : Modifiers where
  readonly := words.contains "readonly"
  constant := words.contains "constant"
  ref := words.contains "ref"
  out := words.contains "out"
  inline := words.contains "inline"
  global := words.contains "global"
  saved := words.contains "saved"

/-- The words for modifiers, in a fixed order. -/
def Modifiers.words (m : Modifiers) : List String :=
  [(m.readonly, "readonly"), (m.constant, "constant"), (m.ref, "ref"), (m.out, "out"),
   (m.inline, "inline"), (m.global, "global"), (m.saved, "saved")].filterMap fun (on, word) ↦
    if on then some word else none

/-- The callee writes through to the argument. -/
def Modifiers.byReference (m : Modifiers) : Bool := m.ref || m.out

/-- Where a variable was introduced. -/
inductive Origin where
  /-- By a declaration of the script. -/
  | declared (id : Nat)
  /-- By a routine, to hold its result. -/
  | result (routine : Nat)
  /-- By the extraction of effects from a routine, in order. -/
  | extracted (routine index : Nat)
  /-- By the expansion of a call, for the argument at a position. -/
  | argument (site position : Nat)
  /-- By the expansion of a call, for a variable of the body that was copied. -/
  | copied (site : Nat) (source : Origin)
  /-- By the first mention of a component of another variable. -/
  | component (base : Origin) (axis : Axis)
  deriving DecidableEq, Repr, Inhabited

/-- What a variable is for. -/
inductive Role where
  | global
  /-- Declared in the body of a routine. -/
  | scoped
  | parameter
  /-- Introduced by the compiler. -/
  | temporary
  deriving DecidableEq, Repr, Inhabited

/-- A variable that is stored in a cell. -/
structure Slot where
  origin : Origin
  name : String
  type : Ty
  role : Role
  modifiers : Modifiers := {}
  deriving DecidableEq, Repr, Inhabited

/-- A cell, or a component of what another variable holds. -/
inductive Variable where
  | slot (slot : Slot)
  | component (base : Variable) (axis : Axis) (origin : Origin)
  deriving DecidableEq, Repr, Inhabited

namespace Variable

def origin : Variable → Origin
  | .slot s => s.origin
  | .component _ _ origin => origin

/-- The component of a variable on an axis, as the script mentions it. -/
def onAxis (base : Variable) (axis : Axis) : Variable :=
  .component base axis (.component base.origin axis)

def name : Variable → String
  | .slot s => s.name
  | .component base axis _ => base.name ++ "." ++ axis.name

def type : Variable → Ty
  | .slot s => s.type
  | .component .. => .float

/-- A component has the modifiers of its base. -/
def modifiers : Variable → Modifiers
  | .slot s => s.modifiers
  | .component base _ _ => base.modifiers

def isGlobal : Variable → Bool
  | .slot s => decide (s.role = .global)
  | .component .. => false

def isTemporary : Variable → Bool
  | .slot s => decide (s.role = .temporary)
  | .component .. => false

def isInline (x : Variable) : Bool := x.modifiers.inline

/-- The base and the axis of a component. -/
def component? : Variable → Option (Variable × Axis)
  | .slot _ => none
  | .component base axis _ => some (base, axis)

def isComponent (x : Variable) : Bool := x.component?.isSome

/-- The variable whose cell holds the value: the base of a component, at any depth. -/
def cell : Variable → Variable
  | .slot s => .slot s
  | .component base _ _ => base.cell

/-- The name of the storage cell. A global is marked by a sign in front, a saved one by another. -/
def storageName (x : Variable) : String :=
  if x.isGlobal then (if x.modifiers.saved then "!" else "$") ++ x.name else x.name

/-- Name and type, as in a signature. -/
def signature (x : Variable) : String := x.name ++ ": " ++ x.type.render

end Variable

/-- A position in flat code, identified by its name. -/
structure Label where
  name : String
  deriving DecidableEq, Repr, Inhabited

/-- A label as it is written where it is defined. -/
def Label.definition (l : Label) : String := l.name ++ ":"

end Wirescript
