import Wirescript.Fault
import Wirescript.Table

/-!
# Memory

What the cells of a running program hold. A cell is found by a key that is computed from the slot of
the variable; a level uses the storage name. Two variables with one key share one cell, as they do
in a level, and a cell that was never written holds the default of its type.
-/

namespace Wirescript

/-- The cells that have been written, in the order in which that first happened. -/
abbrev Memory (κ : Type) := Table κ Value

namespace Memory

variable {κ : Type} [DecidableEq κ] (key : Slot → κ)

/-- The key of a cell in a level. -/
def storageKey (s : Slot) : String := (Variable.slot s).storageName

def load (m : Memory κ) : Variable → Value
  | .slot s => ((m.get? (key s)).or s.type.default?).getD .null
  | .component base axis _ => .float (((m.load base).components?.map (·.get axis)).getD 0)

/-- Stores a value. A component is stored by storing its base with that component replaced. -/
def store (m : Memory κ) : Variable → Value → Except Fault (Memory κ)
  | .slot s, value => .ok (m.insert (key s) value)
  | .component base axis origin, value =>
    match value.float? with
    | none => .error (.internal (.takesFloat (.component base axis origin)))
    | some number =>
      match m.load key base with
      | .vector3 v => m.store base (.vector3 (v.set axis number))
      | .rotation v => m.store base (.rotation (v.set axis number))
      | other => .error (.internal (.holdsNoVector base other))

end Memory

end Wirescript
