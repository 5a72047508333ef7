import Wirescript.Symbol
import Wirescript.Wire

/-!
# Terminals and handles

A terminal is one end of a wire: a placed block, a side of it and a position on that side. A handle
is what emission of one statement leaves for the statements around it: where execution enters and
leaves, or which label it goes to.
-/

namespace Wirescript

inductive Direction where
  | input
  | output
  deriving DecidableEq, Repr, Inhabited

/-- One terminal of a placed block. -/
structure Terminal where
  block : Nat
  direction : Direction
  index : Nat
  wire : WireType
  deriving DecidableEq, Repr, Inhabited

/-- The terminal in full, for records of what was wired. -/
def Terminal.describe (t : Terminal) : String :=
  let side := match t.direction with
    | .input => "In"
    | .output => "Out"
  "TerminalRef \x7b block: BlockId(" ++ toString t.block ++ "), direction: " ++ side
    ++ ", index: " ++ toString t.index ++ ", wire: " ++ t.wire.name ++ " \x7d"

/-- What an emitted statement exposes to its surroundings. -/
inductive Handle where
  /-- Nothing was placed; control passes straight through. -/
  | pass
  | basic (entry : Terminal) (exits : List Terminal)
  | goto (target : Label)
  | label (label : Label)
  /-- Execution leaves by `jumps` for the label and by `fallThrough` for the next statement. -/
  | branch (entry : Terminal) (fallThrough : List Terminal) (target : Label)
      (jumps : List Terminal)
  /-- Ends without a wire: whatever fired the event has gone on already. -/
  | rollback
  | ret
  | multi (handles : List Handle)
  deriving Inhabited

/-- Several terminals in full. -/
def describeAll (ts : List Terminal) : String :=
  "[" ++ ", ".intercalate (ts.map Terminal.describe) ++ "]"

mutual

/-- The handle in full. -/
def Handle.describe : Handle → String
  | .pass => "Nop"
  | .basic entry exits =>
    "Basic \x7b entry: " ++ entry.describe ++ ", exits: " ++ describeAll exits ++ " \x7d"
  | .goto target => "Goto(" ++ target.definition ++ ")"
  | .label l => "Label(" ++ l.definition ++ ")"
  | .branch entry fallThrough target jumps =>
    "Branch \x7b entry: " ++ entry.describe ++ ", fall_through: " ++ describeAll fallThrough
      ++ ", label: " ++ target.definition ++ ", jumps: " ++ describeAll jumps ++ " \x7d"
  | .rollback => "Rollback"
  | .ret => "Return"
  | .multi handles => "Multi([" ++ ", ".intercalate (Handle.describeEach handles) ++ "])"

def Handle.describeEach : List Handle → List String
  | [] => []
  | h :: rest => h.describe :: Handle.describeEach rest

end

end Wirescript
