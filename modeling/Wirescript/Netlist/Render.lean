import Wirescript.Netlist.Basic
import Wirescript.Netlist.Placement

/-!
# Levels as text

One short line for each block, setting and wire of a level. A terminal is written as its block, a
letter for its side and its position.
-/

namespace Wirescript

def Terminal.render (t : Terminal) : String :=
  let side := match t.direction with
    | .input => "i"
    | .output => "o"
  s!"{t.block}{side}{t.index}"

def Wire.render (w : Wire) : String := w.source.render ++ ">" ++ w.target.render

/-- The word for the kind of a value. -/
def BlockValue.kind : BlockValue → String
  | .float _ => "float"
  | .vector _ => "vector"
  | .rotation _ => "rotation"
  | .text _ => "text"
  | .byte _ => "byte"

/-- A value after the word for its kind. -/
def BlockValue.describe (v : BlockValue) : String := v.kind ++ " " ++ v.render

def Setting.render (s : Setting) : String := s!"{s.block}.{s.slot} {s.value.describe}"

/-- The name of a block, its segment and the depths that it stands at. -/
def PlacedBlock.render (b : PlacedBlock) : String :=
  s!"{b.shape.name} s{b.segment} d{b.statementDepth} e{b.expressionDepth}"

end Wirescript
