import Wirescript.Ty

/-!
# Events and hints

The events that a script can wait for, with the arguments that each one takes, and the marks that
guide the placement of blocks.
-/

namespace Wirescript

inductive Event where
  | play
  | lateUpdate
  | boxArt
  | touch
  | swipe
  | button
  deriving DecidableEq, Repr, Inhabited

inductive EventParameterKind where
  /-- Receives an output of the sensor each time the event fires. -/
  | output
  /-- Configures the sensor, so it has to be a constant. -/
  | setting
  deriving DecidableEq, Repr, Inhabited

def EventParameterKind.name : EventParameterKind → String
  | .output => "Out"
  | .setting => "Constant"

structure EventParameter where
  name : String
  type : Ty
  kind : EventParameterKind
  deriving DecidableEq, Repr, Inhabited

namespace Event

def all : List Event := [.play, .lateUpdate, .boxArt, .touch, .swipe, .button]

def name : Event → String
  | .play => "Play"
  | .lateUpdate => "LateUpdate"
  | .boxArt => "BoxArt"
  | .touch => "Touch"
  | .swipe => "Swipe"
  | .button => "Button"

def parameters : Event → List EventParameter
  | .play | .lateUpdate | .boxArt => []
  | .touch =>
    [⟨"screenX", .float, .output⟩, ⟨"screenY", .float, .output⟩,
     ⟨"state", .float, .setting⟩, ⟨"finger", .float, .setting⟩]
  | .swipe => [⟨"direction", .vector3, .output⟩]
  | .button => [⟨"type", .float, .setting⟩]

end Event

/-- A mark for the placement of blocks. It never affects a value. -/
inductive Hint where
  | enterBlock
  | exitBlock
  | enterHighlight
  | exitHighlight
  deriving DecidableEq, Repr, Inhabited

def Hint.all : List Hint := [.enterBlock, .exitBlock, .enterHighlight, .exitHighlight]

def Hint.name : Hint → String
  | .enterBlock => "enter_block"
  | .exitBlock => "exit_block"
  | .enterHighlight => "enter_highlight"
  | .exitHighlight => "exit_highlight"

def Hint.render : Hint → String
  | .enterBlock => "<enter block>"
  | .exitBlock => "<exit block>"
  | .enterHighlight => "<enter highlight>"
  | .exitHighlight => "<exit highlight>"

end Wirescript
