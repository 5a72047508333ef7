import Wirescript.Fault
import Wirescript.Text.Quoted

/-!
# Placed blocks

A block of a level: its shape and the number it got when it was placed. Its terminals are found by
name or by position, and asking for one that it does not have is a fault. A block has numbered slots
for values of its own.
-/

namespace Wirescript

structure Block where
  id : Nat
  shape : BlockShape
  deriving DecidableEq, Repr, Inhabited

namespace Block

def inputAt (b : Block) (index : Nat) : Except Fault Terminal :=
  match b.shape.inputs[index]? with
  | some t => .ok ⟨b.id, .input, index, t.wire⟩
  | none => .error (.internal (.noInput b.shape.name index))

def outputAt (b : Block) (index : Nat) : Except Fault Terminal :=
  match b.shape.outputs[index]? with
  | some t => .ok ⟨b.id, .output, index, t.wire⟩
  | none => .error (.internal (.noOutput b.shape.name index))

def input (b : Block) (name : String) : Except Fault Terminal :=
  match b.shape.inputs.findIdx? (·.name == name) with
  | some index => b.inputAt index
  | none => .error (.unknownTerminal b.shape.name name)

def output (b : Block) (name : String) : Except Fault Terminal :=
  match b.shape.outputs.findIdx? (·.name == name) with
  | some index => b.outputAt index
  | none => .error (.unknownTerminal b.shape.name name)

/-- Where execution enters. -/
def before (b : Block) : Except Fault Terminal := b.input "Before"

/-- Where execution leaves when the block is done. -/
def after (b : Block) : Except Fault Terminal := b.output "After"

end Block

/-- What a slot of a block holds. -/
inductive BlockValue where
  | float (value : Float32)
  | vector (value : Vec3)
  | rotation (value : Vec3)
  | text (value : String)
  | byte (value : Nat)
  deriving DecidableEq, Repr, Inhabited

def BlockValue.render : BlockValue → String
  | .float v => Number.render v
  | .vector v | .rotation v => Vec3.render v
  | .text s => Text.quoted s
  | .byte n => toString n

end Wirescript
