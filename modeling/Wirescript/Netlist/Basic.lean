import Wirescript.Netlist.Block

/-!
# Netlists

What the slots of the blocks of a level hold and how their terminals are wired. Everything is kept
in the order in which it was added. A wire between terminals that do not fit is added all the same
and listed as a misfit.
-/

namespace Wirescript

structure Wire where
  source : Terminal
  target : Terminal
  deriving DecidableEq, Repr, Inhabited

/-- The wire leads from an output to an input that takes what the output carries. -/
def Wire.fits (w : Wire) : Bool :=
  decide (w.source.direction = .output) && decide (w.target.direction = .input)
    && w.source.wire.canConnect w.target.wire

/-- A value put into a slot of a block. -/
structure Setting where
  block : Nat
  slot : Nat
  value : BlockValue
  deriving DecidableEq, Repr, Inhabited

structure Netlist where
  settings : List Setting := []
  wires : List Wire := []
  highlighted : List Nat := []
  /-- The wires whose ends do not fit. -/
  misfits : List Wire := []
  deriving DecidableEq, Repr, Inhabited

namespace Netlist

def setValue (n : Netlist) (block slot : Nat) (value : BlockValue) : Netlist :=
  { n with settings := n.settings ++ [⟨block, slot, value⟩] }

def connect (n : Netlist) (w : Wire) : Netlist :=
  { n with
    wires := n.wires ++ [w]
    misfits := if w.fits then n.misfits else n.misfits ++ [w] }

def connectAll (n : Netlist) (wires : List Wire) : Netlist := wires.foldl connect n

def highlight (n : Netlist) (block : Nat) : Netlist :=
  { n with highlighted := n.highlighted ++ [block] }

/-- What a slot holds: the last value that was put there. -/
def value? (n : Netlist) (block slot : Nat) : Option BlockValue :=
  (n.settings.reverse.find? fun s ↦ decide (s.block = block) && decide (s.slot = slot)).map
    Setting.value

def wiresFrom (n : Netlist) (t : Terminal) : List Wire :=
  n.wires.filter fun w ↦ decide (w.source = t)

def wiresInto (n : Netlist) (block : Nat) : List Wire :=
  n.wires.filter fun w ↦ decide (w.target.block = block)

def isConnected (n : Netlist) (source target : Terminal) : Bool := decide (⟨source, target⟩ ∈ n.wires)

/-- The blocks that execution goes to from a block, in the order of the wires. -/
def successors (n : Netlist) (block : Nat) : List Nat :=
  n.wires.filterMap fun w ↦
    if w.source.block = block ∧ w.source.wire = .void then some w.target.block else none

end Netlist

end Wirescript
