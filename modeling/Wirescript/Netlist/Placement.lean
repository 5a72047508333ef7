import Wirescript.Netlist.Block

/-!
# Placement

Which blocks a level has, in the order in which they were placed, and how they are grouped. Where a
block stands is somebody else's business, but blocks of one segment belong together: each part of a
conditional is a segment of its own, and the depths tell how far inside a block stands.
-/

namespace Wirescript

structure PlacedBlock where
  shape : BlockShape
  /-- The group that the block was placed in; 0 outside all groups. -/
  segment : Nat
  statementDepth : Nat
  expressionDepth : Nat
  deriving DecidableEq, Repr, Inhabited

structure Placement where
  /-- The blocks by number. -/
  blocks : List PlacedBlock := []
  /-- The segments that are open, from the inside out. -/
  openSegments : List Nat := []
  /-- How many segments have been opened. -/
  segments : Nat := 0
  expressionDepth : Nat := 0
  deriving Inhabited

namespace Placement

/-- Places a block. Its number is the number of blocks before. -/
def place (p : Placement) (shape : BlockShape) : Block × Placement :=
  let placed : PlacedBlock :=
    { shape := shape
      segment := p.openSegments.head?.getD 0
      statementDepth := p.openSegments.length
      expressionDepth := p.expressionDepth }
  (⟨p.blocks.length, shape⟩, { p with blocks := p.blocks ++ [placed] })

def enterStatement (p : Placement) : Placement :=
  { p with openSegments := (p.segments + 1) :: p.openSegments, segments := p.segments + 1 }

/-- Closes the innermost segment, if one is open. -/
def exitStatement (p : Placement) : Placement := { p with openSegments := p.openSegments.tail }

def enterExpression (p : Placement) : Placement :=
  { p with expressionDepth := p.expressionDepth + 1 }

def exitExpression (p : Placement) : Placement :=
  { p with expressionDepth := p.expressionDepth - 1 }

/-- Everything that was entered has been left. -/
def isBalanced (p : Placement) : Bool := p.openSegments.isEmpty && p.expressionDepth == 0

/-- The block of a number. -/
def block? (p : Placement) (id : Nat) : Option Block := p.blocks[id]?.map fun b ↦ ⟨id, b.shape⟩

/-- The numbers of the blocks of a shape. -/
def find (p : Placement) (shape : BlockShape) : List Nat :=
  p.blocks.zipIdx.filterMap fun (b, id) ↦ if b.shape = shape then some id else none

end Placement

end Wirescript
