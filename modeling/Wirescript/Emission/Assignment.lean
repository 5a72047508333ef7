import Wirescript.Emission.Data
import Wirescript.Tree.Build

/-!
# Emission of assignments

A block that sets a cell. A component is set by setting its base, with the other components as they
are. For an inline variable nothing is placed: what it was assigned takes its place wherever it is
read.
-/

namespace Wirescript.Emit

/-- The value of an expression, with its blocks in a group. -/
def valueOf (e : Expr) : Emit Feed := inExpression e.source.whole

/-- A block that sets a cell. -/
def setCell (x : Variable) (value : Feed) : Emit Handle := do
  match x.type.wire?.bind Catalog.setVariable? with
  | none => breach (.noSetBlock x)
  | some shape =>
    let block ← place shape
    setValue block 0 (.text x.storageName)
    feed value (← block.input "Value")
    active block

/-- What an inline variable stands for from now on. -/
def setInline (x : Variable) (value : Feed) : Emit Handle := do
  modify fun s ↦ { s with inlines := s.inlines.insert x { feed := value } }
  return .pass

/-- Stores what a terminal carries. -/
def store (span : Span) : Variable → Feed → Emit Handle
  | .slot s, value =>
    if (Variable.slot s).isInline then setInline (.slot s) value else setCell (.slot s) value
  | .component base axis origin, value =>
    if base.isInline then setInline (.component base axis origin) value
    else do
      let components ← eachAxis fun other ↦
        if other = axis then pure value else readAxis base span other
      let whole ← make base.type components
      store span base whole

/-- Stores the value of an expression. -/
def assign (x : Variable) (value : Expr) : Emit Handle := do
  store value.span x (← valueOf value)

end Wirescript.Emit
