import Wirescript.Emission.Assignment

/-!
# Emission of stores to arrays

An element of an array is stored through a pointer, which a list block computes from the pointer to
an element before it and a distance. Stores to consecutive elements use the element of the store
before, at distance one. The first element of a plain array variable is the cell of the variable.
-/

namespace Wirescript.Emit

/-- What a store to an element writes to. -/
inductive ElementTarget where
  /-- The first element, through the name of the array. -/
  | cell (x : Variable)
  | pointer (element : Terminal)
  deriving DecidableEq, Repr, Inhabited

/-- The element after the one that was stored last, if that is the one asked for. -/
def successor? (cursor : Option ListCursor) (array : Variable) (index : Float32) :
    Option (Option Terminal) :=
  match cursor with
  | some c => if decide (c.array = array) && c.index + 1 == index then some c.element else none
  | none => none

/-- A pointer computed from an index. -/
def indexed (array index : Expr) : Emit ElementTarget := do
  let base ← array.source.whole
  let i ← index.source.whole
  return .pointer (← element array.type base i)

def elementTarget (array index : Expr) : Emit ElementTarget := do
  match index.constantFloat?, array.read?.filter fun x ↦ !x.isInline && !x.isComponent with
  | some i, some x =>
    match successor? (← get).cursor x i with
    | some previous =>
      let base ← match previous with
        | some element => pure (some element)
        | none => array.source.whole
      let step ← number 1
      return .pointer (← element array.type base step)
    | none => if i == 0 then return .cell x else indexed array index
  | _, _ => indexed array index

/-- A block that stores through a pointer. -/
def setPointer (target : Terminal) (value : Feed) : Emit Handle := do
  match Catalog.setPointer? target.wire with
  | none => breach (.noPointerStore target.wire)
  | some shape =>
    let block ← place shape
    connect target (← block.input "Variable")
    feed value (← block.input "Value")
    active block

/-- Stores a value to an element of an array. -/
def storeElement (array index value : Expr) (span : Span) : Emit Handle := do
  let (target, feed) ← inExpression do
    let target ← elementTarget array index
    return (target, ← value.source.whole)
  let (h, element) ← match target with
    | .cell x => do pure (← store span x feed, none)
    | .pointer t => do pure (← setPointer t feed, some t)
  let cursor := match array.read?, index.constantFloat? with
    | some x, some i => some ⟨x, i, element⟩
    | _, _ => none
  modify fun s ↦ { s with cursor := cursor }
  return h

/-- Stores values to consecutive elements, the first one at `start`. -/
def storeRange (array : Expr) (start : Float32) (startSpan span : Span) :
    Nat → Chain → List Expr → Emit Handle
  | _, chain, [] => return chain.toHandle
  | i, chain, item :: rest => do
    let index := Build.float (start + Float32.ofNat i) startSpan
    let h ← storeElement array index item span
    storeRange array start startSpan span (i + 1) (← append chain h) rest

/-- A call of the function that stores one element. -/
def elementStore (arguments : List Expr) (span : Span) : Emit Handle :=
  match arguments with
  | [array, index, value] => storeElement array index value span
  | _ => breach (.emissionArguments .elementStore)

/-- A call of the function that stores a literal list. -/
def rangeStore (arguments : List Expr) (span : Span) : Emit Handle :=
  match arguments with
  | [array, start, values] =>
    match start.constantFloat? with
    | none => complain .notConstant start.span
    | some first =>
      match values with
      | .segment _ items => storeRange array first start.span span 0 {} items
      | other => breach (.notLiteralList other)
  | _ => breach (.emissionArguments .rangeStore)

end Wirescript.Emit
