/-!
# Revised nodes

Some passes derive the note of a node again only where something below it has changed. So a step of
such a pass answers with the node and whether it differs from the one that was given: an expression
that is revised without a change is the very expression, with the note it came with.
-/

namespace Wirescript

/-- The outcome of a step on a node, and whether it is another node than before. -/
structure Revised (α : Type) where
  node : α
  changed : Bool
  deriving Inhabited

namespace Revised

def same {α : Type} (node : α) : Revised α := ⟨node, false⟩

def new {α : Type} (node : α) : Revised α := ⟨node, true⟩

/-- The node as it came, unless something below it changed. -/
def choose {α : Type} (changed : Bool) (kept derived : α) : Revised α :=
  if changed then .new derived else .same kept

def map {α β : Type} (f : α → β) (r : Revised α) : Revised β := ⟨f r.node, r.changed⟩

def map₂ {α β γ : Type} (f : α → β → γ) (r : Revised α) (s : Revised β) : Revised γ :=
  ⟨f r.node s.node, r.changed || s.changed⟩

end Revised

end Wirescript
