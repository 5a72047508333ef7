import Mathlib.Data.List.Basic
import Wirescript.Tree.Substitution
import Wirescript.Tree.Visit

/-!
# All nodes of a tree

What is said about a tree is often said about its nodes, each of them looked at alone. Two lists that
are collected from a tree, one of them perhaps after symbols have been replaced, are compared node by
node (`Visitor.Relates`); and a property of all nodes (`Expr.Each`, `Stmt.Each`) is one of the list of
the nodes.
-/

namespace Wirescript

open Stmt
open List hiding span

variable {e : Expr} {es : List Expr} {items : List Stmt} {s t : Stmt} {α : Type}

mutual

/-- Where nothing is to be replaced, a tree stays as it is. -/
theorem Expr.substitute_empty (e : Expr) : e.substitute {} = e := by
  match e with
  | .literal .. | .read .. | .step .. | .error _ => rfl
  | .unary n op operand | .convert n operand => rw [Expr.substitute, operand.substitute_empty]
  | .binary n op left right => rw [Expr.substitute, left.substitute_empty, right.substitute_empty]
  | .make n x y z =>
    rw [Expr.substitute, x.substitute_empty, y.substitute_empty, z.substitute_empty]
  | .call n callee arguments =>
    rw [Expr.substitute, Expr.substituteAll_empty arguments]
    cases callee <;> rfl
  | .segment n items => rw [Expr.substitute, Expr.substituteAll_empty items]
  | .assign n x value | .compound n x op value =>
    rw [Expr.substitute, value.substitute_empty]
    rfl
  | .statement n body => rw [Expr.substitute, body.substitute_empty]

@[inherit_doc Expr.substitute_empty]
theorem Expr.substituteAll_empty (es : List Expr) : Expr.substituteAll {} es = es := by
  match es with
  | [] => rfl
  | e :: rest => rw [Expr.substituteAll, e.substitute_empty, Expr.substituteAll_empty rest]

@[inherit_doc Expr.substitute_empty]
theorem Stmt.substitute_empty (s : Stmt) : s.substitute {} = s := by
  match s with
  | .block span items => rw [substitute, Stmt.substituteAll_empty items]
  | .declare .. | .label .. | .goto .. | .rollback .. | .ret _ | .hint .. | .nop _ => rfl
  | .define span nameSpan x value | .assign span x value | .compound span x op value
  | .gotoIf span x value sense =>
    rw [substitute, value.substitute_empty]
    rfl
  | .retValue span value | .expression span value => rw [substitute, value.substitute_empty]
  | .ifThen span condition body | .whileLoop span condition body | .doWhile span body condition =>
    rw [substitute, condition.substitute_empty, body.substitute_empty]
  | .ifElse span condition body alternative =>
    rw [substitute, condition.substitute_empty, body.substitute_empty,
      alternative.substitute_empty]
  | .on span event arguments body =>
    rw [substitute, Expr.substituteAll_empty arguments, body.substitute_empty]
  | .gotoOn span target event arguments =>
    rw [substitute, Expr.substituteAll_empty arguments]
    rfl
  | .call span callee arguments result =>
    rw [substitute, Expr.substituteAll_empty arguments]
    cases callee <;> cases result <;> rfl

@[inherit_doc Expr.substitute_empty]
theorem Stmt.substituteAll_empty (items : List Stmt) : Stmt.substituteAll {} items = items := by
  match items with
  | [] => rfl
  | s :: rest => rw [Stmt.substituteAll, s.substitute_empty, Stmt.substituteAll_empty rest]

end

/-! ### Lists of trees -/

section Lists

variable {v : Visitor α}

/-- A list of trees is visited tree by tree. -/
theorem Expr.visitAll_eq_flatMap (v : Visitor α) (es : List Expr) :
    Expr.visitAll v es = es.flatMap (·.visit v) := by
  induction es with
  | nil => rfl
  | cons e rest ih => rw [Expr.visitAll, ih, flatMap_cons]

@[inherit_doc Expr.visitAll_eq_flatMap]
theorem Stmt.visitAll_eq_flatMap (v : Visitor α) (items : List Stmt) :
    visitAll v items = items.flatMap (·.visit v) := by
  induction items with
  | nil => rfl
  | cons s rest ih => rw [visitAll, ih, flatMap_cons]

theorem Expr.mem_visitAll (he : e ∈ es) : e.visit v ⊆ Expr.visitAll v es := by
  rw [Expr.visitAll_eq_flatMap]
  exact fun a ha ↦ mem_flatMap.2 ⟨e, he, ha⟩

theorem Stmt.mem_visitAll (hs : s ∈ items) : s.visit v ⊆ visitAll v items := by
  rw [Stmt.visitAll_eq_flatMap]
  exact fun a ha ↦ mem_flatMap.2 ⟨s, hs, ha⟩

/-- What is collected from a list comes from one of its trees. -/
theorem Stmt.exists_of_mem_visitAll {a : α} (h : a ∈ visitAll v items) :
    ∃ s ∈ items, a ∈ s.visit v :=
  mem_flatMap.1 (Stmt.visitAll_eq_flatMap v items ▸ h)

theorem Stmt.visitAll_append (v : Visitor α) (xs ys : List Stmt) :
    visitAll v (xs ++ ys) = visitAll v xs ++ visitAll v ys := by
  simp [Stmt.visitAll_eq_flatMap]

/-- Symbols are replaced in each tree of a list alone. -/
theorem Expr.substituteAll_eq_map (σ : Substitution) (es : List Expr) :
    Expr.substituteAll σ es = es.map (Expr.substitute σ) := by
  induction es with
  | nil => rfl
  | cons e rest ih => rw [Expr.substituteAll, ih, map_cons]

@[inherit_doc Expr.substituteAll_eq_map]
theorem Stmt.substituteAll_eq_map (σ : Substitution) (items : List Stmt) :
    Stmt.substituteAll σ items = items.map (substitute σ) := by
  induction items with
  | nil => rfl
  | cons s rest ih => rw [Stmt.substituteAll, ih, map_cons]

theorem Stmt.flattenAll_eq_flatMap (items : List Stmt) :
    flattenAll items = items.flatMap flatten := by
  induction items with
  | nil => rfl
  | cons s rest ih => rw [flattenAll, ih, flatMap_cons]

end Lists

/-! ### Blocks -/

/-- Blocks are what flattening dissolves. -/
def Stmt.isBlock : Stmt → Bool
  | .block .. => true
  | _ => false

/-- Any other statement is flat, whatever it contains. -/
theorem Stmt.flatten_of_isBlock (h : s.isBlock = false) : s.flatten = [s] := by
  cases s
  case block => cases h
  all_goals rfl

mutual

/-- Flattening goes through blocks alone. -/
theorem Stmt.blockInduction {P : Stmt → Prop}
    (block : ∀ span items, (∀ s ∈ items, P s) → P (.block span items))
    (single : ∀ s : Stmt, s.isBlock = false → P s) (s : Stmt) : P s := by
  match s with
  | .block span items => exact block span items (blockInductionAll block single items)
  | .declare .. | .define .. | .assign .. | .compound .. | .ifThen .. | .ifElse .. | .whileLoop ..
  | .doWhile .. | .on .. | .label .. | .goto .. | .gotoIf .. | .gotoOn .. | .rollback .. | .ret _
  | .retValue .. | .call .. | .expression .. | .hint .. | .nop _ => exact single _ rfl

@[inherit_doc blockInduction]
theorem Stmt.blockInductionAll {P : Stmt → Prop}
    (block : ∀ span items, (∀ s ∈ items, P s) → P (.block span items))
    (single : ∀ s : Stmt, s.isBlock = false → P s) (items : List Stmt) : ∀ s ∈ items, P s := by
  match items with
  | [] => exact forall_mem_nil _
  | s :: rest =>
    exact forall_mem_cons.2
      ⟨blockInduction block single s, blockInductionAll block single rest⟩

end

theorem Stmt.mem_flatten_block {span : Span} :
    t ∈ (Stmt.block span items).flatten ↔ ∃ s ∈ items, t ∈ s.flatten := by
  rw [flatten, flattenAll_eq_flatMap, mem_flatMap]

/-- There are no blocks left in flattened code. -/
theorem Stmt.isBlock_of_mem_flatten (h : t ∈ s.flatten) : t.isBlock = false := by
  induction s using blockInduction with
  | block span items ih =>
    obtain ⟨s, hs, ht⟩ := mem_flatten_block.1 h
    exact ih s hs ht
  | single s hs =>
    rw [flatten_of_isBlock hs] at h
    exact mem_singleton.1 h ▸ hs

/-- Flat code stays as it is when it is flattened again. -/
theorem Stmt.flatten_of_mem_flatten (h : t ∈ s.flatten) : t.flatten = [t] :=
  flatten_of_isBlock (isBlock_of_mem_flatten h)

/-- Nothing is collected from flat code that is not collected from the tree. -/
theorem Stmt.visit_subset (v : Visitor α) (h : t ∈ s.flatten) : t.visit v ⊆ s.visit v := by
  induction s using blockInduction with
  | block span items ih =>
    obtain ⟨s, hs, ht⟩ := mem_flatten_block.1 h
    exact fun a ha ↦ mem_append_left _
      (mem_append_right _ (Stmt.mem_visitAll hs (ih s hs ht ha)))
  | single s hs =>
    rw [flatten_of_isBlock hs] at h
    exact mem_singleton.1 h ▸ .refl _

/-- Flattening may come before symbols are replaced, but what takes the place of a return may be a
block, so that it has to come again. -/
theorem Stmt.flatten_substitute (σ : Substitution) (s : Stmt) :
    (s.substitute σ).flatten = s.flatten.flatMap fun t ↦ (t.substitute σ).flatten := by
  induction s using blockInduction with
  | block span items ih =>
    rw [substitute, flatten, flatten, flattenAll_eq_flatMap,
      flattenAll_eq_flatMap, Stmt.substituteAll_eq_map, flatMap_map, flatMap_assoc]
    exact flatMap_congr ih
  | single s hs => rw [flatten_of_isBlock hs, flatMap_singleton]

/-! ### Comparison of what is collected -/

/-- A substitution chooses what takes the place of a return. -/
def Stmt.isReturn : Stmt → Bool
  | .ret _ | .retValue _ _ => true
  | _ => false

section Relates

variable {β : Type} {R : List α → List β → Prop} {σ : Substitution} {w : Visitor α} {v : Visitor β}

/-- At every node, what one visitor collects where symbols have been replaced is related to what
another one collects, and lists are related if their parts are. -/
structure Visitor.Relates (R : List α → List β → Prop) (σ : Substitution) (w : Visitor α)
    (v : Visitor β) : Prop where
  nil : R [] []
  append {xs ys : List α} {xs' ys' : List β} (h : R xs xs') (h' : R ys ys') :
    R (xs ++ ys) (xs' ++ ys')
  expr (e : Expr) : R (w.expr (e.substitute σ)) (v.expr e)
  stmt {s : Stmt} (hs : s.isReturn = false) {xs : List α} {xs' : List β} (h : R xs xs') :
    R (w.stmt (s.substitute σ) ++ xs ++ w.last (s.substitute σ)) (v.stmt s ++ xs' ++ v.last s)
  ret (span : Span) : R ((σ.ret span).visit w) ((Stmt.ret span).visit v)
  retValue (span : Span) {value : Expr} (h : R ((value.substitute σ).visit w) (value.visit v)) :
    R ((σ.retValue span (value.substitute σ)).visit w) ((Stmt.retValue span value).visit v)

namespace Visitor.Relates

mutual

/-- What two visitors collect from a tree is related if it is at every node. -/
theorem visit (h : Relates R σ w v) (e : Expr) : R ((e.substitute σ).visit w) (e.visit v) := by
  match e with
  | .literal .. | .read .. | .step .. | .error _ => exact h.append (h.expr _) h.nil
  | .unary _ _ operand | .convert _ operand | .assign _ _ operand | .compound _ _ _ operand =>
    exact h.append (h.expr _) (h.visit operand)
  | .binary _ _ left right => exact h.append (h.expr _) (h.append (h.visit left) (h.visit right))
  | .make _ x y z =>
    exact h.append (h.expr _) (h.append (h.append (h.visit x) (h.visit y)) (h.visit z))
  | .call _ _ arguments | .segment _ arguments => exact h.append (h.expr _) (h.visitAll arguments)
  | .statement _ body => exact h.append (h.expr _) (h.visitStmt body)

@[inherit_doc visit]
theorem visitAll (h : Relates R σ w v) (es : List Expr) :
    R (Expr.visitAll w (Expr.substituteAll σ es)) (Expr.visitAll v es) := by
  match es with
  | [] => exact h.nil
  | e :: rest => exact h.append (h.visit e) (h.visitAll rest)

@[inherit_doc visit]
theorem visitStmt (h : Relates R σ w v) (s : Stmt) : R ((s.substitute σ).visit w) (s.visit v) := by
  match s with
  | .ret span => exact h.ret span
  | .retValue span value => exact h.retValue span (h.visit value)
  | .declare .. | .label .. | .goto .. | .rollback .. | .hint .. | .nop _ => exact h.stmt rfl h.nil
  | .block _ items => exact h.stmt rfl (h.visitStmts items)
  | .define _ _ _ value | .assign _ _ value | .compound _ _ _ value | .gotoIf _ _ value _
  | .expression _ value => exact h.stmt rfl (h.visit value)
  | .ifThen _ condition body | .whileLoop _ condition body =>
    exact h.stmt rfl (h.append (h.visit condition) (h.visitStmt body))
  | .doWhile _ body condition => exact h.stmt rfl (h.append (h.visitStmt body) (h.visit condition))
  | .ifElse _ condition body alternative =>
    exact h.stmt rfl
      (h.append (h.append (h.visit condition) (h.visitStmt body)) (h.visitStmt alternative))
  | .on _ _ arguments body => exact h.stmt rfl (h.append (h.visitAll arguments) (h.visitStmt body))
  | .gotoOn _ _ _ arguments | .call _ _ arguments _ => exact h.stmt rfl (h.visitAll arguments)

@[inherit_doc visit]
theorem visitStmts (h : Relates R σ w v) (items : List Stmt) :
    R (visitAll w (Stmt.substituteAll σ items)) (visitAll v items) := by
  match items with
  | [] => exact h.nil
  | s :: rest => exact h.append (h.visitStmt s) (h.visitStmts rest)

end

/-- Nothing is replaced. -/
theorem self (nil : R [] [])
    (append : ∀ {xs ys : List α} {xs' ys' : List β}, R xs xs' → R ys ys' → R (xs ++ ys) (xs' ++ ys'))
    (expr : ∀ e, R (w.expr e) (v.expr e))
    (stmt : ∀ s {xs xs'}, R xs xs' → R (w.stmt s ++ xs ++ w.last s) (v.stmt s ++ xs' ++ v.last s)) :
    Relates R {} w v where
  nil := nil
  append := append
  expr e := by rw [e.substitute_empty]; exact expr e
  stmt {s} _ _ _ h := by rw [s.substitute_empty]; exact stmt s h
  ret span := stmt (.ret span) nil
  retValue span value h := by
    rw [value.substitute_empty] at h ⊢
    exact stmt (.retValue span value) h

end Visitor.Relates

end Relates

/-! ### Nodes -/

/-- Collects the nodes. -/
def nodeVisitor : Visitor (Expr ⊕ Stmt) where
  expr e := [.inl e]
  stmt s := [.inr s]

section Nodes

variable {v : Visitor α} {a : α}

/-- What is collected at a node. -/
def Visitor.node (v : Visitor α) : Expr ⊕ Stmt → List α :=
  Sum.elim v.expr fun s ↦ v.stmt s ++ v.last s

/-- What a visitor collects from a tree is what it collects at the nodes. -/
theorem Visitor.relates_node (v : Visitor α) :
    Visitor.Relates (fun xs nodes ↦ ∀ a, a ∈ xs ↔ ∃ n ∈ nodes, a ∈ v.node n) {} v nodeVisitor := by
  refine .self (by simp) (fun h h' a ↦ ?_) (fun e a ↦ ?_) fun s _ _ h a ↦ ?_
  · simp [h, h', or_and_right, exists_or]
  · simp [nodeVisitor, node]
  · have hnode : a ∈ v.node (.inr s) ↔ a ∈ v.stmt s ∨ a ∈ v.last s := mem_append
    simp only [nodeVisitor, append_nil, singleton_append, mem_append, h,
      mem_cons, exists_eq_or_imp, hnode]
    exact or_right_comm

@[inherit_doc Visitor.relates_node]
theorem Expr.mem_visit_iff : a ∈ e.visit v ↔ ∃ n ∈ e.visit nodeVisitor, a ∈ v.node n := by
  have h := v.relates_node.visit e a
  rwa [e.substitute_empty] at h

@[inherit_doc Visitor.relates_node]
theorem Stmt.mem_visit_iff : a ∈ s.visit v ↔ ∃ n ∈ s.visit nodeVisitor, a ∈ v.node n := by
  have h := v.relates_node.visitStmt s a
  rwa [s.substitute_empty] at h

variable {β : Type} {w : Visitor β} {b : β} (h : ∀ n, a ∈ v.node n ↔ b ∈ w.node n)
include h

/-- What two visitors collect at the same nodes they collect from the same trees. -/
theorem Expr.mem_visit_congr : a ∈ e.visit v ↔ b ∈ e.visit w := by
  rw [Expr.mem_visit_iff (v := v), Expr.mem_visit_iff (v := w)]
  simp only [h]

@[inherit_doc Expr.mem_visit_congr]
theorem Expr.mem_visitAll_congr : a ∈ Expr.visitAll v es ↔ b ∈ Expr.visitAll w es := by
  simp only [Expr.visitAll_eq_flatMap, mem_flatMap, Expr.mem_visit_congr h]

@[inherit_doc Expr.mem_visit_congr]
theorem Stmt.mem_visit_congr : a ∈ s.visit v ↔ b ∈ s.visit w := by
  rw [Stmt.mem_visit_iff (v := v), Stmt.mem_visit_iff (v := w)]
  simp only [h]

end Nodes

/-! ### Callees -/

/-- Collects the callees, once for each call. -/
def calleeVisitor : Visitor Callee where
  expr
    | .call _ callee _ => [callee]
    | _ => []
  stmt
    | .call _ callee _ _ => [callee]
    | _ => []

/-- Call sites are the calls of routines among all calls. -/
theorem Stmt.mem_callSites_iff {q : Routine} :
    q ∈ s.callSites ↔ .routine q ∈ s.visit calleeVisitor := by
  refine Stmt.mem_visit_congr fun n ↦ ?_
  have hcallee (c : Callee) : q ∈ c.routine?.toList ↔ .routine q = c := by
    cases c <;> simp [Callee.routine?, eq_comm]
  rcases n with e | t
  · cases e <;> simp [Visitor.node, callVisitor, calleeVisitor, hcallee]
  · cases t <;> simp [Visitor.node, callVisitor, calleeVisitor, hcallee]

section Each

variable (P : Expr → Prop) (Q : Stmt → Prop)

mutual

/-- All expressions in the tree have the one property, and all statements in it have the other. -/
def Expr.Each (e : Expr) : Prop :=
  P e ∧ match e with
    | .literal _ _ | .read _ _ | .step _ _ _ _ | .error _ => True
    | .unary _ _ operand | .convert _ operand => Expr.Each operand
    | .binary _ _ left right => Expr.Each left ∧ Expr.Each right
    | .make _ x y z => Expr.Each x ∧ Expr.Each y ∧ Expr.Each z
    | .call _ _ arguments => Expr.AllEach arguments
    | .segment _ items => Expr.AllEach items
    | .assign _ _ value | .compound _ _ _ value => Expr.Each value
    | .statement _ body => Stmt.Each body

@[inherit_doc Expr.Each]
def Expr.AllEach : List Expr → Prop
  | [] => True
  | e :: rest => Expr.Each e ∧ Expr.AllEach rest

@[inherit_doc Expr.Each]
def Stmt.Each (s : Stmt) : Prop :=
  Q s ∧ match s with
    | .declare _ _ _ | .label _ _ | .goto _ _ | .rollback _ _ | .ret _ | .hint _ _ | .nop _ => True
    | .block _ items => Stmt.AllEach items
    | .define _ _ _ value | .assign _ _ value | .compound _ _ _ value | .gotoIf _ _ value _
    | .retValue _ value | .expression _ value => Expr.Each value
    | .ifThen _ condition body | .whileLoop _ condition body | .doWhile _ body condition =>
      Expr.Each condition ∧ Stmt.Each body
    | .ifElse _ condition body alternative =>
      Expr.Each condition ∧ Stmt.Each body ∧ Stmt.Each alternative
    | .call _ _ arguments _ | .gotoOn _ _ _ arguments => Expr.AllEach arguments
    | .on _ _ arguments body => Expr.AllEach arguments ∧ Stmt.Each body

@[inherit_doc Expr.Each]
def Stmt.AllEach : List Stmt → Prop
  | [] => True
  | s :: rest => Stmt.Each s ∧ Stmt.AllEach rest

end

end Each

section Each

variable {P P' R : Expr → Prop} {Q Q' S : Stmt → Prop}

theorem Expr.Each.node (h : e.Each P Q) : P e := by cases e <;> exact h.1

theorem Stmt.Each.node (h : s.Each P Q) : Q s := by cases s <;> exact h.1

/-- The nodes of a list of trees are those of its members. -/
theorem Expr.allEach_iff : Expr.AllEach P Q es ↔ ∀ e ∈ es, e.Each P Q := by
  induction es with
  | nil => simp [Expr.AllEach]
  | cons e rest ih => simp [Expr.AllEach, ih]

@[inherit_doc Expr.allEach_iff]
theorem Stmt.allEach_iff : Stmt.AllEach P Q items ↔ ∀ s ∈ items, s.Each P Q := by
  induction items with
  | nil => simp [Stmt.AllEach]
  | cons s rest ih => simp [Stmt.AllEach, ih]

mutual

/-- A property of all nodes is one of the list of the nodes. -/
theorem Expr.each_iff (e : Expr) : e.Each P Q ↔ ∀ n ∈ e.visit nodeVisitor, Sum.elim P Q n := by
  match e with
  | .literal .. | .read .. | .step .. | .error _ => simp [Expr.Each, Expr.visit, nodeVisitor]
  | .unary _ _ operand | .convert _ operand | .assign _ _ operand | .compound _ _ _ operand =>
    rw [Expr.Each, operand.each_iff, Expr.visit]
    simp [nodeVisitor]
  | .binary _ _ left right =>
    rw [Expr.Each, left.each_iff, right.each_iff, Expr.visit, forall_mem_append,
      forall_mem_append]
    simp [nodeVisitor]
  | .make _ x y z =>
    rw [Expr.Each, x.each_iff, y.each_iff, z.each_iff, Expr.visit, forall_mem_append,
      forall_mem_append, forall_mem_append, and_assoc]
    simp [nodeVisitor]
  | .call _ _ arguments | .segment _ arguments =>
    rw [Expr.Each, Expr.allEach_iff_nodes arguments, Expr.visit]
    simp [nodeVisitor]
  | .statement _ body =>
    rw [Expr.Each, body.each_iff, Expr.visit]
    simp [nodeVisitor]

@[inherit_doc Expr.each_iff]
theorem Expr.allEach_iff_nodes (es : List Expr) :
    Expr.AllEach P Q es ↔ ∀ n ∈ Expr.visitAll nodeVisitor es, Sum.elim P Q n := by
  match es with
  | [] => simp [Expr.AllEach, Expr.visitAll]
  | e :: rest =>
    rw [Expr.AllEach, e.each_iff, Expr.allEach_iff_nodes rest, Expr.visitAll, forall_mem_append]

@[inherit_doc Expr.each_iff]
theorem Stmt.each_iff (s : Stmt) : s.Each P Q ↔ ∀ n ∈ s.visit nodeVisitor, Sum.elim P Q n := by
  match s with
  | .declare .. | .label .. | .goto .. | .rollback .. | .ret _ | .hint .. | .nop _ =>
    simp [Stmt.Each, visit, nodeVisitor]
  | .block _ items =>
    rw [Stmt.Each, Stmt.allEach_iff_nodes items, visit]
    simp [nodeVisitor]
  | .define _ _ _ value | .assign _ _ value | .compound _ _ _ value | .gotoIf _ _ value _
  | .retValue _ value | .expression _ value =>
    rw [Stmt.Each, value.each_iff, visit]
    simp [nodeVisitor]
  | .ifThen _ condition body | .whileLoop _ condition body | .doWhile _ body condition =>
    rw [Stmt.Each, condition.each_iff, body.each_iff, visit]
    simp [nodeVisitor, or_imp, forall_and, and_comm]
  | .ifElse _ condition body alternative =>
    rw [Stmt.Each, condition.each_iff, body.each_iff, alternative.each_iff, visit]
    simp [nodeVisitor, or_imp, forall_and]
  | .call _ _ arguments _ | .gotoOn _ _ _ arguments =>
    rw [Stmt.Each, Expr.allEach_iff_nodes arguments, visit]
    simp [nodeVisitor]
  | .on _ _ arguments body =>
    rw [Stmt.Each, Expr.allEach_iff_nodes arguments, body.each_iff, visit]
    simp [nodeVisitor, or_imp, forall_and]

@[inherit_doc Expr.each_iff]
theorem Stmt.allEach_iff_nodes (items : List Stmt) :
    Stmt.AllEach P Q items ↔ ∀ n ∈ visitAll nodeVisitor items, Sum.elim P Q n := by
  match items with
  | [] => simp [Stmt.AllEach, visitAll]
  | s :: rest =>
    rw [Stmt.AllEach, s.each_iff, Stmt.allEach_iff_nodes rest, visitAll, forall_mem_append]

end

section

variable (hP : ∀ e, P e → P' e → R e) (hQ : ∀ s, Q s → Q' s → S s)

include hP hQ

theorem Sum.elim_map₂ (n : Expr ⊕ Stmt) (h : Sum.elim P Q n) (h' : Sum.elim P' Q' n) :
    Sum.elim R S n := by
  cases n with
  | inl e => exact hP e h h'
  | inr s => exact hQ s h h'

/-- What follows from two properties of a node holds everywhere if both do. -/
theorem Expr.Each.map₂ (h : e.Each P Q) (h' : e.Each P' Q') : e.Each R S :=
  e.each_iff.2 fun n hn ↦ Sum.elim_map₂ hP hQ n (e.each_iff.1 h n hn) (e.each_iff.1 h' n hn)

@[inherit_doc Expr.Each.map₂]
theorem Stmt.Each.map₂ (h : s.Each P Q) (h' : s.Each P' Q') : s.Each R S :=
  s.each_iff.2 fun n hn ↦ Sum.elim_map₂ hP hQ n (s.each_iff.1 h n hn) (s.each_iff.1 h' n hn)

end

/-- What is collected from a tree has a property if what is collected from its nodes has it. -/
theorem Expr.Each.visit {v : Visitor α} {A : α → Prop} (h : e.Each P Q)
    (hexpr : ∀ e, P e → ∀ a ∈ v.expr e, A a) (hstmt : ∀ s, Q s → ∀ a ∈ v.stmt s ++ v.last s, A a) :
    ∀ a ∈ e.visit v, A a := by
  intro a ha
  obtain ⟨c | s, hn, ha⟩ := Expr.mem_visit_iff.1 ha
  exacts [hexpr c (e.each_iff.1 h _ hn) a ha, hstmt s (e.each_iff.1 h _ hn) a ha]

@[inherit_doc Expr.Each.visit]
theorem Stmt.Each.visit {v : Visitor α} {A : α → Prop} (h : s.Each P Q)
    (hexpr : ∀ e, P e → ∀ a ∈ v.expr e, A a) (hstmt : ∀ s, Q s → ∀ a ∈ v.stmt s ++ v.last s, A a) :
    ∀ a ∈ s.visit v, A a := by
  intro a ha
  obtain ⟨e | t, hn, ha⟩ := Stmt.mem_visit_iff.1 ha
  exacts [hexpr e (s.each_iff.1 h _ hn) a ha, hstmt t (s.each_iff.1 h _ hn) a ha]

/-- The nodes of flat code are nodes of the tree. -/
theorem Stmt.Each.of_mem_flatten (h : s.Each P Q) (ht : t ∈ s.flatten) : t.Each P Q :=
  t.each_iff.2 fun n hn ↦ s.each_iff.1 h n (visit_subset _ ht hn)

section Substitute

variable {σ : Substitution} (hP : ∀ e, P e → P' (e.substitute σ))
  (hQ : ∀ s, s.isReturn = false → Q s → Q' (s.substitute σ))
  (hret : ∀ span, (σ.ret span).Each P' Q')
  (hretValue : ∀ span value, value.Each P' Q' → (σ.retValue span value).Each P' Q')
include hP hQ hret hretValue

/-- Where symbols are replaced, a property of the nodes is compared with one of the nodes that were
there before. -/
theorem Visitor.relates_each : Visitor.Relates (fun nodes nodes' ↦
    (∀ n ∈ nodes', Sum.elim P Q n) → ∀ n ∈ nodes, Sum.elim P' Q' n) σ nodeVisitor nodeVisitor where
  nil _ := forall_mem_nil _
  append h h' hall :=
    have hboth := forall_mem_append.1 hall
    forall_mem_append.2 ⟨h hboth.1, h' hboth.2⟩
  expr e h := by
    simp only [nodeVisitor, forall_mem_singleton] at h ⊢
    exact hP e h
  stmt {s} hs _ _ h hall := by
    simp only [nodeVisitor, append_nil, singleton_append, forall_mem_cons] at hall ⊢
    exact ⟨hQ s hs hall.1, h hall.2⟩
  ret span _ := (Stmt.each_iff _).1 (hret span)
  retValue span value h hall := by
    refine (Stmt.each_iff _).1 (hretValue span _ ((Expr.each_iff _).2 (h fun n hn ↦ hall n ?_)))
    exact mem_append_left _ (mem_append_right _ hn)

/-- All nodes have a property after symbols have been replaced, if it comes from one that they had
before. -/
theorem Expr.Each.substitute (h : e.Each P Q) : (e.substitute σ).Each P' Q' :=
  (Expr.each_iff _).2 ((Visitor.relates_each hP hQ hret hretValue).visit e (e.each_iff.1 h))

@[inherit_doc Expr.Each.substitute]
theorem Stmt.Each.substitute (h : s.Each P Q) : (s.substitute σ).Each P' Q' :=
  (Stmt.each_iff _).2 ((Visitor.relates_each hP hQ hret hretValue).visitStmt s (s.each_iff.1 h))

end Substitute

end Each

end Wirescript
