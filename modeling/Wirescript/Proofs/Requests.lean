import Mathlib.Algebra.Order.Group.Multiset
import Mathlib.Tactic.Abel
import Wirescript.Proofs.Vocabulary

/-!
# What extraction makes of calls

Every call of a body is followed through extraction. `Stmt.requests` lists the calls of a body, and
the stores of literal lists, arguments first. Each of them becomes some calls of the extracted body
(`Request.Becomes`), and together they become all of its calls: nothing else is called, and only a
call without effects may be left out (`Extract.emits_stmt`).

A call is emitted with an argument that is a variable as it stands, if nothing runs before a later
argument is read. Otherwise the argument is read ahead of that into a temporary, and it is the
temporary that the call is given, also where the call is to write to its argument or where the
variable is an array (`Expr.Passed`, `Extracted.carried_of_extract`). Whether something runs before an
expression is read can be seen from the expression (`Expr.runsFirst`).

The order of calls is not followed: the values of a literal list are emitted beside the stores of
its elements, so calls in them change places with stores.
-/

namespace Wirescript

open Split (hasBefore)
open Wirescript.Expr
open List hiding span

variable {op : BinaryOp} {needed : Bool} {callee : Callee} {array e : Expr}
  {start : Float32} {arguments es values : List Expr} {plans : List Extract.Plan}
  {splits : List Split} {before : List Stmt} {n : Note} {v : Revised Expr} {span : Span}
  {s s' : Split} {x : Variable}

/-! ### What runs for an expression -/

/-- The array, the first index and the items of a call that stores a literal list to a range. -/
def Callee.range? (callee : Callee) : List Expr → Option (Expr × Float32 × List Expr)
  | [array, start, .segment _ items] =>
    if callee.builtin?.any (·.name == "setRange") then
      start.constantFloat?.map fun index ↦ (array, index, items)
    else none
  | _ => none

theorem Callee.range?_of_ne {start third : Expr} (h : ∀ n es, third ≠ .segment n es) :
    callee.range? [array, start, third] = none := by
  cases third
  case segment n es => exact absurd rfl (h n es)
  all_goals rfl

/-- A call as a statement emits something. -/
def Callee.runs (callee : Callee) (arguments : List Expr) : Bool :=
  (callee.range? arguments).all fun (_, _, items) ↦ !items.isEmpty

/-- Storing the value emits something. Only an empty list emits nothing. -/
def Expr.runsToStore : Expr → Bool
  | .segment _ items => !items.isEmpty
  | .call _ callee arguments =>
    !(callee.needsStatement && !callee.returnType.isVoid) || callee.runs arguments
  | _ => true

mutual

/-- Something runs before the value of the expression is read. -/
def Expr.runsFirst : Expr → Bool
  | .literal _ _ | .read _ _ | .error _ | .compound _ _ _ _ => false
  | .unary _ _ operand | .convert _ operand => operand.runsFirst
  | .binary _ op left right =>
    left.runsFirst || right.runsFirst || (op.isShortCircuit && right.runsLater)
  | .make _ x y z => x.runsFirst || (y.runsFirst || z.runsFirst)
  | .call _ callee arguments => callee.needsStatement || Expr.anyRunsFirst arguments
  | .step _ _ yieldsNew _ => yieldsNew
  | .segment _ items => Expr.anyRunsFirst items
  | .assign _ _ value => value.runsToStore
  | .statement _ body => body.runs

/-- Something runs after the value of the expression is read. -/
def Expr.runsLater : Expr → Bool
  | .literal _ _ | .read _ _ | .error _ | .compound _ _ _ _ => false
  | .unary _ _ operand | .convert _ operand => operand.runsLater
  | .binary _ op left right =>
    !(op.isShortCircuit && (right.runsFirst || right.runsLater)) &&
      ((left.runsLater && !right.runsFirst) || right.runsLater)
  | .make _ x y z =>
    (x.runsLater && !(y.runsFirst || z.runsFirst)) || ((y.runsLater && !z.runsFirst) || z.runsLater)
  | .call _ callee arguments => !callee.needsStatement && Expr.anyRunsLater arguments
  | .step _ _ yieldsNew _ => !yieldsNew
  | .segment _ items => Expr.anyRunsLater items
  | .assign _ _ _ | .statement _ _ => false

/-- Something runs before the last of the values is read. -/
def Expr.anyRunsFirst : List Expr → Bool
  | [] => false
  | e :: rest => e.runsFirst || Expr.anyRunsFirst rest

/-- Something runs after the last of the values is read. -/
def Expr.anyRunsLater : List Expr → Bool
  | [] => false
  | e :: rest => (e.runsLater && !Expr.anyRunsFirst rest) || Expr.anyRunsLater rest

/-- Something runs if the value of the expression is not wanted. -/
def Expr.runsAlone : Expr → Bool
  | .call _ callee arguments => callee.runs arguments
  | .step _ _ _ _ => true
  | .assign _ _ value => value.runsToStore
  | .statement _ body => body.runs
  | .literal _ _ | .read _ _ | .error _ | .compound _ _ _ _ => false
  | .unary _ _ operand | .convert _ operand => operand.runsFirst || operand.runsLater
  | .binary _ _ left right => left.runsFirst || right.runsFirst || left.runsLater || right.runsLater
  | .make _ x y z =>
    x.runsFirst || y.runsFirst || z.runsFirst || x.runsLater || y.runsLater || z.runsLater
  | .segment _ items => Expr.anyRunsFirst items || Expr.anyRunsLater items

/-- The statement emits something. -/
def Stmt.runs : Stmt → Bool
  | .block _ items => Stmt.anyRuns items
  | .assign _ _ value => value.runsToStore
  | .call _ callee arguments _ => callee.runs arguments
  | .expression _ e => e.runsAlone
  | .declare _ _ _ | .define _ _ _ _ | .compound _ _ _ _ | .ifThen _ _ _ | .ifElse _ _ _ _
  | .whileLoop _ _ _ | .doWhile _ _ _ | .on _ _ _ _ | .label _ _ | .goto _ _ | .gotoIf _ _ _ _
  | .gotoOn _ _ _ _ | .rollback _ _ | .ret _ | .retValue _ _ | .hint _ _ | .nop _ => true

@[inherit_doc Stmt.runs]
def Stmt.anyRuns : List Stmt → Bool
  | [] => false
  | s :: rest => s.runs || Stmt.anyRuns rest

end

/-! ### Calls in order -/

/-- What is called, and with what arguments. -/
abbrev CallSite := Callee × List Expr

variable {site : CallSite} {image : List CallSite}

mutual

/-- The calls in an expression. -/
def Expr.calls : Expr → List CallSite
  | .literal _ _ | .read _ _ | .step _ _ _ _ | .error _ => []
  | .unary _ _ operand | .convert _ operand => operand.calls
  | .binary _ _ left right => left.calls ++ right.calls
  | .make _ x y z => x.calls ++ (y.calls ++ z.calls)
  | .call _ callee arguments => Expr.allCalls arguments ++ [(callee, arguments)]
  | .segment _ items => Expr.allCalls items
  | .assign _ _ value | .compound _ _ _ value => value.calls
  | .statement _ body => body.calls

@[inherit_doc Expr.calls]
def Expr.allCalls : List Expr → List CallSite
  | [] => []
  | e :: rest => e.calls ++ Expr.allCalls rest

/-- The calls in a statement. -/
def Stmt.calls : Stmt → List CallSite
  | .block _ items => Stmt.allCalls items
  | .declare _ _ _ | .label _ _ | .goto _ _ | .rollback _ _ | .ret _ | .hint _ _ | .nop _ => []
  | .define _ _ _ value | .assign _ _ value | .compound _ _ _ value | .retValue _ value
  | .expression _ value | .gotoIf _ _ value _ => value.calls
  | .ifThen _ condition body | .whileLoop _ condition body => condition.calls ++ body.calls
  | .ifElse _ condition body alternative => condition.calls ++ (body.calls ++ alternative.calls)
  | .doWhile _ body condition => body.calls ++ condition.calls
  | .on _ _ arguments body => Expr.allCalls arguments ++ body.calls
  | .gotoOn _ _ _ arguments => Expr.allCalls arguments
  | .call _ callee arguments _ => Expr.allCalls arguments ++ [(callee, arguments)]

@[inherit_doc Stmt.calls]
def Stmt.allCalls : List Stmt → List CallSite
  | [] => []
  | s :: rest => s.calls ++ Stmt.allCalls rest

end

@[simp] theorem Stmt.allCalls_append (code code' : List Stmt) :
    Stmt.allCalls (code ++ code') = Stmt.allCalls code ++ Stmt.allCalls code' := by
  induction code with
  | nil => rfl
  | cons s rest ih => simp [Stmt.allCalls, ih]

/-- Something that a body asks for: a call, or the store of a literal list to an array variable.
Extraction may leave some of it alone: what stands in the clause of an event, and the array of a
literal list that is stored element by element. -/
inductive Request where
  | call (left : Bool) (callee : Callee) (arguments : List Expr)
  | fill (left : Bool) (x : Variable) (items : List Expr)

/-- What storing the value asks for besides the value. -/
def Expr.fills (left : Bool) (x : Variable) : Expr → List Request
  | .segment _ items => [.fill left x items]
  | _ => []

/-- Which arguments of a call are left alone: the array and the first index of a range that a literal
list is stored to. -/
def Callee.spared (callee : Callee) (arguments : List Expr) : List Bool :=
  if (callee.range? arguments).isSome then [true, true] else []

mutual

/-- What an expression asks for. -/
def Expr.requests (left : Bool) : Expr → List Request
  | .literal _ _ | .read _ _ | .step _ _ _ _ | .error _ => []
  | .unary _ _ operand | .convert _ operand => operand.requests left
  | .binary _ _ l r => l.requests left ++ r.requests left
  | .make _ x y z => x.requests left ++ (y.requests left ++ z.requests left)
  | .call _ callee arguments =>
    Expr.allRequests left (callee.spared arguments) arguments ++ [.call left callee arguments]
  | .segment _ items => Expr.allRequests left [] items
  | .assign _ x value => value.requests left ++ value.fills left x
  | .compound _ _ _ value => value.requests left
  | .statement _ body => body.requests left

/-- What expressions ask for, of which the marked ones may be left alone. -/
def Expr.allRequests (left : Bool) (marks : List Bool) : List Expr → List Request
  | [] => []
  | e :: rest => e.requests (left || marks.headD false) ++ Expr.allRequests left marks.tail rest

/-- What a statement asks for. -/
def Stmt.requests (left : Bool) : Stmt → List Request
  | .block _ items => Stmt.allRequests left items
  | .declare _ _ _ | .label _ _ | .goto _ _ | .rollback _ _ | .ret _ | .hint _ _ | .nop _ => []
  | .define _ _ x value | .assign _ x value => value.requests left ++ value.fills left x
  | .compound _ _ _ value | .retValue _ value | .expression _ value | .gotoIf _ _ value _ =>
    value.requests left
  | .ifThen _ condition body | .whileLoop _ condition body =>
    condition.requests left ++ body.requests left
  | .ifElse _ condition body alternative =>
    condition.requests left ++ (body.requests left ++ alternative.requests left)
  | .doWhile _ body condition => body.requests left ++ condition.requests left
  | .on _ _ arguments body => Expr.allRequests true [] arguments ++ body.requests left
  | .gotoOn _ _ _ arguments => Expr.allRequests true [] arguments
  | .call _ callee arguments _ =>
    Expr.allRequests left (callee.spared arguments) arguments ++ [.call left callee arguments]

@[inherit_doc Stmt.requests]
def Stmt.allRequests (left : Bool) : List Stmt → List Request
  | [] => []
  | s :: rest => s.requests left ++ Stmt.allRequests left rest

end

/-! ### What becomes of a request -/

/-- Nothing runs after the argument at a position is read and before the call is made, unless the
argument cannot change. -/
def Expr.Undisturbed (arguments : List Expr) (i : Nat) : Prop :=
  arguments[i]?.all isStable = true ∨ anyRunsFirst (arguments.drop (i + 1)) = false

/-- The values that a call is given for its arguments. A variable is given as it stands if it is
undisturbed; otherwise a temporary stands for it. -/
structure Expr.Passed (arguments values : List Expr) : Prop where
  length : values.length = arguments.length
  kept (i : Nat) (a : Expr) (x : Variable) (ha : arguments[i]? = some a) (hx : a.read? = some x)
    (h : Expr.Undisturbed arguments i) : values[i]? = some a
  lost (i : Nat) (a : Expr) (x : Variable) (ha : arguments[i]? = some a) (hx : a.read? = some x)
    (h : ¬ Expr.Undisturbed arguments i) :
    ∃ v t, values[i]? = some v ∧ v.read? = some t ∧ t.isTemporary = true ∧ x.isTemporary = false

/-- Stores of values to consecutive elements of an array. -/
def elementCalls (set : Callee) (array : Expr) (start : Float32) (span : Span)
    (values : List Expr) : List CallSite :=
  values.zipIdx.map fun (value, i) ↦
    (set, [array, Build.float (start + Float32.ofNat i) span, value])

/-- The calls that are emitted for a request. -/
inductive Request.Becomes : Request → List CallSite → Prop
  /-- A call that is left alone stands as it is wherever it is copied to. -/
  | left (callee : Callee) (arguments : List Expr) (n : Nat) :
      Becomes (.call true callee arguments) (List.replicate n (callee, arguments))
  | leftFill (x : Variable) (items : List Expr) : Becomes (.fill true x items) []
  /-- A call that has no effects is left out if nobody reads its value. -/
  | dropped {callee : Callee} (left : Bool) (arguments : List Expr)
      (h : callee.needsStatement = false) : Becomes (.call left callee arguments) []
  /-- A literal list is stored element by element, always to the array itself. -/
  | spread {callee : Callee} {arguments items values : List Expr} {array : Expr} {start : Float32}
      (left : Bool) (set : Callee) (span : Span)
      (h : callee.range? arguments = some (array, start, items))
      (hlength : values.length = items.length) :
      Becomes (.call left callee arguments) (elementCalls set array start span values)
  | fill {items values : List Expr} (left : Bool) (x : Variable) (set : Callee) (span : Span)
      (hlength : values.length = items.length) :
      Becomes (.fill left x items) (elementCalls set (Build.read x span) 0 span values)
  | made {arguments values : List Expr} (left : Bool) (callee : Callee)
      (h : Passed arguments values) :
      Becomes (.call left callee arguments) [(callee, values)]

/-- The calls that are emitted for some requests, in some order. -/
def Request.Answered (requests : List Request) (calls : List CallSite) : Prop :=
  ∃ images : List (List CallSite), Forall₂ Request.Becomes requests images ∧
    images.flatten.Perm calls

namespace Request.Answered

variable {rs rs' : List Request} {cs cs' : List CallSite} {r : Request}

theorem nil : Answered [] [] := ⟨[], .nil, .nil⟩

theorem single (h : r.Becomes image) : Answered [r] image := ⟨[image], .cons h .nil, by simp⟩

theorem append (h : Answered rs cs) (h' : Answered rs' cs') : Answered (rs ++ rs') (cs ++ cs') := by
  obtain ⟨images, himages, hperm⟩ := h
  obtain ⟨images', himages', hperm'⟩ := h'
  refine ⟨images ++ images', rel_append himages himages', ?_⟩
  rw [flatten_append]
  exact hperm.append hperm'

theorem perm (h : Answered rs cs) (hcs : cs.Perm cs') : Answered rs cs' := by
  obtain ⟨images, himages, hperm⟩ := h
  exact ⟨images, himages, hperm.trans hcs⟩

theorem append_perm (h : Answered rs cs) (h' : Answered rs' cs') {both : List CallSite}
    (hboth : (cs ++ cs').Perm both) : Answered (rs ++ rs') both := (h.append h').perm hboth

theorem perm_parts {as bs : List CallSite} :
    ((cs ++ cs') ++ (as ++ bs)).Perm ((cs ++ as) ++ (cs' ++ bs)) := by
  simp only [← Multiset.coe_eq_coe, ← Multiset.coe_add]
  exact add_add_add_comm ..

/-- Copies of two lists of calls are copies of the one and copies of the other. -/
theorem append_copies {n : Nat} (h : Answered rs (List.replicate n cs).flatten)
    (h' : Answered rs' (List.replicate n cs').flatten) :
    Answered (rs ++ rs') (List.replicate n (cs ++ cs')).flatten := by
  refine h.append_perm h' ?_
  clear h h'
  induction n with
  | zero => exact .nil
  | succ n ih =>
    simp only [replicate_succ, flatten_cons]
    exact perm_parts.trans (ih.append_left _)

/-- Two lists of calls in two parts each, taken together part by part. -/
theorem append_parts {before value before' value' : List CallSite}
    (h : Answered rs (before ++ value)) (h' : Answered rs' (before' ++ value')) :
    Answered (rs ++ rs') ((before ++ before') ++ (value ++ value')) := h.append_perm h' perm_parts

/-- Nothing has to be emitted for what is left alone. -/
theorem copies_fills (n : Nat) (x : Variable) (e : Expr) :
    Answered (e.fills true x) (List.replicate n []).flatten := by
  rw [flatten_replicate_nil]
  cases e
  case segment => exact single (.leftFill x _)
  all_goals exact nil

theorem copies_nil (n : Nat) : Answered [] (List.replicate n []).flatten := by
  rw [flatten_replicate_nil]
  exact nil

theorem copies_call (n : Nat) (callee : Callee) (arguments : List Expr) :
    Answered [.call true callee arguments] (List.replicate n [(callee, arguments)]).flatten := by
  rw [flatten_replicate_singleton]
  exact single (.left callee arguments n)

end Request.Answered

open Request

mutual

/-- What is left alone may be copied any number of times. -/
theorem Expr.answered_copies (n : Nat) (e : Expr) :
    Answered (e.requests true) (List.replicate n e.calls).flatten := by
  match e with
  | .literal .. | .read .. | .step .. | .error _ => exact .copies_nil n
  | .unary _ _ operand | .convert _ operand => exact Expr.answered_copies n operand
  | .binary _ _ l r => exact (Expr.answered_copies n l).append_copies (Expr.answered_copies n r)
  | .make _ x y z =>
    exact (Expr.answered_copies n x).append_copies
      ((Expr.answered_copies n y).append_copies (Expr.answered_copies n z))
  | .call _ callee arguments =>
    exact (Expr.answered_allCopies n _ arguments).append_copies (.copies_call n callee arguments)
  | .segment _ items => exact Expr.answered_allCopies n [] items
  | .assign _ x value =>
    have h := (Expr.answered_copies n value).append_copies (.copies_fills n x value)
    rwa [append_nil] at h
  | .compound _ _ _ value => exact Expr.answered_copies n value
  | .statement _ body => exact Stmt.answered_copies n body

@[inherit_doc Expr.answered_copies]
theorem Expr.answered_allCopies (n : Nat) (marks : List Bool) (es : List Expr) :
    Answered (Expr.allRequests true marks es) (List.replicate n (Expr.allCalls es)).flatten := by
  match es with
  | [] => exact .copies_nil n
  | e :: rest =>
    exact (Expr.answered_copies n e).append_copies (Expr.answered_allCopies n marks.tail rest)

@[inherit_doc Expr.answered_copies]
theorem Stmt.answered_copies (n : Nat) (s : Stmt) :
    Answered (s.requests true) (List.replicate n s.calls).flatten := by
  match s with
  | .block _ items => exact Stmt.answered_allCopies n items
  | .declare .. | .label .. | .goto .. | .rollback .. | .ret _ | .hint .. | .nop _ =>
    exact .copies_nil n
  | .define _ _ x value | .assign _ x value =>
    have h := (Expr.answered_copies n value).append_copies (.copies_fills n x value)
    rwa [append_nil] at h
  | .compound _ _ _ value | .retValue _ value | .expression _ value | .gotoIf _ _ value _ =>
    exact Expr.answered_copies n value
  | .ifThen _ condition body | .whileLoop _ condition body =>
    exact (Expr.answered_copies n condition).append_copies (Stmt.answered_copies n body)
  | .ifElse _ condition body alternative =>
    exact (Expr.answered_copies n condition).append_copies
      ((Stmt.answered_copies n body).append_copies (Stmt.answered_copies n alternative))
  | .doWhile _ body condition =>
    exact (Stmt.answered_copies n body).append_copies (Expr.answered_copies n condition)
  | .on _ _ arguments body =>
    exact (Expr.answered_allCopies n [] arguments).append_copies (Stmt.answered_copies n body)
  | .gotoOn _ _ _ arguments => exact Expr.answered_allCopies n [] arguments
  | .call _ callee arguments _ =>
    exact (Expr.answered_allCopies n _ arguments).append_copies (.copies_call n callee arguments)

@[inherit_doc Expr.answered_copies]
theorem Stmt.answered_allCopies (n : Nat) (items : List Stmt) :
    Answered (Stmt.allRequests true items) (List.replicate n (Stmt.allCalls items)).flatten := by
  match items with
  | [] => exact .copies_nil n
  | s :: rest => exact (Stmt.answered_copies n s).append_copies (Stmt.answered_allCopies n rest)

end

/-- The expression is neither a literal list nor a call. Such an expression is stored by a statement
that reads its value. -/
structure Expr.IsOperation (e : Expr) : Prop where
  noList (n : Note) (es : List Expr) : e ≠ .segment n es
  noCall (n : Note) (callee : Callee) (arguments : List Expr) : e ≠ .call n callee arguments

theorem Expr.IsOperation.fills (h : e.IsOperation) (left : Bool) (x : Variable) :
    e.fills left x = [] := by
  cases e
  case segment n es => exact absurd rfl (h.noList n es)
  all_goals rfl

theorem Expr.IsOperation.runsToStore (h : e.IsOperation) : e.runsToStore = true := by
  cases e
  case segment n es => exact absurd rfl (h.noList n es)
  case call n callee arguments => exact absurd rfl (h.noCall n callee arguments)
  all_goals rw [Expr.runsToStore] <;> simp

/-! ### Splits -/

variable {V : Vocabulary}

/-- The calls of a split are what is emitted for some requests, whether its value is read or not. -/
structure Split.Emits (requests : Bool → List Request) (s : Split) : Prop where
  value (left : Bool) : Answered (requests left) (Stmt.allCalls s.before ++ s.value.node.calls)
  effects (left : Bool) : Answered (requests left) (Stmt.allCalls s.before)
  after : Stmt.allCalls s.after = []

/-- The split is one of the expression. -/
structure Split.Renders (e : Expr) (s : Split) : Prop extends s.Emits (e.requests ·) where
  first : s.hasBefore = e.runsFirst
  later : s.after.isEmpty = !e.runsLater
  plain (x : Variable) (h : e.read? = some x) : s.value.node = e

/-- The operands are those of the expressions. -/
structure Operands.Renders (es : List Expr) (o : Operands) : Prop where
  values (left : Bool) (marks : List Bool) : Answered (Expr.allRequests left marks es)
    (Stmt.allCalls o.before ++ Expr.allCalls o.values.node)
  effects (left : Bool) (marks : List Bool) :
    Answered (Expr.allRequests left marks es) (Stmt.allCalls o.before)
  after : Stmt.allCalls o.after = []
  first : o.before.isEmpty = !anyRunsFirst es
  later : o.after.isEmpty = !anyRunsLater es
  passed : Passed es o.values.node

/-- The code is what is emitted for some requests. -/
structure Stmt.Emits (requests : Bool → List Request) (runs : Bool) (code : List Stmt) : Prop where
  answered (left : Bool) : Answered (requests left) (Stmt.allCalls code)
  runs : code.isEmpty = !runs

namespace Split

variable {e' : Expr} {rs rs' : Bool → List Request}

/-- Reading the value is no call. -/
theorem Emits.calls_around (h : s.Emits rs) (use : Expr → Stmt)
    (huse : ∀ e, (use e).calls = e.calls) (left : Bool) :
    Answered (rs left) (Stmt.allCalls (s.around use)) := by
  have hcalls : Stmt.allCalls (s.around use) = Stmt.allCalls s.before ++ s.value.node.calls := by
    simp [around, Stmt.allCalls, huse, h.after]
  rw [hcalls]
  exact h.value left

theorem Emits.calls_effects (h : s.Emits rs) (left : Bool) :
    Answered (rs left) (Stmt.allCalls s.effects) := by
  have hcalls : Stmt.allCalls s.effects = Stmt.allCalls s.before := by simp [Split.effects, h.after]
  rw [hcalls]
  exact h.effects left

theorem Renders.hasEffects (h : s.Renders e) : s.hasEffects = (e.runsFirst || e.runsLater) := by
  rw [← h.first, Split.hasEffects, h.later, hasBefore, Bool.not_not]

/-- A split that reads a variable and emits nothing besides what runs before. -/
theorem emits_of_before {v : Expr} (hv : v.calls = [])
    (h : ∀ left, Answered (rs left) (Stmt.allCalls before)) :
    Split.Emits rs { before := before, value := .new v } where
  value left := by
    show Answered (rs left) (Stmt.allCalls before ++ v.calls)
    rw [hv, append_nil]
    exact h left
  effects := h
  after := rfl

end Split

/-- A choice between two nodes has the calls that both have. -/
theorem Revised.calls_choose {changed : Bool} {kept derived : Expr} {cs : List CallSite}
    (hkept : kept.calls = cs) (hderived : derived.calls = cs) :
    (Revised.choose changed kept derived).node.calls = cs := by
  cases changed with
  | true => exact hderived
  | false => exact hkept

namespace Extract

theorem keeps_temporary_isTemporary (type : Ty) :
    Keeps V (fun x ↦ x.isTemporary = true) (temporary type) := by
  intro ξ x ξ' hξ hyields
  obtain ⟨hξ', -⟩ := keeps_temporary type ξ x ξ' hξ hyields
  refine ⟨hξ', ?_⟩
  cases hyields
  rfl

/-- What becomes of a split that something has to run after. -/
structure Ahead (e : Expr) (needed : Bool) (s s' : Split) : Prop extends s'.Emits (e.requests ·) where
  idle (h : needed = false) : s' = s
  drained (h : needed = true) : s'.after = []
  kept (x : Variable) (hx : e.read? = some x) (h : e.isStable = true ∨ needed = false) :
    s'.value.node = e
  lost (x : Variable) (hx : e.read? = some x) (h : ¬ (e.isStable = true ∨ needed = false)) :
    ∃ t, s'.value.node.read? = some t ∧ t.isTemporary = true ∧ x.isTemporary = false

theorem not_isTemporary_of_not_isStable (hx : e.read? = some x) (h : e.isStable = false) :
    x.isTemporary = false := by
  rw [isStable, hx, Bool.or_eq_false_iff] at h
  exact h.2

theorem keeps_ahead_renders (needed : Bool) (hs : s.Renders e) :
    Keeps V (Ahead e needed s) (ahead needed s) := by
  unfold ahead
  split
  · next hneeded =>
    split
    · next hstable =>
      -- a stable value is read where it is
      refine .pure ⟨⟨?_, ?_, rfl⟩, ?_, fun _ ↦ rfl, fun x hx _ ↦ hs.plain x hx, ?_⟩
      · intro left
        have hcalls : Stmt.allCalls (s.before ++ s.after) = Stmt.allCalls s.before := by
          simp [hs.after]
        rw [hcalls]
        exact hs.value left
      · exact hs.toEmits.calls_effects
      · simp [hneeded]
      · intro x hx h
        rw [hs.plain x hx] at hstable
        exact absurd (.inl hstable) h
    · next hstable =>
      refine (keeps_temporary_isTemporary _).bind fun t ht ↦ .pure ?_
      have hcalls (left : Bool) : Answered (e.requests left) (Stmt.allCalls
          (s.before ++ .assign s.value.node.span t s.value.node :: s.after)) :=
        hs.toEmits.calls_around _ (fun _ ↦ rfl) left
      refine ⟨Split.emits_of_before rfl hcalls, by simp [hneeded], fun _ ↦ rfl, ?_, ?_⟩
      · intro x hx h
        rw [hs.plain x hx] at hstable
        rcases h with h | h
        · exact absurd h hstable
        · simp [hneeded] at h
      · intro x hx h
        rw [hs.plain x hx] at hstable
        exact ⟨t, rfl, ht, not_isTemporary_of_not_isStable hx (by simpa using hstable)⟩
  · next hneeded =>
    refine .pure ⟨hs.toEmits, fun _ ↦ rfl, fun h ↦ absurd h hneeded, fun x hx _ ↦ hs.plain x hx, ?_⟩
    intro x hx h
    exact absurd (.inr (by simpa using hneeded)) h

theorem isEmpty_append {α : Type} (xs ys : List α) :
    (xs ++ ys).isEmpty = (xs.isEmpty && ys.isEmpty) := by
  cases xs <;> rfl

/-- What is read ahead is read because of something that runs before. -/
theorem Ahead.isEmpty_before (h : Ahead e needed s s') (hs : s.Renders e)
    (hbefore : before.isEmpty = !needed) :
    (s'.before ++ before).isEmpty = !(e.runsFirst || needed) := by
  rw [isEmpty_append, hbefore]
  cases hneeded : needed with
  | true => simp
  | false =>
    have hfirst := hs.first
    rw [← h.idle hneeded, hasBefore] at hfirst
    simp [← hfirst]

theorem Ahead.isEmpty_after {later : Bool} {after : List Stmt} (h : Ahead e needed s s')
    (hs : s.Renders e) (hafter : after.isEmpty = !later) :
    (s'.after ++ after).isEmpty = !((e.runsLater && !needed) || later) := by
  rw [isEmpty_append, hafter]
  cases hneeded : needed with
  | true => simp [h.drained hneeded]
  | false => simp [h.idle hneeded, hs.later]

theorem any_hasBefore (h : Forall₂ Split.Renders es splits) :
    splits.any hasBefore = anyRunsFirst es := by
  induction h with
  | nil => rfl
  | cons hs _ ih => rw [any_cons, Expr.anyRunsFirst, hs.first, ih]

/-- The first argument is followed by the others, and each of them by those after it. -/
theorem passed_cons (hs : Ahead e (anyRunsFirst es) s s') (hes : Passed es values) :
    Passed (e :: es) (s'.value.node :: values) where
  length := by simp [hes.length]
  kept := by
    rintro (_ | i) a x ha hx h
    · obtain rfl : e = a := Option.some.inj ha
      have hnode : s'.value.node = e := hs.kept x hx (by simpa [Expr.Undisturbed] using h)
      rw [getElem?_cons_zero, hnode]
    · exact hes.kept i a x ha hx h
  lost := by
    rintro (_ | i) a x ha hx h
    · obtain rfl : e = a := Option.some.inj ha
      obtain ⟨t, ht, htemporary, hplain⟩ := hs.lost x hx (by simpa [Expr.Undisturbed] using h)
      exact ⟨_, t, rfl, ht, htemporary, hplain⟩
    · exact hes.lost i a x ha hx h

theorem keeps_gather_renders (h : Forall₂ Split.Renders es splits) :
    Keeps V (Operands.Renders es) (gather splits) := by
  induction h with
  | nil => refine .pure ⟨fun _ _ ↦ .nil, fun _ _ ↦ .nil, rfl, rfl, rfl, rfl, ?_, ?_⟩ <;> simp
  | @cons e s es splits hs hsplits ih =>
    rw [gather, any_hasBefore hsplits]
    refine (keeps_ahead_renders _ hs).bind fun s' hs' ↦ ih.bind fun o ho ↦ .pure ?_
    refine ⟨?_, ?_, ?_, ?_, ?_, passed_cons hs' ho.passed⟩
    · intro left marks
      rw [Stmt.allCalls_append]
      exact (hs'.value _).append_parts (ho.values left marks.tail)
    · intro left marks
      rw [Stmt.allCalls_append]
      exact (hs'.effects _).append (ho.effects left marks.tail)
    · simp [hs'.after, ho.after]
    · exact hs'.isEmpty_before hs ho.first
    · exact hs'.isEmpty_after hs ho.later

/-- The calls that store to the elements of an array, and those in the array and in the values. -/
theorem perm_elementCalls (set : Callee) (array : Expr) (start : Float32) (span : Span)
    (values : List Expr) (k : Nat) :
    ((List.replicate values.length array.calls).flatten ++ (Expr.allCalls values ++
        (values.zipIdx k).map fun (value, i) ↦
          (set, [array, Build.float (start + Float32.ofNat i) span, value]))).Perm
      (Stmt.allCalls ((values.zipIdx k).map fun (value, i) ↦
        Stmt.call span set [array, Build.float (start + Float32.ofNat i) span, value] none)) := by
  induction values generalizing k with
  | nil => exact .nil
  | cons value rest ih =>
    have ih := ih (k + 1)
    simp only [zipIdx_cons, map_cons, length_cons, replicate_succ,
      flatten_cons, Expr.allCalls, Stmt.allCalls, Stmt.calls, Expr.calls, Build.float,
      Build.literal] at ih ⊢
    refine .trans ?_ (ih.append_left _)
    rw [← Multiset.coe_eq_coe]
    simp only [← Multiset.coe_add]
    abel

/-- The values are stored to the elements one by one, and the calls in the array are made for each of
them. -/
theorem keeps_elementStores_emits {items : Extract Operands} {rs : Bool → List Request}
    (hitems : Keeps V (Operands.Renders es) items)
    (hrs : ∀ left cs set values, Answered (Expr.allRequests left [] es) cs →
      values.length = es.length → Answered (rs left)
        ((List.replicate values.length array.calls).flatten ++
          (cs ++ elementCalls set array start span values))) :
    Keeps V (Stmt.Emits rs (!es.isEmpty)) (elementStores array start items span) := by
  unfold elementStores
  split
  · split
    · exact .throw
    · next set hset =>
      refine hitems.bind fun o ho ↦ .pure ⟨fun left ↦ ?_, ?_⟩
      · have hstores := hrs left _ set o.values.node (ho.values left []) ho.passed.length
        have hcalls := perm_elementCalls set array start span o.values.node 0
        refine hstores.perm ?_
        rw [Stmt.allCalls_append, Stmt.allCalls_append, ho.after, append_nil]
        refine .trans ?_ (hcalls.append_left _)
        rw [← Multiset.coe_eq_coe]
        simp only [elementCalls, ← Multiset.coe_add]
        abel
      · cases es with
        | nil =>
          have hnone : o.values.node = [] := length_eq_zero_iff.1 ho.passed.length
          have hbefore : o.before = [] := by simpa [anyRunsFirst] using ho.first
          have hafter : o.after = [] := by simpa [anyRunsLater] using ho.later
          simp [hnone, hbefore, hafter]
        | cons e rest =>
          have hlength := ho.passed.length
          cases hnodes : o.values.node with
          | nil => simp [hnodes] at hlength
          | cons v others => simp
  · exact .throw

namespace Plan

/-- The uses of the expression emit what it asks for. -/
structure Renders (V : Vocabulary) (e : Expr) (p : Plan) : Prop where
  value : Keeps V (Split.Renders e) p.value
  store (x : Variable) (span : Span) :
    Keeps V (Stmt.Emits (fun left ↦ e.requests left ++ e.fills left x) e.runsToStore)
      (p.store x span)
  discard : Keeps V (Stmt.Emits (e.requests ·) e.runsAlone) p.discard
  items (n : Note) (es : List Expr) (h : e = .segment n es) :
    ∃ o, p.items? = some o ∧ Keeps V (Operands.Renders es) o
  noItems (h : ∀ n es, e ≠ .segment n es) : p.items? = none

variable {value : Extract Split} {effects : Extract (List Stmt)}

theorem keeps_store_ofValue (x : Variable) (span : Span) (h : Keeps V (Split.Renders e) value) :
    Keeps V (Stmt.Emits (e.requests ·) true) ((ofValue value).store x span) :=
  h.bind fun _ hs ↦ .pure ⟨hs.toEmits.calls_around _ fun _ ↦ rfl, by simp [Split.around]⟩

theorem keeps_discard_ofValue (h : Keeps V (Split.Renders e) value) :
    Keeps V (Stmt.Emits (e.requests ·) (e.runsFirst || e.runsLater)) (ofValue value).discard := by
  refine h.bind fun s hs ↦ .pure ⟨hs.toEmits.calls_effects, ?_⟩
  have hfirst := hs.first
  rw [hasBefore] at hfirst
  rw [Split.effects, isEmpty_append, hs.later, ← hfirst]
  simp

theorem renders_ofEffects (heffects : Keeps V (Stmt.Emits (e.requests ·) e.runsAlone) effects)
    (hvalue : Keeps V (Split.Renders e) value) (he : e.IsOperation := by constructor <;> simp) :
    (ofEffects effects value).Renders V e where
  value := hvalue
  store x span := by
    simp only [he.runsToStore, he.fills, append_nil]
    exact keeps_store_ofValue x span hvalue
  discard := heffects
  items n es h := absurd h (he.noList n es)
  noItems _ := rfl

theorem renders_ofValue (halone : e.runsAlone = (e.runsFirst || e.runsLater))
    (hvalue : Keeps V (Split.Renders e) value) (he : e.IsOperation := by constructor <;> simp) :
    (ofValue value).Renders V e := by
  refine renders_ofEffects ?_ hvalue he
  rw [halone]
  exact keeps_discard_ofValue hvalue

theorem renders_plain (hrequests : ∀ left, e.requests left = []) (hcalls : e.calls = [])
    (hfirst : e.runsFirst = false) (hlater : e.runsLater = false) (halone : e.runsAlone = false)
    (he : e.IsOperation := by constructor <;> simp) : (plain e).Renders V e := by
  have hnone (left : Bool) : Answered (e.requests left) [] := by
    rw [hrequests left]
    exact .nil
  refine renders_ofValue (by rw [halone, hfirst, hlater]; rfl) (.pure ?_) he
  refine ⟨⟨?_, hnone, rfl⟩, by rw [hfirst]; rfl, by rw [hlater]; rfl, fun _ _ ↦ rfl⟩
  intro left
  show Answered (e.requests left) ([] ++ e.calls)
  rw [hcalls]
  exact hnone left

theorem keeps_operands_renders (h : Forall₂ (Renders V) es plans) :
    Keeps V (Operands.Renders es) (operands plans) :=
  (Keeps.values (h.imp fun _ _ hp ↦ hp.value)).bind fun _ ↦ keeps_gather_renders

/-- The call is made with what its arguments have become. -/
theorem answered_call {o : Operands} (ho : o.Renders es) (callee : Callee)
    (result : Option Variable) (span : Span) (left : Bool) (marks : List Bool) :
    Answered (Expr.allRequests left marks es ++ [.call left callee es])
      (Stmt.allCalls (o.before ++ .call span callee o.values.node result :: o.after)) := by
  have hcalls : Stmt.allCalls (o.before ++ .call span callee o.values.node result :: o.after) =
      (Stmt.allCalls o.before ++ Expr.allCalls o.values.node) ++ [(callee, o.values.node)] := by
    simp [Stmt.allCalls, Stmt.calls, ho.after]
  rw [hcalls]
  exact (ho.values left marks).append (.single (.made left callee ho.passed))

/-- The plans find the same range as the arguments show. -/
theorem range?_renders (callee : Callee) (h : Forall₂ (Renders V) arguments plans) :
    (callee.range? arguments = none ∧ range? callee arguments plans = none) ∨
    ∃ array start n es index items, arguments = [array, start, .segment n es] ∧
      callee.range? arguments = some (array, index, es) ∧
      range? callee arguments plans = some (array, index, items) ∧
      Keeps V (Operands.Renders es) items := by
  by_cases hthree : arguments.length = 3
  · obtain ⟨array, start, third, rfl⟩ := length_eq_three.1 hthree
    obtain ⟨p, q, r, rfl⟩ := length_eq_three.1 (h.length_eq.symm.trans hthree)
    obtain ⟨-, -, hthird⟩ : Renders V array p ∧ Renders V start q ∧ Renders V third r := by
      simpa using h
    by_cases hname : callee.builtin?.any (·.name == "setRange") = true
    · by_cases hlist : ∃ n es, third = .segment n es
      · obtain ⟨n, es, rfl⟩ := hlist
        obtain ⟨items, hitems, hkeeps⟩ := hthird.items n es rfl
        cases hindex : start.constantFloat? with
        | none => simp [Callee.range?, range?, hindex]
        | some index =>
          refine .inr ⟨array, start, n, es, index, items, rfl, ?_, ?_, hkeeps⟩
          · simp [Callee.range?, hname, hindex]
          · simp [range?, hname, hindex, hitems]
      · have hnone : r.items? = none := hthird.noItems fun n es h ↦ hlist ⟨n, es, h⟩
        refine .inl ⟨Callee.range?_of_ne fun n es h ↦ hlist ⟨n, es, h⟩, ?_⟩
        simp [range?, hnone]
    · refine .inl ⟨?_, by simp [range?, hname]⟩
      unfold Callee.range?
      split
      · exact if_neg hname
      · rfl
  · refine .inl ⟨?_, ?_⟩
    · unfold Callee.range?
      split
      · exact absurd rfl hthree
      · rfl
    · unfold range?
      split
      · exact absurd rfl hthree
      · rfl

theorem keeps_callStatement_emits (result : Option Variable) (span : Span)
    (h : Forall₂ (Renders V) arguments plans) :
    Keeps V (Stmt.Emits (fun left ↦ Expr.allRequests left (callee.spared arguments) arguments ++
        [.call left callee arguments]) (callee.runs arguments))
      (callStatement callee arguments plans result span) := by
  unfold callStatement
  rcases range?_renders callee h with
    ⟨hnone, hplans⟩ | ⟨array, start, n, es, index, items, rfl, hrange, hplans, hitems⟩
  · rw [hplans]
    refine (keeps_operands_renders h).bind fun o ho ↦ .pure ⟨fun left ↦ ?_, ?_⟩
    · exact answered_call ho callee result span left _
    · simp [Callee.runs, hnone]
  · rw [hplans]
    have hmarks : callee.spared [array, start, .segment n es] = [true, true] := by
      rw [Callee.spared, hrange]
      rfl
    have hruns : callee.runs [array, start, .segment n es] = !es.isEmpty := by
      rw [Callee.runs, hrange]
      rfl
    rw [hmarks, hruns]
    refine keeps_elementStores_emits hitems fun left cs set values hcs hlength ↦ ?_
    have hshape : Expr.allRequests left [true, true] [array, start, .segment n es] =
        array.requests true ++ (start.requests true ++ Expr.allRequests left [] es) := by
      simp [Expr.allRequests, Expr.requests]
    have hstart : Answered (start.requests true) [] := start.answered_copies 0
    rw [hshape, append_assoc, append_assoc]
    exact (array.answered_copies _).append
      (hstart.append (hcs.append (.single (.spread left set span hrange hlength))))

theorem keeps_callValue_renders (h : Forall₂ (Renders V) arguments plans) :
    Keeps V (Split.Renders (.call n callee arguments)) (callValue n callee plans) := by
  refine (keeps_operands_renders h).bind fun o ho ↦ ?_
  have hbefore (result : Option Variable) (left : Bool) :
      Answered ((Expr.call n callee arguments).requests left) (Stmt.allCalls
        (o.before ++ .call n.span callee o.values.node result :: o.after)) :=
    answered_call ho callee result n.span left _
  split
  · next hneeds =>
    have hcall (result : Option Variable) {v : Expr} (hv : v.calls = []) :
        Split.Renders (.call n callee arguments) { before := _, value := .new v } :=
      ⟨Split.emits_of_before hv (hbefore result), by simp [hasBefore, runsFirst, hneeds],
        by simp [runsLater, hneeds], by simp [read?]⟩
    split
    · exact .pure (hcall none rfl)
    · exact (keeps_temporary_isTemporary _).bind fun x _ ↦ .pure (hcall (some x) rfl)
  · next hneeds =>
    have hneeds : callee.needsStatement = false := by simpa using hneeds
    have hcalls : (Revised.choose o.values.changed (.call n callee o.values.node)
        (Build.call callee o.values.node n.span)).node.calls =
        Expr.allCalls o.values.node ++ [(callee, o.values.node)] :=
      Revised.calls_choose rfl rfl
    refine .pure ⟨⟨fun left ↦ ?_, fun left ↦ ?_, ho.after⟩, ?_, ?_, by simp [read?]⟩
    · rw [hcalls, ← append_assoc]
      exact (ho.values left _).append (.single (.made left callee ho.passed))
    · rw [← append_nil (Stmt.allCalls o.before)]
      exact (ho.effects left _).append (.single (.dropped left arguments hneeds))
    · simp [hasBefore, ho.first, Expr.runsFirst, hneeds]
    · simp [ho.later, Expr.runsLater, hneeds]

theorem keeps_segmentValue_renders (h : Forall₂ (Renders V) es plans) :
    Keeps V (Split.Renders (.segment n es)) (segmentValue n plans) := by
  refine (keeps_operands_renders h).bind fun o ho ↦ ?_
  split
  · next element helement =>
    have hcalls : (Revised.choose o.values.changed (.segment n o.values.node)
        (Build.segment element o.values.node n.span)).node.calls = Expr.allCalls o.values.node :=
      Revised.calls_choose rfl rfl
    refine .pure ⟨⟨fun left ↦ ?_, fun left ↦ ho.effects left [], ho.after⟩, ?_, ?_,
      by simp [read?]⟩
    · rw [hcalls]
      exact ho.values left []
    · simp [hasBefore, ho.first, Expr.runsFirst]
    · simp [ho.later, Expr.runsLater]
  · exact .throw

end Plan

/-- The right operand of a short-circuit operator runs if the left one does not decide. -/
theorem keeps_shortCircuit_renders {left right : Expr} {l r : Split}
    (hop : (op.isShortCircuit && r.hasEffects) = true) (hl : l.Renders left) (hr : r.Renders right)
    : Keeps V (Split.Renders (.binary n op left right)) (shortCircuit op l r span) := by
  refine (keeps_temporary_isTemporary _).bind fun x _ ↦
    (keeps_label (by decide)).bind fun skip _ ↦ .pure ?_
  obtain ⟨hshort, heffects⟩ := Bool.and_eq_true_iff.1 hop
  have hcalls (mark : Bool) : Answered ((Expr.binary n op left right).requests mark)
      (Stmt.allCalls (l.around (.assign span x) ++ .gotoIf span skip (Build.read x span)
        (decide (op = .or)) :: (r.around (.assign span x) ++ [.label span skip]))) := by
    have hleft := hl.toEmits.calls_around (.assign span x) (fun _ ↦ rfl) mark
    have hright := hr.toEmits.calls_around (.assign span x) (fun _ ↦ rfl) mark
    have h := hleft.append hright
    simpa [Stmt.allCalls, Stmt.calls, Expr.calls, Build.read, Expr.requests] using h
  refine ⟨Split.emits_of_before rfl hcalls, ?_, ?_, by simp [read?]⟩
  · rw [hr.hasEffects] at heffects
    rcases Bool.or_eq_true_iff.1 heffects with h | h
    · simp [hasBefore, runsFirst, h]
    · simp [hasBefore, runsFirst, hshort, h]
  · rw [hr.hasEffects] at heffects
    simp [runsLater, hshort, heffects]

/-- Both forms of an operator have the calls of its operands. -/
theorem calls_remade {o : Operands} (he : e.IsOperator)
    (h : o.values.node.length = e.operands.length) :
    (remade e o).value.node.calls = Expr.allCalls o.values.node := by
  obtain ⟨_, ⟨values, changed⟩, _⟩ := o
  cases e
  case unary | convert =>
    obtain ⟨a, rfl⟩ := length_eq_one_iff.1 h
    cases changed <;> exact (append_nil a.calls).symm
  case binary =>
    obtain ⟨a, b, rfl⟩ := length_eq_two.1 h
    cases changed <;> exact congrArg (a.calls ++ ·) (append_nil b.calls).symm
  case make =>
    obtain ⟨a, b, c, rfl⟩ := length_eq_three.1 h
    cases changed <;> simp [Expr.allCalls] <;> rfl
  all_goals exact he.elim

/-- An operator is made of what its operands have become. -/
theorem renders_remade {o : Operands} (ho : o.Renders e.operands) (he : e.IsOperator)
    (hfirst : e.runsFirst = anyRunsFirst e.operands)
    (hlater : e.runsLater = anyRunsLater e.operands) : Split.Renders e (remade e o) := by
  have hrequests (left : Bool) : e.requests left = Expr.allRequests left [] e.operands := by
    cases e <;> first | exact he.elim | simp [Expr.requests, Expr.allRequests, Expr.operands]
  refine ⟨⟨fun left ↦ ?_, fun left ↦ ?_, ho.after⟩, ?_, hlater ▸ ho.later, fun x hx ↦ ?_⟩
  · rw [calls_remade he ho.passed.length, hrequests]
    exact ho.values left []
  · rw [hrequests]
    exact ho.effects left []
  · simp [hasBefore, remade, ho.first, hfirst]
  · cases e <;> first | exact he.elim | cases hx

theorem Plan.renders_operator {value : Extract Split}
    (hvalue : value = (do let o ← operands plans; return remade e o))
    (h : Forall₂ (Renders V) e.operands plans) (he : e.IsOperator)
    (halone : e.runsAlone = (e.runsFirst || e.runsLater))
    (hfirst : e.runsFirst = anyRunsFirst e.operands := by
      simp [runsFirst, anyRunsFirst, Expr.operands])
    (hlater : e.runsLater = anyRunsLater e.operands := by
      simp [runsLater, anyRunsLater, anyRunsFirst, Expr.operands]) :
    (ofValue value).Renders V e := by
  subst hvalue
  refine renders_ofValue halone ((keeps_operands_renders h).bind fun o ho ↦
    .pure (renders_remade ho he hfirst hlater)) ?_
  cases e <;> first | exact he.elim | constructor <;> simp

/-- The alternatives for storing a literal list: element by element to the variable. -/
theorem keeps_fill (n : Note) (x : Variable) (span : Span)
    (h : Forall₂ (Plan.Renders V) es plans) : Keeps V (Stmt.Emits
        (fun left ↦ (Expr.segment n es).requests left ++ (Expr.segment n es).fills left x)
        (!es.isEmpty))
      (elementStores (Build.read x span) 0 (Plan.operands plans) span) := by
  refine keeps_elementStores_emits (Plan.keeps_operands_renders h)
    fun left cs set values hcs hlength ↦ ?_
  have hcopies : (List.replicate values.length (Build.read x span).calls).flatten = [] :=
    flatten_replicate_nil
  rw [hcopies]
  exact hcs.append (.single (.fill left x set span hlength))

mutual

/-- The plan of every expression emits what the expression asks for. -/
theorem renders_expr (e : Expr) : (expr e).Renders V e := by
  match e with
  | .literal n value | .read n x | .error n =>
    exact Plan.renders_plain (fun _ ↦ rfl) rfl rfl rfl rfl
  | .unary n op operand =>
    exact Plan.renders_operator value_unary (.cons (renders_expr operand) .nil) trivial rfl
  | .convert n operand =>
    exact Plan.renders_operator value_convert (.cons (renders_expr operand) .nil) trivial rfl
  | .binary n op left right =>
    have halone : (Expr.binary n op left right).runsAlone =
        ((Expr.binary n op left right).runsFirst || (Expr.binary n op left right).runsLater) := by
      simp only [runsAlone, runsFirst, runsLater]
      cases op.isShortCircuit <;> cases left.runsFirst <;> cases left.runsLater <;>
        cases right.runsFirst <;> cases right.runsLater <;> rfl
    refine Plan.renders_ofValue halone (?_ : Keeps V _ (expr (.binary n op left right)).value)
    rw [value_binary]
    refine (renders_expr left).value.bind fun l hl ↦ (renders_expr right).value.bind fun r hr ↦ ?_
    split
    · next hop => exact keeps_shortCircuit_renders hop hl hr
    · next hop =>
      refine (keeps_gather_renders (.cons hl (.cons hr .nil))).bind fun o ho ↦ .pure ?_
      rw [hr.hasEffects] at hop
      refine renders_remade ho trivial ?_ ?_
      · simp only [runsFirst, anyRunsFirst, Expr.operands]
        revert hop
        cases op.isShortCircuit <;> cases right.runsFirst <;> cases right.runsLater <;> simp
      · simp only [runsLater, anyRunsLater, anyRunsFirst, Expr.operands]
        revert hop
        cases op.isShortCircuit <;> cases right.runsFirst <;> cases right.runsLater <;> simp
  | .make n x y z =>
    refine Plan.renders_operator value_make (.cons (renders_expr x) (.cons (renders_expr y)
      (.cons (renders_expr z) .nil))) trivial ?_
    simp only [runsAlone, runsFirst, runsLater]
    cases x.runsFirst <;> cases y.runsFirst <;> cases z.runsFirst <;> cases x.runsLater <;>
      cases y.runsLater <;> cases z.runsLater <;> rfl
  | .call n callee arguments =>
    rw [expr]
    have hplans := renders_exprs arguments
    have hvalue : Keeps V (Split.Renders (.call n callee arguments))
        (Plan.callValue n callee (exprs arguments)) := Plan.keeps_callValue_renders hplans
    refine ⟨hvalue, fun x span ↦ ?_, ?_, by simp, fun _ ↦ rfl⟩
    · simp only [Expr.fills, append_nil, Expr.runsToStore]
      split
      · next h =>
        simp only [h]
        exact Plan.keeps_callStatement_emits (some x) span hplans
      · next h =>
        simp only [h]
        exact Plan.keeps_store_ofValue x span hvalue
    · exact Plan.keeps_callStatement_emits none n.span hplans
  | .step n x yieldsNew down =>
    have hcalls (left : Bool) : Answered ((Expr.step n x yieldsNew down).requests left)
        (Stmt.allCalls [step x down n.span]) := .nil
    refine Plan.renders_ofEffects (.pure ⟨hcalls, rfl⟩) (.pure ?_)
    cases yieldsNew with
    | true => exact ⟨Split.emits_of_before rfl hcalls, rfl, rfl, by simp [read?]⟩
    | false => exact ⟨⟨fun _ ↦ .nil, fun _ ↦ .nil, rfl⟩, rfl, rfl, by simp [read?]⟩
  | .segment n items =>
    have hplans := renders_exprs items
    have hvalue : Keeps V (Split.Renders (.segment n items))
        (Plan.segmentValue n (exprs items)) := Plan.keeps_segmentValue_renders hplans
    refine ⟨hvalue, fun x span ↦ keeps_fill n x span hplans, Plan.keeps_discard_ofValue hvalue,
      fun n' es h ↦ ?_, fun h ↦ absurd rfl (h n items)⟩
    cases h
    exact ⟨_, rfl, Plan.keeps_operands_renders hplans⟩
  | .assign n x value =>
    have heffects := (renders_expr value).store x n.span
    refine Plan.renders_ofEffects heffects (heffects.bind fun code hcode ↦ .pure ?_)
    refine ⟨Split.emits_of_before rfl hcode.answered, ?_, rfl, by simp [read?]⟩
    simp [hasBefore, hcode.runs, runsFirst]
  | .compound n x op value => exact Plan.renders_ofValue rfl .throw
  | .statement n body =>
    have heffects := emits_stmt body
    refine Plan.renders_ofEffects heffects (heffects.bind fun code hcode ↦ .pure ?_)
    refine ⟨Split.emits_of_before rfl hcode.answered, ?_, rfl, by simp [read?]⟩
    simp [hasBefore, hcode.runs, runsFirst]

theorem renders_exprs (es : List Expr) : Forall₂ (Plan.Renders V) es (exprs es) := by
  match es with
  | [] => exact .nil
  | e :: rest => exact .cons (renders_expr e) (renders_exprs rest)

/-- What is emitted for a statement. -/
theorem emits_stmt (s : Stmt) : Keeps V (Stmt.Emits (s.requests ·) s.runs) (stmt s) := by
  match s with
  | .block span items => exact emits_stmts items
  | .declare .. | .label .. | .goto .. | .ret _ | .hint .. | .nop _ | .rollback .. =>
    exact .pure ⟨fun _ ↦ .nil, rfl⟩
  | .gotoOn span target event arguments =>
    refine .pure ⟨fun left ↦ ?_, rfl⟩
    have h := Expr.answered_allCopies 1 [] arguments
    simpa [Stmt.requests, Stmt.allCalls, Stmt.calls] using h
  | .define span nameSpan x value =>
    have hvalue : (expr value).Renders V value := renders_expr value
    cases value
    case segment | call =>
      exact (hvalue.store x span).bind fun code hcode ↦ .pure ⟨hcode.answered, rfl⟩
    all_goals
      rw [stmt]
      · refine hvalue.value.bind fun v hv ↦ .pure ⟨fun left ↦ ?_, by simp [Split.around, Stmt.runs]⟩
        simpa [Stmt.requests, Expr.fills] using hv.toEmits.calls_around _ (fun _ ↦ rfl) left
      · simp
      · simp
  | .assign span x value => exact (renders_expr value).store x span
  | .gotoIf span target value sense | .retValue span value =>
    exact (renders_expr value).value.bind fun v hv ↦ (keeps_ahead_renders _ hv).bind
      fun v' hv' ↦ .pure ⟨hv'.toEmits.calls_around _ fun _ ↦ rfl, by simp [Split.around, Stmt.runs]⟩
  | .call span callee arguments result =>
    exact Plan.keeps_callStatement_emits result span (renders_exprs arguments)
  | .expression span e => exact (renders_expr e).discard
  | .compound .. | .ifThen .. | .ifElse .. | .whileLoop .. | .doWhile .. | .on .. => exact .throw

theorem emits_stmts (items : List Stmt) :
    Keeps V (Stmt.Emits (Stmt.allRequests · items) (Stmt.anyRuns items)) (stmts items) := by
  match items with
  | [] => exact .pure ⟨fun _ ↦ .nil, rfl⟩
  | s :: rest =>
    refine (emits_stmt s).bind fun code hcode ↦ (emits_stmts rest).bind fun code' hcode' ↦ .pure ?_
    refine ⟨fun left ↦ ?_, ?_⟩
    · rw [Stmt.allCalls_append]
      exact (hcode.answered left).append (hcode'.answered left)
    · rw [isEmpty_append, hcode.runs, hcode'.runs, Stmt.anyRuns, Bool.not_or]

end

end Extract

/-! ### Variables that a call has to reach -/

/-- The variable that a call is given at a position. -/
def CallSite.given? (site : CallSite) (i : Nat) : Option Variable := site.2[i]?.bind read?

/-- The call has to reach the variable itself: it is passed by reference, or it is an array. -/
structure Callee.Refers (callee : Callee) (arguments : List Expr) (i : Nat) (x : Variable) :
    Prop where
  argument : CallSite.given? (callee, arguments) i = some x
  reaches : callee.parameterModifiers[i]?.any Modifiers.byReference = true ∨ x.type.isArray = true

/-- How the variables that a request has to reach fare in the calls that are emitted for it. A call
is given an undisturbed variable, and a temporary in the place of any other one. A literal list is
always stored to the array itself, which stands first. -/
def Request.Carried : Request → List CallSite → Prop
  | .fill _ x _, image => ∀ site ∈ image, site.given? 0 = some x
  | .call left callee arguments, image => ∀ i x, callee.Refers arguments i x →
    (Expr.Undisturbed arguments i → callee.range? arguments = none ∨ i = 0 →
      ∀ site ∈ image, site.given? i = some x) ∧
    (¬ Expr.Undisturbed arguments i → left = false → callee.range? arguments = none →
      ∀ site ∈ image, ∃ t, site.given? i = some t ∧ t.isTemporary = true ∧ t ≠ x)

theorem CallSite.given?_eq_some {i : Nat} :
    site.given? i = some x ↔ ∃ a, site.2[i]? = some a ∧ a.read? = some x :=
  Option.bind_eq_some_iff

theorem Callee.range?_eq_some {items : List Expr}
    (h : callee.range? arguments = some (array, start, items)) : arguments[0]? = some array := by
  unfold Callee.range? at h
  split at h
  · split at h
    · obtain ⟨index, -, heq⟩ := Option.map_eq_some_iff.1 h
      cases heq
      rfl
    · cases h
  · cases h

theorem given?_elementCalls {set : Callee} (h : site ∈ elementCalls set array start span values) :
    site.given? 0 = array.read? := by
  obtain ⟨⟨-, i⟩, -, rfl⟩ := mem_map.1 h
  rfl

/-- Whatever becomes of a request, its variables fare as they have to. -/
theorem Request.Becomes.carried {r : Request} (h : r.Becomes image) : r.Carried image := by
  cases h with
  | left callee arguments n =>
    intro i x hx
    refine ⟨fun _ _ site hsite ↦ ?_, by simp⟩
    obtain rfl := eq_of_mem_replicate hsite
    exact hx.argument
  | leftFill x items => exact fun site hsite ↦ absurd hsite (by simp)
  | dropped left arguments hneeds => exact fun i x _ ↦ ⟨by simp, by simp⟩
  | @spread callee arguments items values array start left set span hrange hlength =>
    intro i x hx
    refine ⟨?_, fun _ _ hnone ↦ by simp [hrange] at hnone⟩
    rintro - (hnone | rfl) site hsite
    · simp [hrange] at hnone
    · obtain ⟨a, ha, hread⟩ := CallSite.given?_eq_some.1 hx.argument
      have harray : a = array := Option.some.inj (ha.symm.trans (Callee.range?_eq_some hrange))
      rw [given?_elementCalls hsite, ← harray]
      exact hread
  | fill left x set span hlength => exact fun site hsite ↦ given?_elementCalls hsite
  | @made arguments values left callee hpassed =>
    intro i x hx
    obtain ⟨a, ha, hread⟩ := CallSite.given?_eq_some.1 hx.argument
    refine ⟨fun h _ site hsite ↦ ?_, fun h _ _ site hsite ↦ ?_⟩
    · obtain rfl := mem_singleton.1 hsite
      exact CallSite.given?_eq_some.2 ⟨a, hpassed.kept i a x ha hread h, hread⟩
    · obtain rfl := mem_singleton.1 hsite
      obtain ⟨v, t, hv, ht, htemporary, hplain⟩ := hpassed.lost i a x ha hread h
      refine ⟨t, CallSite.given?_eq_some.2 ⟨v, hv, ht⟩, htemporary, ?_⟩
      rintro rfl
      simp [htemporary] at hplain

/-- The calls of an extracted body are what has become of the calls of the body. In them, a variable
that is passed by reference and an array are given as they stand exactly if nothing runs before a
later argument is read; otherwise a temporary stands for them. -/
theorem Extracted.carried_of_extract {routine : Routine} {body : Stmt} {e : Extracted}
    (h : extract routine body = .ok e) :
    ∃ images : List (List CallSite), Forall₂ Request.Becomes (body.requests false) images ∧
      images.flatten.Perm (Stmt.allCalls e.statements) ∧
      Forall₂ Request.Carried (body.requests false) images := by
  obtain ⟨ξ, hyields⟩ := extract_eq_ok h
  have hsupplies : Extract.Supplies Vocabulary.all (.ofRoutine routine) :=
    ⟨rfl, fun _ _ ↦ trivial, fun _ _ _ ↦ trivial⟩
  obtain ⟨-, hemits⟩ := Extract.emits_stmt body _ _ ξ hsupplies hyields
  obtain ⟨images, himages, hperm⟩ := hemits.answered false
  exact ⟨images, himages, hperm, himages.imp fun _ _ hbecomes ↦ hbecomes.carried⟩

/-- A routine that writes to its first parameter. -/
def lender : Routine :=
  .declare 1 "f" [.slot ⟨.declared 1, "p", .float, .parameter, { ref := true }⟩,
    .slot ⟨.declared 2, "q", .float, .parameter, {}⟩] .void {}

/-- A call by reference whose last argument is a call: `f(x, g())`. -/
def lentBeforeCall : Stmt :=
  .expression default (Build.call (.routine lender)
    [Build.read (.slot ⟨.declared 0, "x", .float, .scoped, {}⟩) default,
      Build.call (.routine (.declare 2 "g" [] .float {})) [] default] default)

theorem Extracted.carried_of_extract_lentBeforeCall :
    ∃ e, extract (.declare 0 "main" [] .void {}) lentBeforeCall = .ok e ∧
      ∃ images : List (List CallSite),
        Forall₂ Request.Becomes (lentBeforeCall.requests false) images ∧
        images.flatten.Perm (Stmt.allCalls e.statements) ∧
        Forall₂ Request.Carried (lentBeforeCall.requests false) images :=
  ⟨_, rfl, Extracted.carried_of_extract rfl⟩

/-- What is lent is read into a temporary ahead of the other call, and the temporary is lent. -/
theorem lends_temporary :
    (extract (.declare 0 "main" [] .void {}) lentBeforeCall).toOption.map (fun e ↦
      (Stmt.allCalls e.statements).map fun site ↦
        (site.1.name, (site.given? 0).map fun x ↦ (x.name, x.isTemporary))) =
      some [("g", none), ("f", some ("#tmp1", true))] := by
  decide +kernel

end Wirescript
