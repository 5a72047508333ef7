import Wirescript.Proofs.Extracting
import Wirescript.Proofs.Lowering

/-!
# What bodies are made of

A body mentions variables, labels and routines. A `Vocabulary` says which ones it may mention, and
flattening adds nothing to it but labels and temporaries that carry the name or the number of the
routine: what a source body is made of, its flat body is made of. A mention of a variable is never
known to have a value.

Lowering and extraction are read once each, as computations whose outcomes stay within a vocabulary
as long as their supplies do.
-/

namespace Wirescript

open Stmt
open List

variable {changed : Bool} {callee : Callee} {types : List Ty} {n : Note} {span : Span} {s : Stmt}
  {name : String}

/-- What a body may mention. -/
structure Vocabulary where
  var : Variable → Prop
  label : Label → Prop
  routine : Routine → Prop
  /-- Whether there may be events. -/
  events : Prop := True

/-- Every variable and label is allowed, and every routine. -/
def Vocabulary.all : Vocabulary where
  var _ := True
  label _ := True
  routine _ := True

/-- A call may name every built-in function. -/
def Callee.Within (V : Vocabulary) : Callee → Prop
  | .routine r => V.routine r
  | .builtin _ _ => True

mutual

/-- Everything that the expression mentions is in the vocabulary. -/
def Expr.Within (V : Vocabulary) : Expr → Prop
  | .literal _ _ | .error _ => True
  | .read n x => n.constant = none ∧ V.var x
  | .unary _ _ operand | .convert _ operand => operand.Within V
  | .binary _ _ left right => left.Within V ∧ right.Within V
  | .make _ x y z => x.Within V ∧ y.Within V ∧ z.Within V
  | .call _ callee arguments => callee.Within V ∧ Expr.AllWithin V arguments
  | .step _ x _ _ => V.var x
  | .segment _ items => Expr.AllWithin V items
  | .assign _ x value | .compound _ x _ value => V.var x ∧ value.Within V
  | .statement _ body => body.Within V

@[inherit_doc Expr.Within]
def Expr.AllWithin (V : Vocabulary) : List Expr → Prop
  | [] => True
  | e :: rest => e.Within V ∧ Expr.AllWithin V rest

/-- Everything that the statement mentions is in the vocabulary. -/
def Stmt.Within (V : Vocabulary) : Stmt → Prop
  | .block _ items => Stmt.AllWithin V items
  | .declare _ _ x => V.var x
  | .define _ _ x value | .assign _ x value | .compound _ x _ value => V.var x ∧ value.Within V
  | .ifThen _ condition body | .whileLoop _ condition body | .doWhile _ body condition =>
    condition.Within V ∧ body.Within V
  | .ifElse _ condition body alternative =>
    condition.Within V ∧ body.Within V ∧ alternative.Within V
  | .label _ l | .goto _ l => V.label l
  | .gotoIf _ l condition _ => V.label l ∧ condition.Within V
  | .ret _ | .hint _ _ | .nop _ => True
  | .retValue _ value | .expression _ value => value.Within V
  | .call _ callee arguments result =>
    callee.Within V ∧ Expr.AllWithin V arguments ∧ ∀ x ∈ result, V.var x
  | .on _ _ arguments body => V.events ∧ Expr.AllWithin V arguments ∧ body.Within V
  | .gotoOn _ l _ arguments => V.events ∧ V.label l ∧ Expr.AllWithin V arguments
  | .rollback _ l => V.events ∧ V.label l

@[inherit_doc Stmt.Within]
def Stmt.AllWithin (V : Vocabulary) : List Stmt → Prop
  | [] => True
  | s :: rest => s.Within V ∧ Stmt.AllWithin V rest

end

variable {V : Vocabulary}

theorem Expr.allWithin_iff {es : List Expr} : Expr.AllWithin V es ↔ ∀ e ∈ es, e.Within V := by
  induction es with
  | nil => simp [Expr.AllWithin]
  | cons e rest ih => simp [Expr.AllWithin, ih]

theorem Stmt.allWithin_iff {items : List Stmt} :
    Stmt.AllWithin V items ↔ ∀ s ∈ items, s.Within V := by
  induction items with
  | nil => simp [Stmt.AllWithin]
  | cons s rest ih => simp [Stmt.AllWithin, ih]

/-- What the root of an expression mentions is in the vocabulary. -/
def Vocabulary.Admits (V : Vocabulary) : Expr → Prop
  | .read n x => n.constant = none ∧ V.var x
  | .call _ callee _ => callee.Within V
  | .step _ x _ _ | .assign _ x _ | .compound _ x _ _ => V.var x
  | _ => True

/-- What the root of a statement mentions is in the vocabulary. -/
def Vocabulary.AdmitsStmt (V : Vocabulary) : Stmt → Prop
  | .declare _ _ x | .define _ _ x _ | .assign _ x _ | .compound _ x _ _ => V.var x
  | .label _ l | .goto _ l | .gotoIf _ l _ _ => V.label l
  | .call _ callee _ result => callee.Within V ∧ ∀ x ∈ result, V.var x
  | .on _ _ _ _ => V.events
  | .gotoOn _ l _ _ | .rollback _ l => V.events ∧ V.label l
  | _ => True

mutual

/-- A tree is within the vocabulary if its nodes are. -/
theorem Expr.within_iff (e : Expr) : e.Within V ↔ e.Each V.Admits V.AdmitsStmt := by
  match e with
  | .literal .. | .read .. | .step .. | .error _ => simp [Expr.Within, Expr.Each, Vocabulary.Admits]
  | .unary _ _ operand | .convert _ operand | .assign _ _ operand | .compound _ _ _ operand =>
    simp [Expr.Within, Expr.Each, Vocabulary.Admits, operand.within_iff]
  | .binary _ _ left right =>
    simp [Expr.Within, Expr.Each, Vocabulary.Admits, left.within_iff, right.within_iff]
  | .make _ x y z =>
    simp [Expr.Within, Expr.Each, Vocabulary.Admits, x.within_iff, y.within_iff, z.within_iff]
  | .call _ _ arguments | .segment _ arguments =>
    simp [Expr.Within, Expr.Each, Vocabulary.Admits, Expr.allWithin_iff_each arguments]
  | .statement _ body => simp [Expr.Within, Expr.Each, Vocabulary.Admits, body.within_iff]

@[inherit_doc Expr.within_iff]
theorem Expr.allWithin_iff_each (es : List Expr) :
    Expr.AllWithin V es ↔ Expr.AllEach V.Admits V.AdmitsStmt es := by
  match es with
  | [] => exact Iff.rfl
  | e :: rest => exact and_congr e.within_iff (Expr.allWithin_iff_each rest)

@[inherit_doc Expr.within_iff]
theorem Stmt.within_iff (s : Stmt) : s.Within V ↔ s.Each V.Admits V.AdmitsStmt := by
  match s with
  | .declare .. | .label .. | .goto .. | .rollback .. | .ret _ | .hint .. | .nop _ =>
    simp [Stmt.Within, Stmt.Each, Vocabulary.AdmitsStmt]
  | .block _ items => simp [Stmt.Within, Stmt.Each, Vocabulary.AdmitsStmt, Stmt.allWithin_iff_each items]
  | .define _ _ _ value | .assign _ _ value | .compound _ _ _ value | .gotoIf _ _ value _
  | .retValue _ value | .expression _ value =>
    simp [Stmt.Within, Stmt.Each, Vocabulary.AdmitsStmt, value.within_iff]
  | .ifThen _ condition body | .whileLoop _ condition body | .doWhile _ body condition =>
    simp [Stmt.Within, Stmt.Each, Vocabulary.AdmitsStmt, condition.within_iff, body.within_iff]
  | .ifElse _ condition body alternative =>
    simp [Stmt.Within, Stmt.Each, Vocabulary.AdmitsStmt, condition.within_iff, body.within_iff,
      alternative.within_iff]
  | .call _ _ arguments _ =>
    rw [Stmt.Within, Stmt.Each, Vocabulary.AdmitsStmt, Expr.allWithin_iff_each arguments, and_assoc,
      and_congr_right_iff]
    exact fun _ ↦ and_comm
  | .gotoOn _ _ _ arguments =>
    rw [Stmt.Within, Stmt.Each, Vocabulary.AdmitsStmt, Expr.allWithin_iff_each arguments, and_assoc]
  | .on _ _ arguments body =>
    simp [Stmt.Within, Stmt.Each, Vocabulary.AdmitsStmt, Expr.allWithin_iff_each arguments, body.within_iff]

@[inherit_doc Expr.within_iff]
theorem Stmt.allWithin_iff_each (items : List Stmt) :
    Stmt.AllWithin V items ↔ Stmt.AllEach V.Admits V.AdmitsStmt items := by
  match items with
  | [] => exact Iff.rfl
  | s :: rest => exact and_congr s.within_iff (Stmt.allWithin_iff_each rest)

end

theorem Stmt.Within.of_mem_flatten {t : Stmt} (h : s.Within V) (ht : t ∈ s.flatten) : t.Within V :=
  t.within_iff.2 ((s.within_iff.1 h).of_mem_flatten ht)

/-! ### Lowering -/

/-- The kinds of labels that are made up. -/
def Label.kinds : List String := ["end", "else", "continue", "break", "body", "event", "skip"]

/-- The labels that are made up inside a scope are in the vocabulary. -/
def Vocabulary.Labels (V : Vocabulary) (scope : String) : Prop :=
  ∀ kind ∈ Label.kinds, ∀ n, V.label (.numbered scope kind n)

namespace Lower

/-- The labels that the supply makes up are in the vocabulary. -/
def Supplies (V : Vocabulary) (σ : LabelSupply) : Prop := V.Labels σ.scope

/-- The outcome of the computation is of a kind, as long as its supply is within the vocabulary. -/
def Keeps (V : Vocabulary) {α : Type} (P : α → Prop) (x : Lower α) : Prop :=
  ∀ σ a σ', Supplies V σ → x.run σ = .ok (a, σ') → Supplies V σ' ∧ P a

theorem within_settle {kept derived : Expr} (hkept : kept.Within V) (hderived : derived.Within V) :
    (settle n changed kept derived).node.Within V :=
  settle_cases (P := (·.node.Within V)) (fun _ _ ↦ trivial) (fun _ ↦ hkept) fun _ ↦ hderived

theorem within_foldCall {arguments : Revised (List Expr)} {r : Revised Expr}
    (hcallee : callee.Within V) (harguments : Expr.AllWithin V arguments.node)
    (h : foldCall n callee arguments = .ok r) : r.node.Within V := by
  obtain rfl | ⟨_, _, _, _, -, -, -, -, rfl⟩ := foldCall_cases h
  · exact ⟨hcallee, harguments⟩
  · trivial

theorem within_combined {x : Variable} {op : BinaryOp} {value : Expr} (hx : V.var x)
    (hvalue : value.Within V) : (Build.combined x op value span).Within V :=
  ⟨⟨rfl, hx⟩, hvalue⟩

theorem within_jumpIf {condition : Expr} {target : Label} {sense : Bool}
    (hcondition : condition.Within V) (htarget : V.label target) :
    (jumpIf condition target sense span).Within V :=
  jumpIf_cases (P := (·.Within V)) htarget trivial ⟨htarget, hcondition⟩

/-- What is made of something within the vocabulary is within it. -/
def withinScheme (V : Vocabulary) : Scheme where
  supply := Supplies V
  expr e _ r _ := e.Within V → r.node.Within V
  exprs es _ r _ := Expr.AllWithin V es → Expr.AllWithin V r.node
  stmt s _ r _ := s.Within V → r.node.Within V
  stmts items _ r _ := Stmt.AllWithin V items → Stmt.AllWithin V r.node

theorem lawful_withinScheme (V : Vocabulary) : (withinScheme V).Lawful where
  atom _ _ he := he
  unary h he := within_settle (h he) (h he)
  binary hl hr he := within_settle ⟨hl he.1, hr he.2⟩ ⟨hl he.1, hr he.2⟩
  make hx hy hz he := within_settle ⟨hx he.1, hy he.2.1, hz he.2.2⟩ ⟨hx he.1, hy he.2.1, hz he.2.2⟩
  call h hr he := within_foldCall he.1 (h he.2) hr
  convert h he := within_settle (h he) (h he)
  assign h he := ⟨he.1, h he.2⟩
  compound h he := ⟨he.1, within_combined he.1 (h he.2)⟩
  nil _ _ := trivial
  cons h hs hes := ⟨h hes.1, hs hes.2⟩
  atomStmt _ _ hs := hs
  define h hs := ⟨hs.1, h hs.2⟩
  store h hs := ⟨hs.1, h hs.2⟩
  combine h hs := ⟨hs.1, within_combined hs.1 (h hs.2)⟩
  invoke h hs := ⟨hs.1, h hs.2.1, hs.2.2⟩
  gotoIf h hs := within_jumpIf (h hs.2) hs.1
  gotoOn h hs := ⟨hs.1, hs.2.1, h hs.2.2⟩
  ifThen hσ hc hb hs := by
    have hafter := hσ "end" (by decide)
    exact ⟨within_jumpIf (hc hs.1) (hafter _), trivial, hb hs.2, trivial, hafter _, trivial⟩
  ifElse hσ hc hb ha hs := by
    have hafter := hσ "end" (by decide)
    have helse := hσ "else" (by decide)
    exact ⟨within_jumpIf (hc hs.1) (helse _), trivial, hb hs.2.1, trivial, hafter _, helse _,
      trivial, ha hs.2.2, trivial, hafter _, trivial⟩
  whileLoop hσ hc hb hs := by
    have hagain := hσ "continue" (by decide)
    have hleave := hσ "break" (by decide)
    exact ⟨hagain _, within_jumpIf (hc hs.1) (hleave _), hb hs.2, hagain _, hleave _, trivial⟩
  doWhile hσ hb hc hs := by
    have htop := hσ "body" (by decide)
    exact ⟨htop _, hb hs.2, hσ "continue" (by decide) _, within_jumpIf (hc hs.1) (htop _),
      hσ "break" (by decide) _, trivial⟩
  on hσ ha hb hs := by
    have hhandler := hσ "event" (by decide)
    have hafter := hσ "end" (by decide)
    exact ⟨⟨hs.1, hhandler _, ha hs.2.1⟩, hafter _, hhandler _, hb hs.2.2, ⟨hs.1, hafter _⟩,
      hafter _, trivial⟩
  nilStmts _ _ := trivial
  consStmts h hs hitems := ⟨h hitems.1, hs hitems.2⟩

theorem keeps_stmt (hs : s.Within V) : Keeps V (fun r ↦ r.node.Within V) (stmt s) := by
  intro σ r σ' hσ hrun
  exact (((lawful_withinScheme V).from_stmt s σ).of_run hσ hrun).imp_right fun h ↦ h hs

end Lower

/-- Lowering adds nothing but labels of the routine to what a body is made of. -/
theorem Lowered.within {routine : Routine} {body : Stmt} {l : Lowered}
    (hlabels : V.Labels routine.name) (hbody : body.Within V)
    (hl : lower routine body = .ok l) : l.body.Within V := by
  refine Stmt.allWithin_iff.2 fun s hs ↦ ?_
  obtain ⟨r, σ, hr, hmem | rfl⟩ := Lowered.mem_statements hl hs
  · obtain ⟨-, hr⟩ := Lower.keeps_stmt hbody { scope := routine.name } r σ hlabels hr
    exact hr.of_mem_flatten hmem
  · trivial

/-! ### Extraction -/

/-- A flat statement that holds no statements and no effects of expressions, with everything that it
mentions in the vocabulary. -/
def Stmt.Settled (V : Vocabulary) : Stmt → Prop
  | .declare _ _ x => V.var x
  | .define _ _ x value | .assign _ x value => V.var x ∧ value.Within V
  | .label _ l | .goto _ l => V.label l
  | .gotoIf _ l condition _ => V.label l ∧ condition.Within V
  | .ret _ | .hint _ _ | .nop _ => True
  | .retValue _ value => value.Within V
  | .call _ callee arguments result =>
    callee.Within V ∧ Expr.AllWithin V arguments ∧ ∀ x ∈ result, V.var x
  | .gotoOn _ l _ arguments => V.events ∧ V.label l ∧ Expr.AllWithin V arguments
  | .rollback _ l => V.events ∧ V.label l
  | .block _ _ | .compound _ _ _ _ | .ifThen _ _ _ | .ifElse _ _ _ _ | .whileLoop _ _ _
  | .doWhile _ _ _ | .on _ _ _ _ | .expression _ _ => False

/-- All statements of the code are settled. -/
def Stmt.AllSettled (V : Vocabulary) (code : List Stmt) : Prop := ∀ s ∈ code, s.Settled V

@[simp] theorem Stmt.allSettled_nil : AllSettled V [] := by simp [AllSettled]

@[simp] theorem Stmt.allSettled_cons {rest : List Stmt} :
    AllSettled V (s :: rest) ↔ s.Settled V ∧ AllSettled V rest := forall_mem_cons

@[simp] theorem Stmt.allSettled_append {xs ys : List Stmt} :
    AllSettled V (xs ++ ys) ↔ AllSettled V xs ∧ AllSettled V ys :=
  forall_mem_append

namespace Extract

/-- The cell for a temporary that extraction makes up. -/
def slot (routine n : Nat) (type : Ty) : Slot :=
  ⟨.extracted routine n, s!"#tmp{n}", type, .temporary, {}⟩

/-- The temporaries and labels that the extractor makes up are in the vocabulary. -/
structure Supplies (V : Vocabulary) (ξ : Extractor) : Prop where
  stem : ξ.temporaries.stem = "#tmp"
  var (n : Nat) (type : Ty) : V.var (.slot (slot ξ.routine n type))
  label : V.Labels ξ.labels.scope

/-- The outcome of the computation is of a kind, as long as its supply is within the vocabulary. -/
def Keeps (V : Vocabulary) {α : Type} (P : α → Prop) (x : Extract α) : Prop :=
  ∀ ξ a ξ', Supplies V ξ → Yields x ξ a ξ' → Supplies V ξ' ∧ P a

variable {α β : Type} {P : α → Prop} {Q : β → Prop}

theorem Keeps.pure {a : α} (h : P a) : Keeps V P (pure a) := by
  intro ξ b ξ' hξ hyields
  cases hyields
  exact ⟨hξ, h⟩

theorem Keeps.bind {x : Extract α} {f : α → Extract β} (hx : Keeps V P x)
    (hf : ∀ a, P a → Keeps V Q (f a)) : Keeps V Q (x >>= f) := by
  intro ξ b ξ'' hξ hyields
  obtain ⟨a, ξ', hx', hf'⟩ := yields_bind.1 hyields
  obtain ⟨hξ', ha⟩ := hx ξ a ξ' hξ hx'
  exact hf a ha ξ' b ξ'' hξ' hf'

theorem Keeps.values {P : Expr → Split → Prop} {es : List Expr} {plans : List Plan}
    (h : Forall₂ (fun e p ↦ Keeps V (P e) p.value) es plans) :
    Keeps V (Forall₂ P es) (plans.mapM Plan.value) := by
  induction h with
  | nil => exact .pure .nil
  | cons hp _ ih =>
    rw [mapM_cons]
    exact hp.bind fun s hs ↦ ih.bind fun splits hsplits ↦ .pure (.cons hs hsplits)

theorem Keeps.throw {e : Fault} : Keeps V P (throw e) :=
  fun _ _ _ _ hyields ↦ absurd hyields not_yields_throw

theorem keeps_temporary (type : Ty) : Keeps V V.var (temporary type) := by
  intro ξ x ξ' hξ hyields
  cases hyields
  refine ⟨⟨hξ.stem, hξ.var, hξ.label⟩, ?_⟩
  have hx := hξ.var ξ.temporaries.next type
  rwa [slot, ← hξ.stem] at hx

theorem keeps_label {kind : String} (h : kind ∈ Label.kinds) : Keeps V V.label (label kind) := by
  intro ξ l ξ' hξ hyields
  cases hyields
  exact ⟨⟨hξ.stem, hξ.var, hξ.label⟩, hξ.label kind h _⟩

/-- What is resolved by name is a built-in function of that name. -/
theorem exists_of_resolve (h : Builtin.resolve name types span = .ok callee) :
    ∃ b ∈ Builtin.named name, ∃ t, callee = .builtin b t := by
  unfold Builtin.resolve at h
  split at h
  · cases h
  · next first rest hnamed =>
    dsimp only at h
    split at h
    · cases h
    · split at h
      · next b bound hfound =>
        cases h
        obtain ⟨b', hmem, hb'⟩ := exists_of_findSome?_eq_some hfound
        obtain ⟨_, -, hpair⟩ := Option.map_eq_some_iff.1 hb'
        cases hpair
        exact ⟨b, hnamed ▸ (mem_filter.1 hmem).1, _, rfl⟩
      · cases h

theorem within_resolve (h : Builtin.resolve name types span = .ok callee) : callee.Within V := by
  obtain ⟨b, -, t, rfl⟩ := exists_of_resolve h
  trivial

/-- What extraction makes of a body within a vocabulary stays within it. -/
def scheme (V : Vocabulary) : Scheme where
  fault _ := True
  supply := Supplies V
  source := Expr.Within V
  sourceStmt := Stmt.Within V
  target := V.var
  calls callee _ := callee.Within V
  value _ r := r.node.Within V
  values _ r := Expr.AllWithin V r.node
  array := Expr.Within V
  line := Settled V
  code _ code _ := AllSettled V code

/-- A choice between two nodes is within the vocabulary if both are. -/
theorem within_choose {kept derived : Expr} (hkept : kept.Within V) (hderived : derived.Within V) :
    (Revised.choose changed kept derived).node.Within V := by
  cases changed with
  | true => exact hderived
  | false => exact hkept

theorem lawful_scheme (V : Vocabulary) : (scheme V).Lawful where
  breach _ := trivial
  fresh {ξ} h type := by
    have hx := h.var ξ.temporaries.next type
    rw [slot, ← h.stem] at hx
    exact ⟨hx, h.stem, h.var, h.label⟩
  skipped h := ⟨h.stem, h.var, h.label⟩
  operand {e} h := by cases e <;> simp_all [scheme, Expr.Within, Expr.operands, Expr.allWithin_iff]
  operandStmt {s} h := by
    cases s <;> simp_all [scheme, Stmt.Within, Stmt.operands, Expr.allWithin_iff]
  body h := h
  item h := Stmt.allWithin_iff.1 h
  written {e} h := by cases e <;> simp_all [scheme, Expr.Within, Expr.written?]
  writtenStmt {s} h := by cases s <;> simp_all [scheme, Stmt.Within, Stmt.written?]
  callee h := h.1
  calleeStmt h := h.1
  straight h := h
  append h h' := allSettled_append.2 ⟨h, h'⟩
  skip {ξ _ _ _ _ _} _ _ hξ hx h h' := by
    have hlabel : V.label (ξ.labels.fresh "skip").1 := hξ.label "skip" (by decide) _
    exact allSettled_append.2 ⟨h, allSettled_cons.2 ⟨⟨hlabel, rfl, hx⟩,
      allSettled_append.2 ⟨h', allSettled_cons.2 ⟨hlabel, allSettled_nil⟩⟩⟩⟩
  plain h _ := h
  unary _ hr := within_choose hr hr
  convert _ hr := within_choose hr hr
  binary _ hr hr' := within_choose ⟨hr, hr'⟩ ⟨hr, hr'⟩
  make _ ha hb hc := within_choose ⟨ha, hb, hc⟩ ⟨ha, hb, hc⟩
  call h _ hr := within_choose ⟨h.1, hr⟩ ⟨h.1, hr⟩
  segment _ _ hr := within_choose hr hr
  reread _ hx _ _ := ⟨rfl, hx⟩
  left _ _ hx _ := ⟨rfl, hx⟩
  void _ _ _ _ := trivial
  nil := trivial
  cons hr hrs := ⟨hr, hrs⟩
  read _ hx := ⟨rfl, hx⟩
  range _ _ h := h
  element _ ha hset hr hv :=
    ⟨within_resolve hset, ⟨ha, trivial, Expr.allWithin_iff.1 hr _ hv, trivial⟩, by simp⟩
  assign _ hx _ hr := ⟨hx, hr⟩
  stepped _ _ hx := ⟨hx, ⟨rfl, hx⟩, trivial⟩
  lineCall _ h hr hresult _ := ⟨h, hr, hresult⟩
  stays {s} h hs := by cases s <;> first | exact h | exact hs.elim
  declare h := h.1
  define h _ _ hr := ⟨h.1, hr⟩
  gotoIf h hr := ⟨h.1, hr⟩
  retValue _ hr := hr

end Extract

section Body

variable {routine : Routine} {body : Stmt} {e : Extracted}

theorem extract_eq_ok (h : extract routine body = .ok e) :
    ∃ ξ, Yields (Extract.stmt body) (.ofRoutine routine) e.statements ξ := by
  unfold extract at h
  rcases hrun : (Extract.stmt body).run (.ofRoutine routine) with ⟨outcome, ξ⟩
  rw [hrun] at h
  cases outcome with
  | error fault => cases h
  | ok statements =>
    cases h
    exact ⟨ξ, hrun⟩

/-- Extraction adds nothing but temporaries and labels of the routine to what a body is made of, and
leaves no effects in expressions. -/
theorem Extracted.settled (hvar : ∀ n t, V.var (.slot (Extract.slot routine.id n t)))
    (hlabels : V.Labels routine.name) (hbody : body.Within V)
    (he : extract routine body = .ok e) : AllSettled V e.statements := by
  obtain ⟨ξ, hyields⟩ := extract_eq_ok he
  have hsupplies : Extract.Supplies V (.ofRoutine routine) := ⟨rfl, hvar, hlabels⟩
  have hsettled := Extract.Scheme.From.of_yields ((Extract.lawful_scheme V).from_stmt hbody)
    hsupplies hyields
  exact hsettled.2

end Body

theorem Stmt.Settled.flatten (h : s.Settled V) : s.flatten = [s] := by
  cases s
  case block => exact h.elim
  all_goals rfl

theorem Stmt.AllSettled.flattenAll {code : List Stmt} (h : AllSettled V code) :
    Stmt.flattenAll code = code :=
  Flat.flattenAll fun s hs ↦ (h s hs).flatten

/-! ### The routines that a body calls -/

section CallSites

variable {P : Routine → Prop}

/-- The vocabulary with other routines. -/
def Vocabulary.calling (V : Vocabulary) (P : Routine → Prop) : Vocabulary :=
  { V with routine := P }

theorem Callee.within_calling (h : ∀ r ∈ callee.routine?.toList, P r) :
    callee.Within (V.calling P) := by
  cases callee with
  | routine r => exact h r (by simp [Callee.routine?])
  | builtin b t => trivial

/-- A body calls the routines at its call sites and no others. -/
theorem Stmt.Within.calling (hs : s.Within V) (h : ∀ r ∈ s.visit callVisitor, P r) :
    s.Within (V.calling P) := by
  have hcalls : s.Each (fun e ↦ ∀ r ∈ callVisitor.expr e, P r)
      fun s ↦ ∀ r ∈ callVisitor.stmt s, P r := by
    refine s.each_iff.2 fun n hn ↦ ?_
    cases n with
    | inl e => exact fun r hr ↦ h r (Stmt.mem_visit_iff.2 ⟨_, hn, hr⟩)
    | inr t => exact fun r hr ↦ h r (Stmt.mem_visit_iff.2 ⟨_, hn, mem_append_left _ hr⟩)
  refine s.within_iff.2 ((s.within_iff.1 hs).map₂ (fun e he hcalls ↦ ?_) (fun t ht hcalls ↦ ?_) hcalls)
  · cases e
    case call => exact Callee.within_calling hcalls
    all_goals exact he
  · cases t
    case call => exact ⟨Callee.within_calling hcalls, ht.2⟩
    all_goals exact ht

end CallSites

end Wirescript
