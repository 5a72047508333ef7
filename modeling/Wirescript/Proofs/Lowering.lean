import Wirescript.Proofs.DeadCode
import Wirescript.Proofs.Folding
import Wirescript.Proofs.Labels

/-!
# The shape of lowered code

What lowering makes of a structured statement, as a relation between the statement and flat code:
`Lowers`. Simple statements become simple statements that do the same, and conditionals and loops
become the patterns of jumps that stand for them (`Lower.lowers_stmt`). What lowered code does is
proved from this relation.
-/

namespace Wirescript

open Stmt
open List hiding flatten

/-! ### Structured statements -/

mutual

/-- A statement that is built from blocks, conditionals and loops, without labels, jumps and events,
and whose expressions have derived notes. -/
def Stmt.Structured : Stmt → Prop
  | .block _ items => AllStructured items
  | .declare .. | .ret _ | .hint .. | .nop _ => True
  | .define _ _ _ value | .assign _ _ value | .compound _ _ _ value | .retValue _ value
  | .expression _ value => value.Derived
  | .call _ _ arguments _ => Expr.AllDerived arguments
  | .ifThen _ condition body | .whileLoop _ condition body | .doWhile _ body condition =>
    condition.Derived ∧ body.Structured
  | .ifElse _ condition body alternative =>
    condition.Derived ∧ body.Structured ∧ alternative.Structured
  | .on .. | .label .. | .goto .. | .gotoIf .. | .gotoOn .. | .rollback .. => False

@[inherit_doc Structured]
def Stmt.AllStructured : List Stmt → Prop
  | [] => True
  | s :: rest => s.Structured ∧ AllStructured rest

end

/-- A compound assignment as the assignment that it stands for; any other statement as it is. -/
def Stmt.plain : Stmt → Stmt
  | .compound s x op value => .assign s x (Build.combined x op value s)
  | .expression s e => .expression s e.plain
  | s => s

/-- A statement that neither contains statements nor is a label or a jump. -/
def Stmt.isSimple : Stmt → Bool
  | .declare .. | .define .. | .assign .. | .compound .. | .ret _ | .retValue .. | .call ..
  | .expression .. | .hint .. | .nop _ => true
  | _ => false

/-! ### What statements become -/

/-- The second statement does all that the first one does. -/
def Stmt.Simulates (s s' : Stmt) : Prop :=
  ∀ {κ : Type} [DecidableEq κ] {key : Slot → κ} {calls : Routine → Memory κ → Memory κ → Prop}
    {routine : Routine} {m m' : Memory κ} {c : Control},
    s.Step key calls routine m c m' → s'.Step key calls routine m c m'

/-- The statement jumps to the label if the condition equals `sense`, and goes on otherwise. -/
def Stmt.Tests (condition : Expr) (target : Label) (sense : Bool) (s : Stmt) : Prop :=
  s.label? = none ∧
    ∀ {κ : Type} [DecidableEq κ] {key : Slot → κ} {calls : Routine → Memory κ → Memory κ → Prop}
      {routine : Routine} {m : Memory κ} {b : Bool}, condition.eval key m = .ok (.bool b) →
      s.Step key calls routine m (if b = sense then .jump target else .next) m

/-- Flat code that stands for a statement, and the supply of labels before and after it was made. -/
inductive Lowers : Stmt → LabelSupply → List Stmt → LabelSupply → Prop
  | simple {s s' : Stmt} {σ : LabelSupply} (hs : s.isSimple = true) (hlabel : s'.label? = none)
      (hstep : s.plain.Simulates s') : Lowers s σ [s'] σ
  | blockNil {span : Span} {σ : LabelSupply} : Lowers (.block span []) σ [] σ
  | blockCons {span : Span} {s : Stmt} {rest code code' : List Stmt} {σ σ₁ σ₂ : LabelSupply}
      (hfirst : Lowers s σ code σ₁) (hrest : Lowers (.block span rest) σ₁ code' σ₂) :
      Lowers (.block span (s :: rest)) σ (code ++ code') σ₂
  | ifThen {span s₁ s₂ s₃ : Span} {condition : Expr} {body test : Stmt} {code : List Stmt}
      {σ σ₁ : LabelSupply} (hbody : Lowers body σ code σ₁)
      (htest : Tests condition (σ₁.fresh "end").1 false test) :
      Lowers (.ifThen span condition body) σ
        (test :: .hint s₁ .enterBlock :: (code ++ [.hint s₂ .exitBlock,
          .label s₃ (σ₁.fresh "end").1]))
        (σ₁.fresh "end").2
  | ifElse {span s₁ s₂ s₃ s₄ s₅ s₆ s₇ : Span} {condition : Expr} {body alternative test : Stmt}
      {code code' : List Stmt} {σ σ₁ σ₂ : LabelSupply} (hbody : Lowers body σ code σ₁)
      (halternative : Lowers alternative σ₁ code' σ₂)
      (htest : Tests condition ((σ₂.fresh "end").2.fresh "else").1 false test) :
      Lowers (.ifElse span condition body alternative) σ
        (test :: .hint s₁ .enterBlock :: (code ++ (.hint s₂ .exitBlock ::
          .goto s₃ (σ₂.fresh "end").1 :: .label s₄ ((σ₂.fresh "end").2.fresh "else").1 ::
          .hint s₅ .enterBlock :: (code' ++ [.hint s₆ .exitBlock,
            .label s₇ (σ₂.fresh "end").1]))))
        ((σ₂.fresh "end").2.fresh "else").2
  | whileLoop {span s₁ s₂ s₃ : Span} {condition : Expr} {body test : Stmt} {code : List Stmt}
      {σ σ₁ : LabelSupply} (hbody : Lowers body σ code σ₁)
      (htest : Tests condition ((σ₁.fresh "continue").2.fresh "break").1 false test) :
      Lowers (.whileLoop span condition body) σ
        (.label s₁ (σ₁.fresh "continue").1 :: test :: (code ++
          [.goto s₂ (σ₁.fresh "continue").1,
           .label s₃ ((σ₁.fresh "continue").2.fresh "break").1]))
        ((σ₁.fresh "continue").2.fresh "break").2
  | doWhile {span s₁ s₂ s₃ : Span} {condition : Expr} {body test : Stmt} {code : List Stmt}
      {σ σ₁ : LabelSupply} (hbody : Lowers body σ code σ₁)
      (htest : Tests condition (σ₁.fresh "body").1 true test) :
      Lowers (.doWhile span body condition) σ
        (.label s₁ (σ₁.fresh "body").1 :: (code ++
          [.label s₂ ((σ₁.fresh "body").2.fresh "continue").1, test,
           .label s₃ (((σ₁.fresh "body").2.fresh "continue").2.fresh "break").1]))
        (((σ₁.fresh "body").2.fresh "continue").2.fresh "break").2

/-! ### Labels of lowered code -/

theorem Lowers.fresh {s : Stmt} {σ σ' : LabelSupply} {code : List Stmt} (h : Lowers s σ code σ') :
    σ.Fresh (labels code) σ' := by
  induction h with
  | simple _ hlabel _ =>
    rw [labels_cons_of_none hlabel]
    exact .nil _
  | blockNil => exact .nil _
  | blockCons _ _ ih ih' =>
    rw [labels_append]
    exact ih.append ih'
  | ifThen _ htest ih =>
    have hend := ih.append (.single _ "end" (by decide))
    simpa [labels_cons_of_none htest.1] using hend
  | ifElse _ _ htest ih ih' =>
    have hend := (ih.append ih').append (.single _ "end" (by decide))
    have helse := hend.append (.single _ "else" (by decide))
    refine helse.perm ?_
    simp only [labels_cons_of_none htest.1, labels_hint, labels_append,
      labels_goto, labels_label, append_assoc]
    refine (perm_append_left_iff _).2 ?_
    rw [← append_assoc]
    exact (perm_append_singleton _ _).symm
  | whileLoop _ htest ih =>
    have hcontinue := ih.append (.single _ "continue" (by decide))
    have hbreak := hcontinue.append (.single _ "break" (by decide))
    refine hbreak.perm ?_
    simp only [labels_cons_of_none htest.1, labels_append, labels_label,
      append_assoc]
    exact perm_middle.symm
  | doWhile _ htest ih =>
    have hbody := ih.append (.single _ "body" (by decide))
    have hcontinue := hbody.append (.single _ "continue" (by decide))
    have hbreak := hcontinue.append (.single _ "break" (by decide))
    refine hbreak.perm ?_
    simp only [labels_cons_of_none htest.1, labels_append, labels_label,
      append_assoc]
    exact perm_middle.symm

/-! ### What the pass does -/

namespace Lower

/-- A jump on a lowered condition tests the condition. -/
theorem tests_jumpIf {condition condition' : Expr} (h : Folds condition condition')
    (target : Label) (sense : Bool) (span : Span) :
    Tests condition target sense (jumpIf condition' target sense span) := by
  unfold jumpIf
  split
  · next value hvalue =>
    obtain ⟨v, hv, hbool⟩ := Option.bind_eq_some_iff.1 hvalue
    refine ⟨by split <;> rfl, fun {_ _ _ _ _ _ b} hb ↦ ?_⟩
    obtain rfl := Expr.eq_of_constant (h.eval hb) hv
    obtain rfl : b = value := Option.some.inj hbool
    split_ifs
    · exact ⟨rfl, rfl⟩
    · exact ⟨rfl, rfl⟩
  · refine ⟨rfl, fun {_ _ _ _ _ _ b} hb ↦ ⟨.bool b, h.eval hb, ?_, rfl⟩⟩
    simp [Value.bool?]

/-- A jump is no block. -/
theorem flatten_jumpIf (condition : Expr) (target : Label) (sense : Bool) (span : Span) :
    (jumpIf condition target sense span).flatten = [jumpIf condition target sense span] :=
  jumpIf_cases (P := fun s ↦ s.flatten = [s]) rfl rfl rfl

/-- Expressions without statements keep their values and need no labels, and structured statements
become flat code that stands for them. -/
def shapeScheme : Scheme where
  expr e σ r σ' := e.Derived → σ' = σ ∧ Replaces e r
  exprs es σ r σ' := Expr.AllDerived es →
    σ' = σ ∧ Forall₂ Folds es r.node ∧ (r.changed = false → r.node = es)
  stmt s σ r σ' := s.Structured → Lowers s σ r.node.flatten σ'
  stmts items σ r σ' := AllStructured items →
    ∀ span, Lowers (.block span items) σ (flattenAll r.node) σ'

theorem lawful_shapeScheme : shapeScheme.Lawful where
  atom {e} h σ he := by
    refine ⟨rfl, ⟨.refl he, fun _ ↦ rfl⟩, ?_⟩
    cases e <;> first | exact id | cases h
  unary h he := by
    obtain ⟨rfl, ho⟩ := h he.2
    refine ⟨rfl, (revises_settle he rfl (fun hc ↦ ?_) (.unary he.1 ho.folds)).replaces rfl⟩
    rw [ho.same hc]
  binary hleft hright he := by
    obtain ⟨rfl, hl⟩ := hleft he.2.1
    obtain ⟨rfl, hr⟩ := hright he.2.2
    refine ⟨rfl, (revises_settle he rfl (fun hc ↦ ?_)
      (.binary he.1 hl.folds hr.folds)).replaces rfl⟩
    obtain ⟨hlc, hrc⟩ := Bool.or_eq_false_iff.1 hc
    rw [hl.same hlc, hr.same hrc]
  make hfirst hsecond hthird he := by
    obtain ⟨rfl, hx⟩ := hfirst he.2.1
    obtain ⟨rfl, hy⟩ := hsecond he.2.2.1
    obtain ⟨rfl, hz⟩ := hthird he.2.2.2
    refine ⟨rfl, (revises_settle he rfl (fun hc ↦ ?_)
      (.make he.1 hx.folds hy.folds hz.folds)).replaces rfl⟩
    obtain ⟨hxyc, hzc⟩ := Bool.or_eq_false_iff.1 hc
    obtain ⟨hxc, hyc⟩ := Bool.or_eq_false_iff.1 hxyc
    rw [hx.same hxc, hy.same hyc, hz.same hzc]
  call h hr he := by
    obtain ⟨rfl, hfolds, hsame⟩ := h he.2
    exact ⟨rfl, revises_foldCall he.1 hfolds hsame hr, affects_foldCall hfolds hr⟩
  convert h he := by
    obtain ⟨rfl, ho⟩ := h he.2
    refine ⟨rfl, (revises_settle he rfl (fun hc ↦ ?_) (.convert he.1 ho.folds)).replaces rfl⟩
    rw [ho.same hc]
  segment {n _ _ _ _} h he := by
    obtain ⟨rfl, hitems, hsame⟩ := h he.2
    refine ⟨rfl, Revises.replaces ⟨?_, fun hc ↦ congrArg (Expr.segment n) (hsame hc)⟩ rfl⟩
    exact .of_valueless ⟨he.1, Folds.allDerived hitems⟩ rfl id he.1 (Expr.not_eval_segment he.1)
  assign {n x _ _ _ _} h he := by
    obtain ⟨rfl, hv⟩ := h he.2
    refine ⟨rfl, ⟨?_, fun hc ↦ congrArg (Expr.assign n x) (hv.same hc)⟩, (Assigns.fold · hv.folds)⟩
    exact .of_valueless ⟨he.1, hv.folds.derived⟩ rfl id he.1 (Expr.not_eval_assign he.1)
  compound h he := by
    obtain ⟨rfl, hv⟩ := h he.2
    refine ⟨rfl, ⟨?_, Bool.noConfusion⟩, (Assigns.fold · hv.folds.combined)⟩
    exact .of_valueless ⟨rfl, rfl, rfl, hv.folds.derived⟩ rfl Bool.noConfusion he.1
      (Expr.not_eval_compound he.1)
  statement _ he := he.elim
  nil σ _ := ⟨rfl, .nil, fun _ ↦ rfl⟩
  cons h hs hes := by
    obtain ⟨rfl, he⟩ := h hes.1
    obtain ⟨rfl, hrest, hsame⟩ := hs hes.2
    refine ⟨rfl, .cons he.folds hrest, fun hc ↦ ?_⟩
    obtain ⟨hec, hrestc⟩ := Bool.or_eq_false_iff.1 hc
    exact congrArg₂ List.cons (he.same hec) (hsame hrestc)
  atomStmt {s} h σ hs := by cases s <;> first | exact .simple rfl rfl id | exact hs.elim | cases h
  block h hs := h hs _
  define h hs := by
    obtain ⟨rfl, hv⟩ := h hs
    exact .simple rfl rfl fun ⟨hc, ha⟩ ↦ ⟨hc, ha.fold hv.folds⟩
  store h hs := by
    obtain ⟨rfl, hv⟩ := h hs
    exact .simple rfl rfl fun ⟨hc, ha⟩ ↦ ⟨hc, ha.fold hv.folds⟩
  combine h hs := by
    obtain ⟨rfl, hv⟩ := h hs
    exact .simple rfl rfl fun ⟨hc, ha⟩ ↦ ⟨hc, ha.fold hv.folds.combined⟩
  retValue h hs := by
    obtain ⟨rfl, hv⟩ := h hs
    refine .simple rfl rfl fun {_ _ _ _ routine _ _ _} ⟨hc, ha⟩ ↦ ⟨hc, ?_⟩
    revert ha
    cases routine.returnSlot with
    | none => exact id
    | some slot => exact fun ha ↦ ha.fold hv.folds
  expression h hs := by
    obtain ⟨rfl, hv⟩ := h hs
    exact .simple rfl rfl fun ⟨hc, ha⟩ ↦ ⟨hc, hv.affects ha⟩
  invoke h hs := by
    obtain ⟨rfl, hfolds, -⟩ := h hs
    exact .simple rfl rfl fun ⟨hc, ha⟩ ↦ ⟨hc, ha.fold hfolds⟩
  gotoIf _ hs := hs.elim
  gotoOn _ hs := hs.elim
  ifThen {span _ _ _ _ _ _ _} _ hcondition hb hs := by
    obtain ⟨rfl, hc⟩ := hcondition hs.1
    simp only [Revised.new, flatten, flattenAll, flatten_jumpIf, cons_append]
    exact .ifThen (hb hs.2) (tests_jumpIf hc.folds _ false span)
  ifElse {span _ _ _ _ _ _ _ _ _ _} _ hcondition hb ha hs := by
    obtain ⟨rfl, hc⟩ := hcondition hs.1
    simp only [Revised.new, grouped, flatten, flattenAll, flatten_jumpIf,
      cons_append]
    exact .ifElse (hb hs.2.1) (ha hs.2.2) (tests_jumpIf hc.folds _ false span)
  whileLoop {span _ _ _ _ _ _ _} _ hcondition hb hs := by
    obtain ⟨rfl, hc⟩ := hcondition hs.1
    simp only [Revised.new, flatten, flattenAll, flatten_jumpIf]
    exact .whileLoop (hb hs.2) (tests_jumpIf hc.folds _ false span)
  doWhile {span _ _ _ _ _ _ _} _ hb hcondition hs := by
    obtain ⟨rfl, hc⟩ := hcondition hs.1
    simp only [Revised.new, flatten, flattenAll, flatten_jumpIf]
    exact .doWhile (hb hs.2) (tests_jumpIf hc.folds _ true span)
  on _ _ _ hs := hs.elim
  nilStmts σ _ _ := .blockNil
  consStmts h hs hitems span := .blockCons (h hitems.1) (hs hitems.2 span)

/-- Lowering a structured statement gives flat code that stands for it. -/
theorem lowers_stmt {s : Stmt} (hs : s.Structured) {σ σ' : LabelSupply} {r : Revised Stmt}
    (h : (stmt s).run σ = .ok (r, σ')) : Lowers s σ r.node.flatten σ' :=
  ((lawful_shapeScheme.from_stmt s σ).of_run trivial h).2 hs

end Lower

/-! ### The lowered body -/

section Body

variable {routine : Routine} {span : Span} {body : Stmt} {l : Lowered}

theorem closeFlat_eq_ok {code code' : List Stmt} (h : closeFlat routine span code = .ok code') :
    code' = code ∨ code' = code ++ [.ret span] := by
  simp only [closeFlat] at h
  split at h
  · obtain ⟨f, -, h⟩ := bind_eq_ok.1 h
    split at h
    · exact Or.inr (Except.ok.inj h).symm
    · exact Or.inl (Except.ok.inj h).symm
  · exact Or.inl (Except.ok.inj h).symm

variable (h : lower routine body = .ok l)

include h

theorem lower_eq_ok : ∃ r σ code, (Lower.stmt body).run { scope := routine.name } = .ok (r, σ) ∧
      closeFlat routine body.span r.node.flatten = .ok code ∧
      dropUnreachable code = .ok l.statements := by
  obtain ⟨⟨r, σ⟩, hr, h⟩ := bind_eq_ok.1 h
  obtain ⟨code, hcode, h⟩ := bind_eq_ok.1 h
  obtain ⟨live, hlive, h⟩ := bind_eq_ok.1 h
  cases h
  exact ⟨r, σ, code, hr, hcode, hlive⟩

/-- A statement of the lowered body comes from the body, or is the return at its end. -/
theorem Lowered.mem_statements {s : Stmt} (hs : s ∈ l.statements) :
    ∃ r σ, (Lower.stmt body).run { scope := routine.name } = .ok (r, σ) ∧
      (s ∈ r.node.flatten ∨ s = .ret body.span) := by
  obtain ⟨r, σ, code, hr, hcode, hlive⟩ := lower_eq_ok h
  have hmem := mem_of_mem_dropUnreachable hlive hs
  refine ⟨r, σ, hr, ?_⟩
  rcases closeFlat_eq_ok hcode with rfl | rfl
  · exact .inl hmem
  · simpa using hmem

/-- The flat code of a lowered body is its statements. -/
theorem Lowered.flatten_body : l.body.flatten = l.statements := by
  refine Flat.flattenAll fun s hs ↦ ?_
  obtain ⟨r, σ, -, hmem | rfl⟩ := Lowered.mem_statements h hs
  · exact flatten_of_mem_flatten hmem
  · rfl

end Body

end Wirescript
