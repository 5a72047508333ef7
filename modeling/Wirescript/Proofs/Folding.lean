import Wirescript.Proofs.Cells
import Wirescript.Proofs.Execution
import Wirescript.Proofs.Rewriting

/-!
# Folding keeps values

A note that is derived from the parts of its expression tells the truth: where the expression has a
value, it is the one that the note names. So an expression may be replaced by what its parts fold to.
`Folds e e'` says that `e'` can stand for `e`: it has every value that `e` has, in every memory.

The converse fails on purpose. Folding may give a value to an expression that had none, because a
constant left operand decides a short-circuit operator whose right operand cannot be evaluated.
-/

namespace Wirescript

open Wirescript.Expr
open Option

variable {op : BinaryOp} {callee : Callee} {e e' left operand operand' right value : Expr}
  {es es' rest : List Expr} {values : List Value} {parameters : List Variable} {n : Note}
  {arguments : Revised (List Expr)} {r : Revised Expr} {span : Span} {type : Ty} {κ : Type}
  {a c : Value} {x : Variable}

/-! ### Derived notes -/

mutual

/-- Each note names the value that the functions of `Build` give it, and there is no statement
inside. -/
def Expr.Derived : Expr → Prop
  | .literal n value => n.constant = (Build.literal value n.span).constant
  | .read n x => n.constant = (Build.read x n.span).constant
  | .unary n op operand => n.constant = (Build.unary op operand n.span).constant ∧ operand.Derived
  | .binary n op left right =>
    n.constant = (Build.binary op left right n.span).constant ∧ left.Derived ∧ right.Derived
  | .make n x y z =>
    n.constant = (Build.make n.type x y z n.span).constant ∧ x.Derived ∧ y.Derived ∧ z.Derived
  | .call n callee arguments =>
    n.constant = (Build.call callee arguments n.span).constant ∧ AllDerived arguments
  | .convert n operand =>
    n.constant = (Build.convert operand n.type n.span).constant ∧ operand.Derived
  | .step n x yieldsNew down => n.constant = (Build.step x yieldsNew down n.span).constant
  | .segment n items => n.constant = none ∧ AllDerived items
  | .assign n x value => n.constant = (Build.assign x value n.span).constant ∧ value.Derived
  | .compound n x op value =>
    n.constant = (Build.compound x op value n.span).constant ∧ value.Derived
  | .error n => n.constant = (Build.error n.span).constant
  | .statement _ _ => False

@[inherit_doc Derived]
def Expr.AllDerived : List Expr → Prop
  | [] => True
  | e :: rest => e.Derived ∧ AllDerived rest

end

/-! ### Values of expressions -/

section

variable [DecidableEq κ] {key : Slot → κ} {m : Memory κ} {v b : Value}

/-- The value that a note names is the value, whatever the parts are. -/
theorem Expr.eval_of_constant (h : e.constant = some v) : e.eval key m = .ok v := by
  rw [eval.eq_def, h]

/-- An operation that is not defined on its operands has no value. -/
theorem Expr.valued_eq_ok {o : Option Value} : e.valued o = .ok v ↔ o = some v := by
  cases o <;> simp [valued]

section

variable (h : n.constant = none)

include h

/-- Where the note names no value, it is computed from the values of the parts. -/
theorem Expr.eval_unary {op : UnaryOp} : (Expr.unary n op operand).eval key m = .ok v ↔
      ∃ a, operand.eval key m = .ok a ∧ op.compute? a = some v := by
  rw [eval.eq_def]
  simp only [constant, note, h, bind_eq_ok, valued_eq_ok]

@[inherit_doc Expr.eval_unary]
theorem Expr.eval_binary : (Expr.binary n op left right).eval key m = .ok v ↔
      ∃ a b, left.eval key m = .ok a ∧ right.eval key m = .ok b ∧ op.compute? a b = some v := by
  rw [eval.eq_def]
  simp [constant, note, h, bind_eq_ok, valued_eq_ok]

@[inherit_doc Expr.eval_unary]
theorem Expr.eval_make {x y z : Expr} : (Expr.make n x y z).eval key m = .ok v ↔
      ∃ a b c, x.eval key m = .ok a ∧ y.eval key m = .ok b ∧ z.eval key m = .ok c ∧
        Value.ofComponents n.type ⟨a.float?.getD 0, b.float?.getD 0, c.float?.getD 0⟩ = v := by
  rw [eval.eq_def]
  simp [constant, note, h, bind_eq_ok, pure, Except.pure]

@[inherit_doc Expr.eval_unary]
theorem Expr.eval_convert : (Expr.convert n operand).eval key m = .ok v ↔
      ∃ a, operand.eval key m = .ok a ∧ a.converted n.type = v := by
  rw [eval.eq_def]
  simp [constant, note, h, bind_eq_ok, pure, Except.pure]

/-- A call has a value only if a built-in function is called that can be evaluated. -/
theorem Expr.eval_call {arguments : List Expr} : (Expr.call n callee arguments).eval key m = .ok v ↔
      ∃ evaluator values, callee.builtin?.bind Builtin.evaluator = some evaluator ∧
        evalAll key m arguments = .ok values ∧ evaluator.compute? values = some v := by
  rw [eval.eq_def]
  simp only [constant, note, h]
  rcases callee.builtin?.bind Builtin.evaluator with - | evaluator
  · simp
  · simp only [bind_eq_ok, valued_eq_ok, Option.some.injEq]
    constructor
    · rintro ⟨values, hvalues, hv⟩
      exact ⟨evaluator, values, rfl, hvalues, hv⟩
    · rintro ⟨_, values, rfl, hvalues, hv⟩
      exact ⟨values, hvalues, hv⟩

/-- A variable has the value that the memory holds. -/
theorem Expr.eval_read : (Expr.read n x).eval key m = .ok (m.load key x) := by
  rw [eval.eq_def]
  simp only [constant, note, h]

/-- An expression that does something has no value here. -/
theorem Expr.not_eval_segment {items : List Expr} :
    ¬ (Expr.segment n items).eval key m = .ok v := by
  rw [eval.eq_def]
  simp only [constant, note, h]
  simp

@[inherit_doc Expr.not_eval_segment]
theorem Expr.not_eval_assign : ¬ (Expr.assign n x value).eval key m = .ok v := by
  rw [eval.eq_def]
  simp only [constant, note, h]
  simp

@[inherit_doc Expr.not_eval_segment]
theorem Expr.not_eval_compound : ¬ (Expr.compound n x op value).eval key m = .ok v := by
  rw [eval.eq_def]
  simp only [constant, note, h]
  simp

end

theorem Expr.evalAll_cons : evalAll key m (e :: rest) = .ok values ↔
      ∃ a as, e.eval key m = .ok a ∧ evalAll key m rest = .ok as ∧ a :: as = values := by
  rw [evalAll]
  simp [bind_eq_ok, pure, Except.pure]

theorem Expr.evalAll_cons_cons : evalAll key m (e :: rest) = .ok (v :: values) ↔
      e.eval key m = .ok v ∧ evalAll key m rest = .ok values := by
  rw [evalAll_cons]
  constructor
  · rintro ⟨a, as, ha, has, hcons⟩
    cases hcons
    exact ⟨ha, has⟩
  · rintro ⟨hv, hvalues⟩
    exact ⟨v, values, hv, hvalues, rfl⟩

/-- A literal has its value. -/
theorem Expr.eval_literal {value : Value} : (Build.literal value span).eval key m = .ok value :=
  eval_of_constant rfl

/-! ### Operations on known operands -/

/-- Where the left operand decides, it does so for every right operand. -/
theorem BinaryOp.compute?_of_decidedBy {l : Bool} (h : op.decidedBy l = true) (r : Value) :
    op.compute? (.bool l) r = some (.bool l) := by
  cases op <;> cases l <;> cases r <;> first | rfl | cases h

/-- What is known about an operation stays known when more is known about its operands. -/
theorem Build.binaryConstant_mono {l l' r r' : Option Value} (hl : ∀ a, l = some a → l' = some a)
    (hr : ∀ a, r = some a → r' = some a) (h : Build.binaryConstant op l r = some v) :
    Build.binaryConstant op l' r' = some v := by
  rcases l with - | a
  · cases h
  rcases r with - | b
  · obtain ⟨b, rfl⟩ : ∃ b, a = .bool b := by cases a <;> first | exact ⟨_, rfl⟩ | cases h
    obtain ⟨hb, rfl⟩ : op.decidedBy b = true ∧ Value.bool b = v := by
      simpa [Build.binaryConstant] using h
    rw [hl _ rfl]
    rcases r' with - | c
    · simp [Build.binaryConstant, hb]
    · exact BinaryOp.compute?_of_decidedBy hb c
  · rw [hl a rfl, hr b rfl]
    exact h

/-- What is known about an operation is its value, if what is known about its operands is. -/
theorem Build.binaryConstant_sound {l r : Option Value} (hl : ∀ x, l = some x → x = a)
    (hr : ∀ x, r = some x → x = b) (hv : op.compute? a b = some v)
    (h : Build.binaryConstant op l r = some c) : c = v := by
  have h' : Build.binaryConstant op (some a) (some b) = some c :=
    Build.binaryConstant_mono (fun x hx ↦ by rw [hl x hx]) (fun x hx ↦ by rw [hr x hx]) h
  exact Option.some.inj (h'.symm.trans hv)

/-- No expression has another value than its note names. -/
theorem Expr.eq_of_constant (h : e.eval key m = .ok v) (hc : e.constant = some c) : c = v :=
  Except.ok.inj ((eval_of_constant hc).symm.trans h)

/-! ### Expressions with derived notes -/

/-- A derived note names no other value than the parts give. -/
theorem Expr.eval_unary_of_derived {op : UnaryOp}
    (hn : n.constant = (Build.unary op operand n.span).constant) (ha : operand.eval key m = .ok a)
    (hv : op.compute? a = some v) : (Expr.unary n op operand).eval key m = .ok v := by
  rcases hc : n.constant with - | c
  · exact (eval_unary hc).2 ⟨a, ha, hv⟩
  · obtain ⟨x, hx, hcx⟩ := bind_eq_some_iff.1 (hn.symm.trans hc)
    obtain rfl := eq_of_constant ha hx
    cases hcx.symm.trans hv
    exact eval_of_constant hc

@[inherit_doc Expr.eval_unary_of_derived]
theorem Expr.eval_binary_of_derived (hn : n.constant = (Build.binary op left right n.span).constant)
    (ha : left.eval key m = .ok a) (hb : right.eval key m = .ok b) (hv : op.compute? a b = some v) :
    (Expr.binary n op left right).eval key m = .ok v := by
  rcases hc : n.constant with - | c
  · exact (eval_binary hc).2 ⟨a, b, ha, hb, hv⟩
  · obtain rfl := Build.binaryConstant_sound (fun _ ↦ eq_of_constant ha)
      (fun _ ↦ eq_of_constant hb) hv (hn.symm.trans hc)
    exact eval_of_constant hc

theorem Value.type_ofComponents {t : Ty} (h : t.isVectorLike = true) (v : Vec3) :
    (Value.ofComponents t v).type = t := by
  cases t <;> first | rfl | cases h

theorem Value.eq_float_of_type (h : v.type = .float) : ∃ f, v = .float f := by
  cases v <;> first | exact ⟨_, rfl⟩ | cases h

/-- A vector is known if its components are known numbers. -/
theorem Build.makeConstant_eq_some {x y z : Option Value}
    (h : Build.makeConstant type x y z = some v) :
    ∃ a b c, x = some (.float a) ∧ y = some (.float b) ∧ z = some (.float c) ∧
      Value.ofComponents type ⟨a, b, c⟩ = v := by
  unfold Build.makeConstant at h
  split at h
  · exact ⟨_, _, _, rfl, rfl, rfl, Option.some.inj h⟩
  · cases h

@[inherit_doc Expr.eval_unary_of_derived]
theorem Expr.eval_make_of_derived {x y z : Expr}
    (hn : n.constant = (Build.make n.type x y z n.span).constant) (ha : x.eval key m = .ok a)
    (hb : y.eval key m = .ok b) (hc : z.eval key m = .ok c) : (Expr.make n x y z).eval key m =
      .ok (.ofComponents n.type ⟨a.float?.getD 0, b.float?.getD 0, c.float?.getD 0⟩) := by
  rcases hk : n.constant with - | k
  · exact (eval_make hk).2 ⟨a, b, c, ha, hb, hc, rfl⟩
  · obtain ⟨f, g, h, hx, hy, hz, rfl⟩ := Build.makeConstant_eq_some (hn.symm.trans hk)
    obtain rfl := eq_of_constant ha hx
    obtain rfl := eq_of_constant hb hy
    obtain rfl := eq_of_constant hc hz
    exact eval_of_constant hk

/-- A conversion that is known is the conversion. -/
theorem Build.convertConstant_eq_some (h : Build.convertConstant type a = some v) :
    a.converted type = v := by
  cases a <;> simp only [Build.convertConstant, Value.converted] at h ⊢ <;> split_ifs at h ⊢ <;>
    simp_all

@[inherit_doc Expr.eval_unary_of_derived]
theorem Expr.eval_convert_of_derived
    (hn : n.constant = (Build.convert operand n.type n.span).constant)
    (ha : operand.eval key m = .ok a) :
    (Expr.convert n operand).eval key m = .ok (a.converted n.type) := by
  rcases hc : n.constant with - | c
  · exact (eval_convert hc).2 ⟨a, ha, rfl⟩
  · obtain ⟨x, hx, hcx⟩ := bind_eq_some_iff.1 (hn.symm.trans hc)
    obtain rfl := eq_of_constant ha hx
    rw [Build.convertConstant_eq_some hcx]
    exact eval_of_constant hc

end

/-! ### Folding an expression -/

/-- An expression that does nothing but have a value, if it stands as a statement. -/
def Expr.isInert : Expr → Bool
  | .step .. | .assign .. | .compound .. | .call .. => false
  | _ => true

/-- The second expression can stand for the first one. -/
structure Folds (e e' : Expr) : Prop where
  derived : e'.Derived
  read? : e'.read? = e.read?
  inert (h : e.isInert = true) : e'.isInert = true
  constant {v : Value} (h : e.constant = some v) : e'.constant = some v
  eval {κ : Type} [DecidableEq κ] {key : Slot → κ} {m : Memory κ} {v : Value}
    (h : e.eval key m = .ok v) : e'.eval key m = .ok v

namespace Folds

theorem refl (h : e.Derived) : Folds e e := ⟨h, rfl, id, id, id⟩

/-- A known value can stand for an expression that is no variable. -/
theorem literal {value : Value} (hread : e.read? = none)
    (hconstant : ∀ v, e.constant = some v → v = value)
    (heval : ∀ {κ : Type} [DecidableEq κ] {key : Slot → κ} {m : Memory κ} {v : Value},
      e.eval key m = .ok v → v = value) : Folds e (Build.literal value span) where
  derived := rfl
  read? := hread.symm
  inert _ := rfl
  constant h := by
    rw [hconstant _ h]
    rfl
  eval h := by
    rw [heval h]
    exact eval_literal

/-- It is enough to look at values that the note does not name. -/
theorem of_unknown (hderived : e'.Derived) (hread : e'.read? = e.read?)
    (hinert : e.isInert = true → e'.isInert = true)
    (hconstant : ∀ v, e.constant = some v → e'.constant = some v)
    (heval : ∀ {κ : Type} [DecidableEq κ] {key : Slot → κ} {m : Memory κ} {v : Value},
      e.constant = none → e.eval key m = .ok v → e'.eval key m = .ok v) : Folds e e' where
  derived := hderived
  read? := hread
  inert := hinert
  constant h := hconstant _ h
  eval {κ _ key m v} h := by
    rcases hc : e.constant with - | c
    · exact heval hc h
    · obtain rfl := eq_of_constant h hc
      exact eval_of_constant (hconstant c hc)

/-- If the parts can stand for others, so can the expression with the note derived anew. -/
theorem unary {op : UnaryOp} (hn : n.constant = (Build.unary op operand n.span).constant)
    (h : Folds operand operand') :
    Folds (.unary n op operand) (Build.unary op operand' n.span) := by
  refine of_unknown ⟨rfl, h.derived⟩ rfl (fun _ ↦ rfl) (fun v hv ↦ ?_) fun hc hv ↦ ?_
  · obtain ⟨x, hx, hcx⟩ := bind_eq_some_iff.1 (hn.symm.trans hv)
    exact bind_eq_some_iff.2 ⟨x, h.constant hx, hcx⟩
  · obtain ⟨a, ha, hv⟩ := (eval_unary hc).1 hv
    exact eval_unary_of_derived rfl (h.eval ha) hv

@[inherit_doc Folds.unary]
theorem binary {left' right' : Expr}
    (hn : n.constant = (Build.binary op left right n.span).constant) (hl : Folds left left')
    (hr : Folds right right') :
    Folds (.binary n op left right) (Build.binary op left' right' n.span) := by
  refine of_unknown ⟨rfl, hl.derived, hr.derived⟩ rfl (fun _ ↦ rfl) (fun v hv ↦ ?_) fun hc hv ↦ ?_
  · exact Build.binaryConstant_mono (fun _ ↦ hl.constant) (fun _ ↦ hr.constant) (hn.symm.trans hv)
  · obtain ⟨a, b, ha, hb, hv⟩ := (eval_binary hc).1 hv
    exact eval_binary_of_derived rfl (hl.eval ha) (hr.eval hb) hv

@[inherit_doc Folds.unary]
theorem make {x y z x' y' z' : Expr}
    (hn : n.constant = (Build.make n.type x y z n.span).constant) (hx : Folds x x')
    (hy : Folds y y') (hz : Folds z z') :
    Folds (.make n x y z) (Build.make n.type x' y' z' n.span) := by
  refine of_unknown ⟨rfl, hx.derived, hy.derived, hz.derived⟩ rfl (fun _ ↦ rfl) (fun v hv ↦ ?_)
    fun hc hv ↦ ?_
  · obtain ⟨a, b, c, ha, hb, hc, rfl⟩ := Build.makeConstant_eq_some (hn.symm.trans hv)
    change Build.makeConstant n.type x'.constant y'.constant z'.constant = _
    rw [hx.constant ha, hy.constant hb, hz.constant hc]
    rfl
  · obtain ⟨a, b, c, ha, hb, hc, rfl⟩ := (eval_make hc).1 hv
    exact eval_make_of_derived rfl (hx.eval ha) (hy.eval hb) (hz.eval hc)

@[inherit_doc Folds.unary]
theorem convert (hn : n.constant = (Build.convert operand n.type n.span).constant)
    (h : Folds operand operand') :
    Folds (.convert n operand) (Build.convert operand' n.type n.span) := by
  refine of_unknown ⟨rfl, h.derived⟩ rfl (fun _ ↦ rfl) (fun v hv ↦ ?_) fun hc hv ↦ ?_
  · obtain ⟨x, hx, hcx⟩ := bind_eq_some_iff.1 (hn.symm.trans hv)
    exact bind_eq_some_iff.2 ⟨x, h.constant hx, hcx⟩
  · obtain ⟨a, ha, rfl⟩ := (eval_convert hc).1 hv
    exact eval_convert_of_derived rfl (h.eval ha)

/-- The values of arguments are those of what they fold to. -/
theorem evalAll (h : List.Forall₂ Folds es es') [DecidableEq κ] {key : Slot → κ} {m : Memory κ}
    (hv : evalAll key m es = .ok values) : evalAll key m es' = .ok values := by
  induction h generalizing values with
  | nil => exact hv
  | cons he _ ih =>
    obtain ⟨a, as, ha, has, rfl⟩ := evalAll_cons.1 hv
    exact evalAll_cons.2 ⟨a, as, he.eval ha, ih has, rfl⟩

theorem allDerived (h : List.Forall₂ Folds es es') : AllDerived es' := by
  induction h with
  | nil => trivial
  | cons he _ ih => exact ⟨he.derived, ih⟩

/-- A call keeps its note, since none names a value. -/
theorem call (hn : n.constant = none) (h : List.Forall₂ Folds es es') :
    Folds (.call n callee es) (.call n callee es') := by
  refine of_unknown ⟨hn, allDerived h⟩ rfl (fun h ↦ nomatch h) (fun v hv ↦ hv) fun hc hv ↦ ?_
  obtain ⟨evaluator, values, hevaluator, hvalues, hv⟩ := (eval_call hc).1 hv
  exact (eval_call hc).2 ⟨evaluator, values, hevaluator, evalAll h hvalues, hv⟩

/-- An expression without a value may become any other one. -/
theorem of_valueless (hderived : e'.Derived) (hread : e'.read? = e.read?)
    (hinert : e.isInert = true → e'.isInert = true) (hconstant : e.constant = none)
    (heval : ∀ {κ : Type} [DecidableEq κ] {key : Slot → κ} {m : Memory κ} {v : Value},
      ¬ e.eval key m = .ok v) : Folds e e' :=
  of_unknown hderived hread hinert (fun v hv ↦ absurd (hconstant.symm.trans hv) (by simp))
    fun _ hv ↦ absurd hv heval

end Folds

/-- Arguments that are all known have the values that are known. -/
theorem Expr.evalAll_of_constants [DecidableEq κ] {key : Slot → κ} {m : Memory κ}
    (h : es.mapM constant = some values) : evalAll key m es = .ok values := by
  induction es generalizing values with
  | nil =>
    obtain rfl : [] = values := by simpa using h
    rfl
  | cons e es ih =>
    rw [List.mapM_cons] at h
    obtain ⟨a, ha, h⟩ := bind_eq_some_iff.1 h
    obtain ⟨as, has, h⟩ := bind_eq_some_iff.1 h
    cases h
    exact evalAll_cons.2 ⟨a, as, eval_of_constant ha, ih has, rfl⟩

namespace Lower

/-- What is made of an expression may stand for it, and is the expression itself if nothing is said
to have changed. -/
structure Revises (e : Expr) (r : Revised Expr) : Prop where
  folds : Folds e r.node
  same (h : r.changed = false) : r.node = e

/-- A known value takes the place of the expression; otherwise the note is derived anew where a part
has changed. -/
theorem revises_settle {kept derived : Expr} {changed : Bool} (he : e.Derived)
    (hread : e.read? = none) (hkept : changed = false → kept = e) (hderived : Folds e derived) :
    Revises e (settle e.note changed kept derived) := by
  refine settle_cases (fun value hvalue ↦ ?_) (fun hc ↦ ?_) fun _ ↦ ⟨hderived, Bool.noConfusion⟩
  · -- a value that the old note names is also named by the derived one
    have hvalue : derived.constant = some value := by
      cases changed with
      | true => exact hvalue
      | false =>
        rcases hc : e.constant with - | c
        · rwa [show e.note.constant = none from hc] at hvalue
        · rw [show e.note.constant = some c from hc] at hvalue
          rw [hderived.constant hc]
          exact hvalue
    refine ⟨Folds.literal hread (fun v hv ↦ ?_) fun hv ↦ ?_, Bool.noConfusion⟩
    · exact Option.some.inj ((hderived.constant hv).symm.trans hvalue)
    · exact (eq_of_constant (hderived.eval hv) hvalue).symm
  · rw [hkept hc]
    exact ⟨.refl he, fun _ ↦ rfl⟩

/-- A call is evaluated if its arguments are known. -/
theorem revises_foldCall (hn : n.constant = none)
    (harguments : List.Forall₂ Folds es arguments.node)
    (hsame : arguments.changed = false → arguments.node = es)
    (h : foldCall n callee arguments = .ok r) : Revises (.call n callee es) r := by
  obtain rfl | ⟨b, evaluator, known, value, hb, hevaluator, hknown, hvalue, rfl⟩ := foldCall_cases h
  · exact ⟨.call hn harguments, fun h ↦ congrArg (Expr.call n callee) (hsame h)⟩
  · refine ⟨.literal rfl (fun v hv ↦ ?_) fun hv ↦ ?_, Bool.noConfusion⟩
    · exact absurd (hn.symm.trans hv) (by simp)
    · obtain ⟨evaluator', values, hevaluator', hvalues, hv⟩ := (eval_call hn).1 hv
      obtain rfl : evaluator = evaluator' := by simpa [hb, hevaluator] using hevaluator'
      have hall := Folds.evalAll harguments hvalues
      rw [evalAll_of_constants hknown] at hall
      cases hall
      exact Option.some.inj (hv.symm.trans hvalue)

end Lower

/-! ### Statements whose expressions are folded -/

section

variable [DecidableEq κ] {key : Slot → κ} {m m' : Memory κ}
  {calls : Routine → Memory κ → Memory κ → Prop}

/-- What is done with an expression can be done with one that stands for it. -/
theorem Assigns.fold (h : Assigns key x e m m') (he : Folds e e') : Assigns key x e' m m' := by
  obtain ⟨v, hv, hm'⟩ := h
  exact ⟨v, he.eval hv, hm'⟩

section

variable (hes : List.Forall₂ Folds es es')

include hes

@[inherit_doc Assigns.fold]
theorem Passes.fold (h : Passes key (parameters.zip es) m m') :
    Passes key (parameters.zip es') m m' := by
  induction hes generalizing parameters m with
  | nil => exact h
  | cons he _ ih =>
    cases parameters with
    | nil => exact h
    | cons parameter parameters =>
      obtain ⟨m₁, hfirst, hrest⟩ := h
      refine ⟨m₁, ?_, ih hrest⟩
      split at hfirst <;> rename_i hout
      · rwa [if_pos hout]
      · rw [if_neg hout]
        exact hfirst.fold he

@[inherit_doc Assigns.fold]
theorem PassesBack.fold (h : PassesBack key (parameters.zip es) m m') :
    PassesBack key (parameters.zip es') m m' := by
  induction hes generalizing parameters m with
  | nil => exact h
  | cons he _ ih =>
    cases parameters with
    | nil => exact h
    | cons parameter parameters =>
      obtain ⟨m₁, hfirst, hrest⟩ := h
      rw [← he.read?] at hfirst
      exact ⟨m₁, hfirst, ih hrest⟩

@[inherit_doc Assigns.fold]
theorem Calls.fold {result : Option Variable} (h : Calls key calls callee es result m m') :
    Calls key calls callee es' result m m' := by
  cases callee with
  | routine r =>
    obtain ⟨m₁, m₂, m₃, h₁, h₂, h₃, h₄⟩ := h
    exact ⟨m₁, m₂, m₃, h₁.fold hes, h₂, h₃.fold hes, h₄⟩
  | builtin b t =>
    obtain ⟨evaluator, values, value, hevaluator, hvalues, h⟩ := h
    exact ⟨evaluator, values, value, hevaluator, Folds.evalAll hes hvalues, h⟩

end

/-- An expression that only has a value leaves the memory as it is. -/
theorem Expr.affects_of_isInert (he : e.isInert = true) :
    e.Affects key calls m m' ↔ m' = m ∧ ∃ v, e.eval key m = .ok v := by
  cases e <;> first | exact Iff.rfl | cases he

/-- A compound assignment as the assignment that it stands for; any other expression as it is. -/
def Expr.plain : Expr → Expr
  | .compound n x op value => Build.assign x (Build.combined x op value n.span) n.span
  | e => e

theorem Folds.combined {value' : Expr} (h : Folds value value') :
    Folds (Build.combined x op value span) (Build.combined x op value' span) :=
  .binary rfl (.refl rfl) h

/-- A call that is replaced by its value had no effects. -/
theorem Lower.affects_foldCall (hfolds : List.Forall₂ Folds es arguments.node)
    (h : Lower.foldCall n callee arguments = .ok r) (ha : Calls key calls callee es none m m') :
    r.node.Affects key calls m m' := by
  obtain rfl | ⟨b, _, _, _, hb, -, -, -, rfl⟩ := foldCall_cases h
  · exact Calls.fold hfolds ha
  · obtain ⟨t, rfl⟩ : ∃ t, callee = .builtin b t := by
      cases callee <;> cases hb
      exact ⟨_, rfl⟩
    obtain ⟨_, _, _, -, -, -, rfl⟩ := ha
    exact ⟨rfl, _, eval_literal⟩

end

namespace Lower

/-- What is made of an expression may stand for it, also where it stands as a statement. -/
structure Replaces (e : Expr) (r : Revised Expr) : Prop extends Revises e r where
  affects {κ : Type} [DecidableEq κ] {key : Slot → κ} {m m' : Memory κ}
    {calls : Routine → Memory κ → Memory κ → Prop} (h : e.plain.Affects key calls m m') :
    r.node.Affects key calls m m'

theorem Revises.replaces (h : Revises e r) (he : e.isInert = true) : Replaces e r where
  toRevises := h
  affects ha := by
    have hplain : e.plain = e := by cases e <;> first | rfl | cases he
    rw [hplain, affects_of_isInert he] at ha
    obtain ⟨rfl, v, hv⟩ := ha
    exact (affects_of_isInert (h.folds.inert he)).2 ⟨rfl, v, h.folds.eval hv⟩

end Lower

end Wirescript
