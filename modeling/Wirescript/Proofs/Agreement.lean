import Wirescript.Proofs.Notes

/-!
# Folding agrees with evaluation

There are two ways to the value of an expression: lowering folds what is known, from the leaves up,
and the machine evaluates in a memory. `Expr.bare` takes all known values out of the notes, so that the
machine has to compute everything itself. Main statement: for expressions without effects, whose notes
are derived or say nothing, the outcome of lowering has the value that the bare expression has. If the
leaves are literals that know their values and the types fit, the outcome is that value.
-/

namespace Wirescript

open Wirescript.Expr
open Option

variable {e : Expr} {n : Note} {r : Revised Expr}

/-! ### Forms and notes -/

def Note.bare (n : Note) : Note := { n with constant := none }

mutual

/-- The expression without anything that is known of its value. -/
def Expr.bare : Expr → Expr
  | .literal n value => .literal n.bare value
  | .read n x => .read n.bare x
  | .unary n op operand => .unary n.bare op operand.bare
  | .binary n op left right => .binary n.bare op left.bare right.bare
  | .make n x y z => .make n.bare x.bare y.bare z.bare
  | .call n callee arguments => .call n.bare callee (bareAll arguments)
  | .convert n operand => .convert n.bare operand.bare
  | e => e

@[inherit_doc Expr.bare]
def Expr.bareAll : List Expr → List Expr
  | [] => []
  | e :: rest => e.bare :: bareAll rest

end

/-- The node has no effects: it is a literal, a variable, an operation, or a call of a built-in
function that can be computed. -/
def Expr.Evaluable : Expr → Prop
  | .literal .. | .read .. | .unary .. | .binary .. | .make .. | .convert .. => True
  | .call _ callee _ => (callee.builtin?.bind Builtin.evaluator).isSome = true
  | _ => False

/-- The node as `Build` makes it of the same parts. -/
def Expr.rebuilt : Expr → Expr
  | .literal n value => Build.literal value n.span
  | .read n x => Build.read x n.span
  | .unary n op operand => Build.unary op operand n.span
  | .binary n op left right => Build.binary op left right n.span
  | .make n x y z => Build.make n.type x y z n.span
  | .call n callee arguments => Build.call callee arguments n.span
  | .convert n operand => Build.convert operand n.type n.span
  | e => e

/-- The note names the value that is derived from the parts, or none. -/
def Expr.Noted (e : Expr) : Prop := e.constant = none ∨ e.constant = e.rebuilt.constant

/-- All nodes have no effects and a note that may be believed. -/
def Expr.Foldable (e : Expr) : Prop := e.Each (fun e ↦ e.Evaluable ∧ e.Noted) fun _ ↦ True

/-- The node is a literal with its value in the note, or an operation of a type that fits. -/
def Expr.Fitted (e : Expr) : Prop :=
  e.Typed ∧ match e with
    | .literal _ _ => e.constant = e.rebuilt.constant
    | .unary .. | .binary .. => True
    | .make _ x y z => x.type = .float ∧ y.type = .float ∧ z.type = .float
    | .call _ callee _ => callee.Computes
    | .convert n operand =>
      operand.type = n.type ∨ operand.type.isVectorLike = true ∧ n.type.isVectorLike = true
    | _ => False

/-- All leaves are literals, and all types fit. -/
def Expr.Ground (e : Expr) : Prop := e.Each Fitted fun _ ↦ True

section

variable {κ : Type} [DecidableEq κ] {key : Slot → κ} {m : Memory κ} {v : Value}

/-- Without a known value, an operation and its rebuilt form are evaluated alike. -/
theorem Expr.eval_of_rebuilt (he : e.Evaluable) (hc : e.constant = none)
    (hc' : e.rebuilt.constant = none) (h : e.rebuilt.eval key m = .ok v) : e.eval key m = .ok v := by
  cases e with
  | literal n value => cases hc'
  | read n x => exact (eval_read hc).trans ((eval_read hc').symm.trans h)
  | unary n op operand => exact (eval_unary hc).2 ((eval_unary hc').1 h)
  | binary n op left right => exact (eval_binary hc).2 ((eval_binary hc').1 h)
  | make n x y z => exact (eval_make hc).2 ((eval_make hc').1 h)
  | call n callee arguments => exact (eval_call hc).2 ((eval_call hc').1 h)
  | convert n operand => exact (eval_convert hc).2 ((eval_convert hc').1 h)
  | step | segment | assign | compound | error | statement => exact he.elim

theorem Expr.eval_literal_of_noted {value : Value} (h : (Expr.literal n value).Noted) :
    (Expr.literal n value).eval key m = .ok value := by
  rcases h with hc | hc
  · rw [eval.eq_def, hc]
  · exact eval_of_constant hc

theorem Build.convertConstant_of_fits {type : Ty} {a : Value}
    (h : a.type = type ∨ a.type.isVectorLike = true ∧ type.isVectorLike = true) :
    Build.convertConstant type a = some (a.converted type) := by
  cases a <;> cases type <;> first | rfl | simp [Value.type, Ty.isVectorLike] at h

end

/-! ### Folding -/

namespace Lower

/-- What is made of an expression is the expression itself if nothing is said to have changed, and has
the value that is found when nothing is known. -/
structure Agrees (e : Expr) (r : Revised Expr) : Prop where
  same (h : r.changed = false) : r.node = e
  eval {κ : Type} [DecidableEq κ] {key : Slot → κ} {m : Memory κ} {v : Value}
    (h : e.bare.eval key m = .ok v) : r.node.eval key m = .ok v
  ground {κ : Type} [DecidableEq κ] {key : Slot → κ} {m : Memory κ} {v : Value} (he : e.Ground)
    (h : e.bare.eval key m = .ok v) : r.node = Build.literal v e.note.span ∧ v.type = e.type

@[inherit_doc Agrees]
structure AgreesAll (es : List Expr) (r : Revised (List Expr)) : Prop where
  same (h : r.changed = false) : r.node = es
  eval {κ : Type} [DecidableEq κ] {key : Slot → κ} {m : Memory κ} {values : List Value}
    (h : evalAll key m (bareAll es) = .ok values) : evalAll key m r.node = .ok values
  ground {κ : Type} [DecidableEq κ] {key : Slot → κ} {m : Memory κ} {values : List Value}
    (hes : AllEach Fitted (fun _ ↦ True) es)
    (h : evalAll key m (bareAll es) = .ok values) :
    r.node.mapM Expr.constant = some values

theorem Agrees.constant (hr : Agrees e r) {κ : Type} [DecidableEq κ] {key : Slot → κ} {m : Memory κ}
    {v : Value} (he : e.Ground) (h : e.bare.eval key m = .ok v) : r.node.constant = some v := by
  rw [(hr.ground he h).1]
  rfl

/-- An operation is settled by what its operands have become. -/
theorem agrees_settle {kept derived : Expr} {changed : Bool} (he : e.Evaluable) (hnoted : e.Noted)
    (hsame : changed = false → kept = e ∧ derived = e.rebuilt)
    (heval : ∀ {κ : Type} [DecidableEq κ] {key : Slot → κ} {m : Memory κ} {v : Value},
      e.bare.eval key m = .ok v → derived.eval key m = .ok v)
    (hground : ∀ {κ : Type} [DecidableEq κ] {key : Slot → κ} {m : Memory κ} {v : Value}, e.Ground →
      e.bare.eval key m = .ok v → derived.constant = some v ∧ v.type = e.type) :
    Agrees e (settle e.note changed kept derived) := by
  -- the note that came with the node adds nothing to the derived one
  have hnote : (if changed then none else e.note.constant).or derived.constant =
      derived.constant := by
    cases changed with
    | true => rfl
    | false =>
      rcases hnoted with hnone | hsome
      · rw [show e.note.constant = none from hnone]
        rfl
      · rw [(hsame rfl).2, show e.note.constant = e.rebuilt.constant from hsome]
        exact Option.or_self
  rw [settle, hnote]
  split
  · next value hvalue =>
    refine ⟨Bool.noConfusion, fun h ↦ ?_, fun hg h ↦ ?_⟩
    · rw [← eq_of_constant (heval h) hvalue]
      exact eval_literal
    · obtain ⟨hv, htype⟩ := hground hg h
      cases hvalue.symm.trans hv
      exact ⟨rfl, htype⟩
  · next hvalue =>
    have hg {κ : Type} [DecidableEq κ] {key : Slot → κ} {m : Memory κ} {v : Value} (hg : e.Ground)
        (h : e.bare.eval key m = .ok v) : False := by
      rw [hvalue] at hground
      cases (hground hg h).1
    refine ⟨fun h ↦ ?_, fun h ↦ ?_, fun h h' ↦ (hg h h').elim⟩
    · cases changed with
      | false => exact (hsame rfl).1
      | true => cases h
    · cases changed with
      | true => exact heval h
      | false =>
        obtain ⟨rfl, rfl⟩ := hsame rfl
        refine eval_of_rebuilt he ?_ hvalue (heval h)
        exact hnoted.elim id fun h ↦ h.trans hvalue

theorem agrees_foldCall {callee : Callee} {es : List Expr} {arguments : Revised (List Expr)}
    (hform : (Expr.call n callee es).Evaluable) (hnoted : (Expr.call n callee es).Noted)
    (hes : AgreesAll es arguments) (h : foldCall n callee arguments = .ok r) :
    Agrees (.call n callee es) r := by
  have hn : n.constant = none := hnoted.elim id id
  obtain ⟨evaluator, hevaluator⟩ := isSome_iff_exists.1 hform
  obtain ⟨b, hb, hevaluator'⟩ := bind_eq_some_iff.1 hevaluator
  -- a value that the bare call has is computed from values of the arguments
  have hbare {κ : Type} [DecidableEq κ] {key : Slot → κ} {m : Memory κ} {v : Value}
      (hv : (Expr.call n callee es).bare.eval key m = .ok v) :
      ∃ values, evalAll key m (bareAll es) = .ok values ∧
        evaluator.compute? values = some v := by
    obtain ⟨evaluator', values, hsame, hvalues, hv⟩ := (eval_call rfl).1 hv
    cases hevaluator.symm.trans hsame
    exact ⟨values, hvalues, hv⟩
  rw [foldCall, hb] at h
  rcases hparameter : b.parameters.find? (·.modifiers.byReference) with - | p <;>
    simp only [hevaluator', hparameter] at h
  · split at h
    · next value hvalue =>
      cases h
      obtain ⟨known, hknown, hvalue⟩ := bind_eq_some_iff.1 hvalue
      have hunique {κ : Type} [DecidableEq κ] {key : Slot → κ} {m : Memory κ} {v : Value}
          (hv : (Expr.call n callee es).bare.eval key m = .ok v) : value = v := by
        obtain ⟨values, hvalues, hv⟩ := hbare hv
        have hall := hes.eval hvalues
        rw [evalAll_of_constants hknown] at hall
        cases hall
        exact Option.some.inj (hvalue.symm.trans hv)
      refine ⟨Bool.noConfusion, fun hv ↦ ?_, fun hg hv ↦ ?_⟩
      · rw [hunique hv]
        exact eval_literal
      · obtain rfl := hunique hv
        obtain ⟨values, -, hv⟩ := hbare hv
        exact ⟨rfl, (hg.1.2 evaluator hevaluator values _ hv).trans hg.1.1.symm⟩
    · next hvalue =>
      cases h
      refine ⟨fun hc ↦ congrArg (Expr.call n callee) (hes.same hc), fun hv ↦ ?_, fun hg hv ↦ ?_⟩
      · obtain ⟨values, hvalues, hv⟩ := hbare hv
        exact (eval_call hn).2 ⟨evaluator, values, hevaluator, hes.eval hvalues, hv⟩
      · obtain ⟨values, hvalues, hv⟩ := hbare hv
        rw [hes.ground hg.2 hvalues, bind_some, hv] at hvalue
        cases hvalue
  · cases h

/-- Expressions without effects keep the values that are found when nothing is known. -/
def agreeScheme : Scheme where
  expr e _ r _ := e.Foldable → Agrees e r
  exprs es _ r _ := AllEach (fun e ↦ e.Evaluable ∧ e.Noted) (fun _ ↦ True) es → AgreesAll es r

theorem lawful_agreeScheme : agreeScheme.Lawful where
  atom {e} h _ he := by
    cases e
    case literal n value =>
      refine ⟨fun _ ↦ rfl, fun hv ↦ ?_, fun hg hv ↦ ?_⟩
      · cases hv
        exact eval_literal_of_noted he.1.2
      · cases hv
        have hnote : n = (Build.literal value n.span).note := by
          exact Note.mk.injEq .. ▸ ⟨hg.1.1, rfl, hg.1.2⟩
        exact ⟨congrArg (Expr.literal · value) hnote, hg.1.1.symm⟩
    case read n x =>
      have hn : n.constant = none := he.1.2.elim id id
      exact ⟨fun _ ↦ rfl, fun hv ↦ (eval_read hn).trans ((eval_read rfl).symm.trans hv),
        fun hg _ ↦ hg.1.2.elim⟩
    all_goals first | exact he.1.1.elim | cases h
  unary h he := by
    have ho := h he.2
    refine agrees_settle he.1.1 he.1.2 (fun hc ↦ ?_) (fun hv ↦ ?_) fun hg hv ↦ ?_
    · rw [ho.same hc]
      exact ⟨rfl, rfl⟩
    · obtain ⟨a, ha, hv⟩ := (eval_unary rfl).1 hv
      exact eval_unary_of_derived rfl (ho.eval ha) hv
    · obtain ⟨a, ha, hv⟩ := (eval_unary rfl).1 hv
      refine ⟨bind_eq_some_iff.2 ⟨a, ho.constant hg.2 ha, hv⟩, ?_⟩
      rw [UnaryOp.type_compute? hv, (ho.ground hg.2 ha).2]
      exact hg.1.1.symm
  binary {_ op _ _ _ l _ r _} hleft hright he := by
    have hl := hleft he.2.1
    have hr := hright he.2.2
    refine agrees_settle he.1.1 he.1.2 (fun hc ↦ ?_) (fun hv ↦ ?_) fun hg hv ↦ ?_
    · obtain ⟨hlc, hrc⟩ := Bool.or_eq_false_iff.1 hc
      rw [hl.same hlc, hr.same hrc]
      exact ⟨rfl, rfl⟩
    · obtain ⟨a, b, ha, hb, hv⟩ := (eval_binary rfl).1 hv
      exact eval_binary_of_derived rfl (hl.eval ha) (hr.eval hb) hv
    · obtain ⟨a, b, ha, hb, hv⟩ := (eval_binary rfl).1 hv
      constructor
      · change Build.binaryConstant op l.node.constant r.node.constant = some _
        rw [hl.constant hg.2.1 ha, hr.constant hg.2.2 hb]
        exact hv
      · rw [BinaryOp.type_compute? hv, (hl.ground hg.2.1 ha).2, (hr.ground hg.2.2 hb).2]
        exact hg.1.1.symm
  make {n _ _ _ _ x _ y _ z _} hfirst hsecond hthird he := by
    have hx := hfirst he.2.1
    have hy := hsecond he.2.2.1
    have hz := hthird he.2.2.2
    refine agrees_settle he.1.1 he.1.2 (fun hc ↦ ?_) (fun hv ↦ ?_) fun hg hv ↦ ?_
    · obtain ⟨hxyc, hzc⟩ := Bool.or_eq_false_iff.1 hc
      obtain ⟨hxc, hyc⟩ := Bool.or_eq_false_iff.1 hxyc
      rw [hx.same hxc, hy.same hyc, hz.same hzc]
      exact ⟨rfl, rfl⟩
    · obtain ⟨a, b, c, ha, hb, hc, rfl⟩ := (eval_make rfl).1 hv
      exact eval_make_of_derived rfl (hx.eval ha) (hy.eval hb) (hz.eval hc)
    · obtain ⟨a, b, c, ha, hb, hc, rfl⟩ := (eval_make rfl).1 hv
      obtain ⟨⟨⟨type, htype, hn⟩, hxf, hyf, hzf⟩, hgx, hgy, hgz⟩ := hg
      obtain ⟨f, rfl⟩ := Value.eq_float_of_type ((hx.ground hgx ha).2.trans hxf)
      obtain ⟨g, rfl⟩ := Value.eq_float_of_type ((hy.ground hgy hb).2.trans hyf)
      obtain ⟨k, rfl⟩ := Value.eq_float_of_type ((hz.ground hgz hc).2.trans hzf)
      constructor
      · change Build.makeConstant n.type x.node.constant y.node.constant z.node.constant = _
        rw [hx.constant hgx ha, hy.constant hgy hb, hz.constant hgz hc]
        rfl
      · refine Value.type_ofComponents ?_ _
        rw [show n.bare.type = type from hn]
        exact htype
  call h hr he := agrees_foldCall he.1.1 he.1.2 (h he.2) hr
  convert {n e _ _ _} h he := by
    have ho := h he.2
    refine agrees_settle he.1.1 he.1.2 (fun hc ↦ ?_) (fun hv ↦ ?_) fun hg hv ↦ ?_
    · rw [ho.same hc]
      exact ⟨rfl, rfl⟩
    · obtain ⟨a, ha, rfl⟩ := (eval_convert rfl).1 hv
      exact eval_convert_of_derived rfl (ho.eval ha)
    · obtain ⟨a, ha, rfl⟩ := (eval_convert rfl).1 hv
      have hfits : e.type = n.type ∨ e.type.isVectorLike = true ∧ n.type.isVectorLike = true :=
        hg.1.2
      rw [← (ho.ground hg.2 ha).2] at hfits
      have hconstant := Build.convertConstant_of_fits hfits
      exact ⟨bind_eq_some_iff.2 ⟨a, ho.constant hg.2 ha, hconstant⟩,
        Build.type_convertConstant hconstant⟩
  segment _ he := he.1.1.elim
  assign _ he := he.1.1.elim
  compound _ he := he.1.1.elim
  statement _ he := he.1.1.elim
  nil _ _ := by
    refine ⟨fun _ ↦ rfl, id, fun _ h ↦ ?_⟩
    cases h
    rfl
  cons {_ _ _ r _ rs _} h hs hes := by
    have he := h hes.1
    have hrest := hs hes.2
    refine ⟨fun hc ↦ ?_, fun h ↦ ?_, fun hg h ↦ ?_⟩
    · obtain ⟨hec, hrestc⟩ := Bool.or_eq_false_iff.1 hc
      exact congrArg₂ List.cons (he.same hec) (hrest.same hrestc)
    · obtain ⟨a, as, ha, has, rfl⟩ := evalAll_cons.1 h
      exact evalAll_cons.2 ⟨a, as, he.eval ha, hrest.eval has, rfl⟩
    · obtain ⟨a, as, ha, has, rfl⟩ := evalAll_cons.1 h
      change (r.node :: rs.node).mapM Expr.constant = _
      rw [List.mapM_cons, he.constant hg.1 ha, hrest.ground hg.2 has]
      rfl

theorem agrees_expr (he : e.Foldable) {σ σ' : LabelSupply} (h : (expr e).run σ = .ok (r, σ')) :
    Agrees e r :=
  ((lawful_agreeScheme.from_expr e σ).of_run trivial h).2 he

/-- Folding agrees with evaluation. An expression without effects, whose notes are derived or say
nothing, is lowered to one that has the value which is found when nothing is known; and if its leaves
are literals that know their values and all types fit, it is lowered to that value. -/
theorem eval_of_foldable {e : Expr} {σ σ' : LabelSupply} {r : Revised Expr} (he : e.Foldable)
    (h : (expr e).run σ = .ok (r, σ')) {κ : Type} [DecidableEq κ] {key : Slot → κ} {m : Memory κ}
    {v : Value} (hv : e.bare.eval key m = .ok v) :
    r.node.eval key m = .ok v ∧ (e.Ground → r.node = Build.literal v e.note.span) :=
  have hr := agrees_expr he h
  ⟨hr.eval hv, fun hg ↦ (hr.ground hg hv).1⟩

/-- `1 < abs(-2) || !true`, where only the literals know their values. -/
def unfolded : Expr :=
  let two := Expr.unary ⟨.float, default, none⟩ .negate (Build.float 2 default)
  let absolute := Callee.builtin ((Builtin.find? "abs").getD default) .float
  .binary ⟨.bool, default, none⟩ .or
    (.binary ⟨.bool, default, none⟩ .less (Build.float 1 default)
      (.call ⟨.float, default, none⟩ absolute [two]))
    (.unary ⟨.bool, default, none⟩ .not (Build.literal (.bool true) default))

theorem eval_of_foldable_unfolded :
    unfolded.Foldable ∧ unfolded.Ground ∧ ∃ r, (expr unfolded).run default = .ok (r, default) ∧
      r.node.eval Memory.storageKey {} = .ok (.bool true) ∧
      r.node = Build.literal (.bool true) default := by
  have hform : unfolded.Foldable := by
    refine ⟨⟨trivial, .inl rfl⟩, ⟨⟨trivial, .inl rfl⟩, ⟨⟨trivial, .inr rfl⟩, trivial⟩, ?_⟩,
      ⟨trivial, .inl rfl⟩, ⟨trivial, .inr rfl⟩, trivial⟩
    exact ⟨⟨rfl, .inl rfl⟩, ⟨⟨trivial, .inl rfl⟩, ⟨trivial, .inr rfl⟩, trivial⟩, trivial⟩
  have hground : unfolded.Ground := by
    refine ⟨⟨rfl, trivial⟩, ⟨⟨rfl, trivial⟩, ⟨⟨rfl, rfl⟩, trivial⟩, ?_⟩, ⟨rfl, trivial⟩,
      ⟨rfl, rfl⟩, trivial⟩
    refine ⟨⟨rfl, Builtin.computes_of_mem ?_⟩, ⟨⟨rfl, trivial⟩, ⟨rfl, rfl⟩, trivial⟩, trivial⟩
    decide +kernel
  have hv : unfolded.bare.eval Memory.storageKey {} = .ok (.bool true) := by rfl
  refine ⟨hform, hground, _, rfl, ?_⟩
  have h := eval_of_foldable hform (show (expr unfolded).run default = .ok (_, default) from rfl) hv
  exact ⟨h.1, h.2 hground⟩

/-- `-1`, where not even the literal knows its value. -/
def silent : Expr :=
  .unary ⟨.float, default, none⟩ .negate (.literal ⟨.float, default, none⟩ (.float 1))

/-- A literal that does not know its value is not folded. -/
theorem expr_silent : silent.Foldable ∧ silent.Each Expr.Typed (fun _ ↦ True) ∧
      silent.bare.eval Memory.storageKey {} = .ok (.float (-1)) ∧
      (expr silent).run default = .ok (.same silent, default) ∧
      silent ≠ Build.literal (.float (-1)) default :=
  ⟨⟨⟨trivial, .inl rfl⟩, ⟨trivial, .inl rfl⟩, trivial⟩, ⟨rfl, rfl, trivial⟩, rfl, rfl,
    by simp [silent, Build.literal]⟩

end Lower

end Wirescript
