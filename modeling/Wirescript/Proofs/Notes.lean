import Wirescript.Proofs.Vocabulary

/-!
# Notes that tell the truth

A note says what type an expression has and, sometimes, what its value is. It is *truthful* if the
type is the one that the functions of `Build` derive from the parts, and if the expression has no
value but the one that is named. What the value of an expression is must not be taken from notes
then, so there is a second evaluation here, `Expr.value?`, that looks at the form alone.

A note that names a value for an expression that never has one is truthful too. Passes may put that
value in the place of the expression, and what stands around it then has values that it did not have
before. So truth alone is not kept: a tree has to be *regular* as well. A call that names a value has
it in every memory, since its note stays when its arguments change, and a value that is named has the
type that is noted, since the types above it are derived again.
-/

namespace Wirescript

open Wirescript.Expr
open Option

variable {op : BinaryOp} {callee : Callee} {e : Expr} {es : List Expr} {rs : Revised (List Expr)}
  {r : Revised Expr} {s : Stmt} {v a : Value}

/-! ### Values of forms -/

/-- The value of an operation that asks for its right operand only if the left one does not
decide. -/
def BinaryOp.lazily? (op : BinaryOp) (l : Value) (r : Option Value) : Option Value :=
  if l.bool?.any op.decidedBy then some l else r.bind (op.compute? l)

section

variable {κ : Type} [DecidableEq κ] (key : Slot → κ) (m : Memory κ)

mutual

/-- The value that an expression has by its form, whatever its notes say. -/
def Expr.value? : Expr → Option Value
  | .literal _ value => some value
  | .read _ x => some (m.load key x)
  | .unary _ op operand => (value? operand).bind op.compute?
  | .binary _ op left right => (value? left).bind fun l ↦ op.lazily? l (value? right)
  | .make n x y z =>
    (value? x).bind fun a ↦ (value? y).bind fun b ↦ (value? z).map fun c ↦
      .ofComponents n.type ⟨a.float?.getD 0, b.float?.getD 0, c.float?.getD 0⟩
  | .convert n operand => (value? operand).map (Value.converted n.type)
  | .call _ callee arguments =>
    (callee.builtin?.bind Builtin.evaluator).bind fun evaluator ↦
      (values? arguments).bind evaluator.compute?
  | .step .. | .segment .. | .assign .. | .compound .. | .error _ | .statement .. => none

@[inherit_doc value?]
def Expr.values? : List Expr → Option (List Value)
  | [] => some []
  | e :: rest => (value? e).bind fun v ↦ (values? rest).map (v :: ·)

end

end

/-! ### Truthful and regular trees -/

/-- The type of the note is one that `Build` gives to the form. -/
def Expr.Typed : Expr → Prop
  | .literal n value => n.type = (Build.literal value n.span).type
  | .read n x => n.type = (Build.read x n.span).type
  | .unary n op operand => n.type = (Build.unary op operand n.span).type
  | .binary n op left right => n.type = (Build.binary op left right n.span).type
  | .make n x y z =>
    ∃ type : Ty, type.isVectorLike = true ∧ n.type = (Build.make type x y z n.span).type
  | .call n callee arguments => n.type = (Build.call callee arguments n.span).type
  | .convert n operand => ∃ type, n.type = (Build.convert operand type n.span).type
  | .step n x yieldsNew down => n.type = (Build.step x yieldsNew down n.span).type
  | .segment n items => ∃ element, n.type = (Build.segment element items n.span).type
  | .assign n x value => n.type = (Build.assign x value n.span).type
  | .compound n x op value => n.type = (Build.compound x op value n.span).type
  | .error n => n.type = (Build.error n.span).type
  | .statement n body => n.type = (Build.statement body).type

/-- The expression has no value in any memory but the one that its note names. -/
def Expr.Honest (e : Expr) : Prop :=
  ∀ v, e.constant = some v → ∀ {κ : Type} [DecidableEq κ] (key : Slot → κ) (m : Memory κ) (w : Value),
    e.value? key m = some w → w = v

/-- A routine is given arguments of the types of its parameters, which are cells. -/
def Callee.Takes (callee : Callee) (arguments : List Expr) : Prop :=
  ∀ r ∈ callee.routine?, ∀ pair ∈ r.parameters.zip (arguments.map Expr.type),
    pair.1.isComponent = false ∧ pair.2 = pair.1.type

/-- What can be computed of a call has the type of the call. -/
def Callee.Computes (callee : Callee) : Prop :=
  ∀ evaluator ∈ callee.builtin?.bind Builtin.evaluator, ∀ values v,
    evaluator.compute? values = some v → v.type = callee.returnType

/-- The expression has the value that its note names, in every memory. -/
def Expr.Certain (e : Expr) : Prop :=
  ∀ v, e.constant = some v → ∀ {κ : Type} [DecidableEq κ] (key : Slot → κ) (m : Memory κ),
    e.value? key m = some v

/-- What a call asks for beyond a truthful note. -/
def Expr.Shaped : Expr → Prop
  | .call n callee arguments =>
    (Expr.call n callee arguments).Certain ∧ callee.Computes ∧ callee.Takes arguments
  | _ => True

/-- A value that is named has the type that is noted, and the form is as it should be. -/
structure Expr.Regular (e : Expr) : Prop where
  constant (v : Value) (h : e.constant = some v) : v.type = e.type
  shape : e.Shaped

/-- A call statement gives a routine arguments of the types of its parameters. -/
def Stmt.Regular : Stmt → Prop
  | .call _ callee arguments _ => callee.Takes arguments
  | _ => True

/-- Every note in the tree tells the truth. -/
def Stmt.Truthful (s : Stmt) : Prop := s.Each (fun e ↦ e.Typed ∧ e.Honest) fun _ ↦ True

/-- The tree is regular everywhere. -/
def Stmt.AllRegular (s : Stmt) : Prop := s.Each Expr.Regular Stmt.Regular

/-- The note is truthful and the node is regular. -/
structure Expr.Sound (e : Expr) : Prop where
  typed : e.Typed
  honest : e.Honest
  regular : e.Regular

/-- The tree is sound everywhere. -/
abbrev Expr.AllSound (e : Expr) : Prop := e.Each Sound Stmt.Regular

@[inherit_doc Expr.AllSound]
abbrev Stmt.AllSound (s : Stmt) : Prop := s.Each Sound Stmt.Regular

theorem Stmt.AllSound.of_truthful (h : s.Truthful) (h' : s.AllRegular) : s.AllSound :=
  Stmt.Each.map₂ (fun _ h h' ↦ ⟨h.1, h.2, h'⟩) (fun _ _ h ↦ h) h h'

theorem Stmt.AllSound.truthful (h : s.AllSound) : s.Truthful :=
  Stmt.Each.map₂ (fun _ h _ ↦ ⟨h.typed, h.honest⟩) (fun _ _ _ ↦ trivial) h h

theorem Stmt.AllSound.allRegular (h : s.AllSound) : s.AllRegular :=
  Stmt.Each.map₂ (fun _ h _ ↦ h.regular) (fun _ h _ ↦ h) h h

/-! ### Types of values -/

/-- The type of what an evaluator computes. -/
def Evaluator.type : Evaluator → Ty
  | .always value => value.type
  | .cross => .vector3
  | _ => .float

theorem Evaluator.type_compute? {e : Evaluator} {arguments : List Value}
    (h : e.compute? arguments = some v) : v.type = e.type := by
  unfold compute? at h
  split at h
  · cases h
    rfl
  · obtain ⟨f, hf, rfl⟩ := map_eq_some_iff.1 h
    cases e <;> first | rfl | cases hf
  · obtain ⟨f, hf, rfl⟩ := map_eq_some_iff.1 h
    cases e <;> first | rfl | cases hf
  · obtain ⟨f, hf, rfl⟩ := map_eq_some_iff.1 h
    cases e <;> cases hf <;> rfl
  · cases h

/-- What can be computed of the built-in functions of the language has the type of the call. -/
theorem Builtin.computes_of_mem {b : Builtin} (hb : b ∈ Builtin.all) :
    (Callee.builtin b b.returnType).Computes := by
  have htype : ∀ b ∈ Builtin.all, ∀ e ∈ b.evaluator, e.type = b.returnType := by decide +kernel
  intro e he values v hv
  rw [Evaluator.type_compute? hv]
  exact htype b hb e he

theorem UnaryOp.type_compute? {op : UnaryOp} (h : op.compute? a = some v) :
    v.type = op.resultType a.type := by
  cases op <;> cases a <;> cases h <;> rfl

theorem BinaryOp.type_compute? {b : Value} (h : op.compute? a b = some v) :
    v.type = op.resultType a.type b.type := by
  unfold BinaryOp.compute? at h
  split at h
  case h_8 l r =>
    -- a left operand that decides
    split at h
    · next hl =>
      cases h
      cases op <;> first | rfl | cases hl
    · cases h
  case h_9 => cases h
  all_goals cases op <;> cases h <;> rfl

theorem Build.type_binaryConstant {l r : Option Value} {s t : Ty}
    (hl : ∀ a, l = some a → a.type = s) (hr : ∀ a, r = some a → a.type = t)
    (h : Build.binaryConstant op l r = some v) : v.type = op.resultType s t := by
  unfold Build.binaryConstant at h
  split at h
  · rw [BinaryOp.type_compute? h, hl _ rfl, hr _ rfl]
  · split at h
    · next hdecided =>
      cases h
      cases op <;> first | rfl | simp [BinaryOp.decidedBy] at hdecided
    · cases h
  · cases h

theorem Build.type_convertConstant {type : Ty} (h : Build.convertConstant type a = some v) :
    v.type = type := by
  cases a <;> simp only [Build.convertConstant] at h <;> split_ifs at h <;> cases h <;>
    simp_all [Value.type]

/-! ### What is built is sound -/

theorem Expr.Honest.of_none (h : e.constant = none) : e.Honest := by
  intro v hv
  rw [h] at hv
  cases hv

/-- A note may name any value for a form that has none. -/
theorem Expr.Honest.of_valueless
    (h : ∀ {κ : Type} [DecidableEq κ] (key : Slot → κ) (m : Memory κ), e.value? key m = none) :
    e.Honest := by
  intro v _ κ _ key m w hw
  rw [h] at hw
  cases hw

theorem BinaryOp.lazily?_eq (op : BinaryOp) (l : Value) (r : Option Value) :
    op.lazily? l r = Build.binaryConstant op (some l) r := by
  unfold BinaryOp.lazily?
  split
  · next h =>
    obtain ⟨b, rfl⟩ : ∃ b, l = .bool b := by cases l <;> first | exact ⟨_, rfl⟩ | cases h
    have hb : op.decidedBy b = true := h
    rcases r with - | r
    · exact (if_pos hb).symm
    · exact (BinaryOp.compute?_of_decidedBy hb r).symm
  · next h =>
    rcases r with - | r
    · cases l
      case bool b => exact (if_neg h).symm
      all_goals rfl
    · rfl

/-- Two answers about an operation agree if what is known about the operands agrees. -/
theorem Build.binaryConstant_unique {l r l' r' : Option Value} {w : Value}
    (hl : ∀ a, l = some a → ∀ b, l' = some b → b = a)
    (hr : ∀ a, r = some a → ∀ b, r' = some b → b = a) (h : Build.binaryConstant op l r = some v)
    (h' : Build.binaryConstant op l' r' = some w) : w = v := by
  -- both follow from all that is known on either side
  have hboth {o o' : Option Value} (ho : ∀ a, o = some a → ∀ b, o' = some b → b = a) (b : Value)
      (hb : o' = some b) : o.or o' = some b := by
    rcases o with - | a
    · exact hb
    · rw [ho a rfl b hb]
      rfl
  have hv : Build.binaryConstant op (l.or l') (r.or r') = some v :=
    Build.binaryConstant_mono (fun a ha ↦ by rw [ha]; rfl) (fun a ha ↦ by rw [ha]; rfl) h
  have hw : Build.binaryConstant op (l.or l') (r.or r') = some w :=
    Build.binaryConstant_mono (hboth hl) (hboth hr) h'
  exact Option.some.inj (hw.symm.trans hv)

/-- A node that says nothing of its value is sound. -/
theorem Expr.Sound.of_unknown (htyped : e.Typed) (hconstant : e.constant = none)
    (hshaped : e.Shaped) : e.Sound where
  typed := htyped
  honest := .of_none hconstant
  regular := by
    refine ⟨fun v hv ↦ ?_, hshaped⟩
    rw [hconstant] at hv
    cases hv

/-- A node without a value may keep the note of another one. -/
theorem Expr.Sound.of_note {e' : Expr} (h : e.Sound) (hnote : e'.note = e.note) (htyped : e'.Typed)
    (hshaped : e'.Shaped) (hvalue : ∀ {κ : Type} [DecidableEq κ] (key : Slot → κ) (m : Memory κ),
      e'.value? key m = none) : e'.Sound where
  typed := htyped
  honest := .of_valueless hvalue
  regular := by
    refine ⟨fun v hv ↦ ?_, hshaped⟩
    unfold constant at hv
    rw [hnote] at hv
    unfold Expr.type
    rw [hnote]
    exact h.regular.constant v hv

theorem Expr.Sound.vectorLike {n : Note} {x y z : Expr} (h : (Expr.make n x y z).Sound) :
    n.type.isVectorLike = true := by
  obtain ⟨type, hvector, htype⟩ := h.typed
  rwa [htype]

namespace Expr.AllSound

variable {operand left right x y z value : Expr} {span : Span}

theorem sound (h : e.AllSound) : e.Sound := Each.node h

theorem literal (value : Value) (span : Span) : (Build.literal value span).AllSound := by
  refine ⟨⟨rfl, fun v hv κ _ key m w hw ↦ ?_, fun v hv ↦ ?_, trivial⟩, trivial⟩
  · exact (Option.some.inj hw).symm.trans (Option.some.inj hv)
  · cases hv
    rfl

theorem read (x : Variable) (span : Span) : (Build.read x span).AllSound :=
  ⟨.of_unknown rfl rfl trivial, trivial⟩

theorem unary (op : UnaryOp) (h : operand.AllSound) (span : Span) :
    (Build.unary op operand span).AllSound := by
  refine ⟨⟨rfl, fun v hv κ _ key m w hw ↦ ?_, fun v hv ↦ ?_, trivial⟩, h⟩ <;>
    obtain ⟨a, ha, hv⟩ := bind_eq_some_iff.1 hv
  · obtain ⟨b, hb, hw⟩ := bind_eq_some_iff.1 hw
    obtain rfl := h.sound.honest a ha key m b hb
    exact Option.some.inj (hw.symm.trans hv)
  · rw [UnaryOp.type_compute? hv, h.sound.regular.constant a ha]
    rfl

theorem binary (op : BinaryOp) (hl : left.AllSound) (hr : right.AllSound) (span : Span) :
    (Build.binary op left right span).AllSound := by
  refine ⟨⟨rfl, fun v hv κ _ key m w hw ↦ ?_, fun v hv ↦ ?_, trivial⟩, hl, hr⟩
  · have hw : Build.binaryConstant op (left.value? key m) (right.value? key m) = some w := by
      obtain ⟨l, hleft, hw⟩ := bind_eq_some_iff.1 hw
      rw [hleft, ← BinaryOp.lazily?_eq]
      exact hw
    exact Build.binaryConstant_unique (fun a ha ↦ hl.sound.honest a ha key m)
      (fun a ha ↦ hr.sound.honest a ha key m) hv hw
  · exact Build.type_binaryConstant hl.sound.regular.constant hr.sound.regular.constant hv

theorem make {type : Ty} (htype : type.isVectorLike = true) (hx : x.AllSound) (hy : y.AllSound)
    (hz : z.AllSound) (span : Span) : (Build.make type x y z span).AllSound := by
  refine ⟨⟨⟨type, htype, rfl⟩, fun v hv κ _ key m w hw ↦ ?_, fun v hv ↦ ?_, trivial⟩, hx, hy, hz⟩ <;>
    obtain ⟨a, b, c, ha, hb, hc, rfl⟩ := Build.makeConstant_eq_some hv
  · obtain ⟨a', ha', hw⟩ := bind_eq_some_iff.1 hw
    obtain ⟨b', hb', hw⟩ := bind_eq_some_iff.1 hw
    obtain ⟨c', hc', rfl⟩ := map_eq_some_iff.1 hw
    obtain rfl := hx.sound.honest _ ha key m a' ha'
    obtain rfl := hy.sound.honest _ hb key m b' hb'
    obtain rfl := hz.sound.honest _ hc key m c' hc'
    rfl
  · exact Value.type_ofComponents htype _

theorem convert (h : operand.AllSound) (type : Ty) (span : Span) :
    (Build.convert operand type span).AllSound := by
  refine ⟨⟨⟨type, rfl⟩, fun v hv κ _ key m w hw ↦ ?_, fun v hv ↦ ?_, trivial⟩, h⟩ <;>
    obtain ⟨a, ha, hv⟩ := bind_eq_some_iff.1 hv
  · obtain ⟨b, hb, rfl⟩ := map_eq_some_iff.1 hw
    obtain rfl := h.sound.honest a ha key m b hb
    exact Build.convertConstant_eq_some hv
  · exact Build.type_convertConstant hv

theorem assign (x : Variable) (h : value.AllSound) (span : Span) :
    (Build.assign x value span).AllSound :=
  ⟨.of_unknown rfl rfl trivial, h⟩

theorem combined (x : Variable) (op : BinaryOp) (h : value.AllSound) (span : Span) :
    (Build.combined x op value span).AllSound :=
  .binary op (.read x span) h span

theorem nop (span : Span) : (Build.statement (.nop span)).AllSound :=
  ⟨.of_unknown rfl rfl trivial, trivial, trivial⟩

end Expr.AllSound

/-! ### Revisions -/

/-- A sound expression of the same type, the expression itself if nothing is said to have
changed. -/
structure Revised.Suits (r : Revised Expr) (e : Expr) : Prop where
  sound : r.node.AllSound
  type : r.node.type = e.type
  same (h : r.changed = false) : r.node = e

@[inherit_doc Revised.Suits]
structure Revised.SuitsAll (r : Revised (List Expr)) (es : List Expr) : Prop where
  sound : Expr.AllEach Sound Stmt.Regular r.node
  types : r.node.map Expr.type = es.map Expr.type
  same (h : r.changed = false) : r.node = es

theorem Revised.Suits.refl (h : e.AllSound) : (Revised.same e).Suits e := ⟨h, rfl, fun _ ↦ rfl⟩

theorem Revised.SuitsAll.cons (h : r.Suits e) (hs : rs.SuitsAll es) :
    (Revised.map₂ List.cons r rs).SuitsAll (e :: es) where
  sound := ⟨h.sound, hs.sound⟩
  types := congrArg₂ List.cons h.type hs.types
  same hc := by
    obtain ⟨hr, hrs⟩ := Bool.or_eq_false_iff.1 hc
    exact congrArg₂ List.cons (h.same hr) (hs.same hrs)

/-- A sound statement, the statement itself if nothing is said to have changed. -/
structure Revised.Stands (r : Revised Stmt) (s : Stmt) : Prop where
  sound : r.node.AllSound
  same (h : r.changed = false) : r.node = s

@[inherit_doc Revised.Stands]
structure Revised.StandsAll (r : Revised (List Stmt)) (items : List Stmt) : Prop where
  sound : Stmt.AllEach Sound Stmt.Regular r.node
  same (h : r.changed = false) : r.node = items

theorem Revised.Stands.refl (h : s.AllSound) : (Revised.same s).Stands s := ⟨h, fun _ ↦ rfl⟩

theorem Revised.Stands.new {t : Stmt} (h : t.AllSound) : (Revised.new t).Stands s :=
  ⟨h, Bool.noConfusion⟩

/-- What a routine takes depends on the types of the arguments alone. -/
theorem Callee.Takes.of_types {es' : List Expr} (h : callee.Takes es)
    (htypes : es'.map Expr.type = es.map Expr.type) : callee.Takes es' := by
  unfold Callee.Takes
  rw [htypes]
  exact h

/-! ### Lowering -/

/-- The expression has at least the values of another one. -/
def Expr.Inherits (e e' : Expr) : Prop :=
  ∀ (κ : Type) [DecidableEq κ] (key : Slot → κ) (m : Memory κ) (v : Value),
    e'.value? key m = some v → e.value? key m = some v

@[inherit_doc Inherits]
def Expr.AllInherit (es es' : List Expr) : Prop :=
  ∀ (κ : Type) [DecidableEq κ] (key : Slot → κ) (m : Memory κ) (vs : List Value),
    values? key m es' = some vs → values? key m es = some vs

section Inherits

variable {e' l l' r r' x x' y y' z z' : Expr} {es' : List Expr} {n n' : Note}

/-- An expression without a value leaves nothing to inherit. -/
theorem Expr.Inherits.of_valueless
    (h : ∀ {κ : Type} [DecidableEq κ] (key : Slot → κ) (m : Memory κ), e'.value? key m = none) :
    e.Inherits e' := by
  intro κ _ key m v hv
  rw [h] at hv
  cases hv

/-- The value of a literal is all that an honest expression can have. -/
theorem Expr.Inherits.literal (h : e.Honest) (hv : e.constant = some v) (hinherits : e.Inherits e')
    (span : Span) : (Build.literal v span).Inherits e' := by
  intro κ _ key m w hw
  rw [h v hv key m w (hinherits κ key m w hw)]
  rfl

theorem Expr.Inherits.unary (h : e.Inherits e') (op : UnaryOp) :
    (Expr.unary n op e).Inherits (.unary n' op e') := by
  intro κ _ key m v hv
  obtain ⟨a, ha, hv⟩ := bind_eq_some_iff.1 hv
  exact bind_eq_some_iff.2 ⟨a, h κ key m a ha, hv⟩

theorem Expr.Inherits.binary (hl : l.Inherits l') (hr : r.Inherits r') (op : BinaryOp) :
    (Expr.binary n op l r).Inherits (.binary n' op l' r') := by
  intro κ _ key m v hv
  obtain ⟨a, ha, hv⟩ := bind_eq_some_iff.1 hv
  refine bind_eq_some_iff.2 ⟨a, hl κ key m a ha, ?_⟩
  unfold BinaryOp.lazily? at hv ⊢
  by_cases hdecided : a.bool?.any op.decidedBy = true
  · rwa [if_pos hdecided] at hv ⊢
  · rw [if_neg hdecided] at hv ⊢
    obtain ⟨b, hb, hv⟩ := bind_eq_some_iff.1 hv
    exact bind_eq_some_iff.2 ⟨b, hr κ key m b hb, hv⟩

theorem Expr.Inherits.make (hx : x.Inherits x') (hy : y.Inherits y') (hz : z.Inherits z')
    (htype : n.type = n'.type) : (Expr.make n x y z).Inherits (.make n' x' y' z') := by
  intro κ _ key m v hv
  obtain ⟨a, ha, hv⟩ := bind_eq_some_iff.1 hv
  obtain ⟨b, hb, hv⟩ := bind_eq_some_iff.1 hv
  obtain ⟨c, hc, hv⟩ := map_eq_some_iff.1 hv
  rw [value?, hx κ key m a ha, hy κ key m b hb, hz κ key m c hc, htype]
  exact congrArg some hv

theorem Expr.Inherits.convert (h : e.Inherits e') (htype : n.type = n'.type) :
    (Expr.convert n e).Inherits (.convert n' e') := by
  intro κ _ key m v hv
  obtain ⟨a, ha, hv⟩ := map_eq_some_iff.1 hv
  rw [value?, h κ key m a ha, htype]
  exact congrArg some hv

theorem Expr.AllInherit.call (h : AllInherit es es') (callee : Callee) :
    (Expr.call n callee es).Inherits (.call n' callee es') := by
  intro κ _ key m v hv
  obtain ⟨evaluator, hevaluator, hv⟩ := bind_eq_some_iff.1 hv
  obtain ⟨vs, hvs, hv⟩ := bind_eq_some_iff.1 hv
  exact bind_eq_some_iff.2 ⟨evaluator, hevaluator,
    bind_eq_some_iff.2 ⟨vs, h κ key m vs hvs, hv⟩⟩

theorem Expr.AllInherit.cons (h : e.Inherits e') (hs : AllInherit es es') :
    AllInherit (e :: es) (e' :: es') := by
  intro κ _ key m vs hvs
  obtain ⟨v, hv, hvs⟩ := bind_eq_some_iff.1 hvs
  obtain ⟨rest, hrest, rfl⟩ := map_eq_some_iff.1 hvs
  rw [values?, h κ key m v hv, hs κ key m rest hrest]
  rfl

/-- An expression that is certain of its value stays so with whatever inherits its values. -/
theorem Expr.Certain.of_inherits (h : e'.Certain) (hinherits : e.Inherits e')
    (hnote : e.note = e'.note) : e.Certain := by
  intro v hv κ _ key m
  have hv : e'.constant = some v := by
    unfold constant
    rwa [← hnote]
  exact hinherits κ key m v (h v hv key m)

theorem Expr.Certain.honest (h : e.Certain) : e.Honest := by
  intro v hv κ _ key m w hw
  exact Option.some.inj (hw.symm.trans (h v hv key m))

/-- Known arguments are the values that honest arguments have. -/
theorem Expr.values?_eq_of_constants {vs ws : List Value} {κ : Type} [DecidableEq κ]
    {key : Slot → κ} {m : Memory κ} (hes : Expr.AllEach Sound Stmt.Regular es)
    (hvs : es.mapM constant = some vs) (hws : values? key m es = some ws) : ws = vs := by
  induction es generalizing vs ws with
  | nil =>
    cases hvs
    cases hws
    rfl
  | cons e rest ih =>
    rw [List.mapM_cons] at hvs
    obtain ⟨v, hv, hvs⟩ := bind_eq_some_iff.1 hvs
    obtain ⟨vs', hvs', hvs⟩ := bind_eq_some_iff.1 hvs
    obtain ⟨w, hw, hws⟩ := bind_eq_some_iff.1 hws
    obtain ⟨ws', hws', rfl⟩ := map_eq_some_iff.1 hws
    cases hvs
    rw [hes.1.node.honest v hv key m w hw, ih hes.2 hvs' hws']

end Inherits

/-- A suitable expression that has at least the values of the expression that it stands for. -/
structure Revised.Serves (r : Revised Expr) (e : Expr) : Prop extends r.Suits e where
  inherits : r.node.Inherits e

@[inherit_doc Revised.Serves]
structure Revised.ServesAll (r : Revised (List Expr)) (es : List Expr) : Prop
    extends r.SuitsAll es where
  inherit : AllInherit r.node es

theorem Revised.Serves.refl (h : e.AllSound) : (Revised.same e).Serves e :=
  ⟨.refl h, fun _ _ _ _ _ hv ↦ hv⟩

theorem Revised.ServesAll.cons (h : r.Serves e) (hs : rs.ServesAll es) :
    (Revised.map₂ List.cons r rs).ServesAll (e :: es) :=
  ⟨.cons h.toSuits hs.toSuitsAll, .cons h.inherits hs.inherit⟩

namespace Lower

variable {n : Note}

theorem serves_settle {kept derived : Expr} {changed : Bool} (he : e.AllSound)
    (hkept : changed = false → kept = e) (hderived : derived.AllSound)
    (htype : derived.type = e.type) (hinherits : derived.Inherits e) :
    (settle e.note changed kept derived).Serves e := by
  refine settle_cases (P := (·.Serves e)) (fun value hvalue ↦ ?_) (fun hc ↦ ?_)
    fun _ ↦ ⟨⟨hderived, htype, Bool.noConfusion⟩, hinherits⟩
  · rcases or_eq_some_iff.1 hvalue with hnote | ⟨-, hconstant⟩
    · cases changed with
      | true => cases hnote
      | false =>
        exact ⟨⟨.literal value _, he.sound.regular.constant value hnote, Bool.noConfusion⟩,
          .literal he.sound.honest hnote (fun _ _ _ _ _ hv ↦ hv) _⟩
    · refine ⟨⟨.literal value _, ?_, Bool.noConfusion⟩,
        .literal hderived.sound.honest hconstant hinherits _⟩
      exact (hderived.sound.regular.constant value hconstant).trans htype
  · rw [hkept hc]
    exact .refl he

theorem serves_foldCall {arguments : Revised (List Expr)} (he : (Expr.call n callee es).AllSound)
    (harguments : arguments.ServesAll es) (h : foldCall n callee arguments = .ok r) :
    r.Serves (.call n callee es) := by
  obtain ⟨hcertain, hcomputes, htakes⟩ := he.sound.regular.shape
  have hinherits : (Expr.call n callee arguments.node).Inherits (.call n callee es) :=
    harguments.inherit.call callee
  have hcertain' : (Expr.call n callee arguments.node).Certain := hcertain.of_inherits hinherits rfl
  obtain rfl | ⟨b, evaluator, values, value, hb, hevaluator, hvalues, hvalue, rfl⟩ :=
    foldCall_cases h
  · refine ⟨⟨⟨⟨he.sound.typed, hcertain'.honest, he.sound.regular.constant, hcertain', hcomputes, ?_⟩,
      harguments.sound⟩, rfl, fun hc ↦ congrArg (Expr.call n callee) (harguments.same hc)⟩, hinherits⟩
    exact htakes.of_types harguments.types
  · have hmem : evaluator ∈ callee.builtin?.bind Builtin.evaluator := by simp [hb, hevaluator]
    refine ⟨⟨.literal value _, ?_, Bool.noConfusion⟩, fun κ _ key m w hw ↦ ?_⟩
    · exact (hcomputes evaluator hmem values value hvalue).trans he.sound.typed.symm
    · -- the arguments have no values but the known ones
      obtain ⟨evaluator', hmem', hw⟩ := bind_eq_some_iff.1 (hinherits κ key m w hw)
      obtain ⟨values', hvalues', hw⟩ := bind_eq_some_iff.1 hw
      cases hmem.symm.trans hmem'
      rw [values?_eq_of_constants harguments.sound hvalues hvalues'] at hw
      exact hvalue.symm.trans hw

theorem sound_jumpIf {condition : Expr} {target : Label} {sense : Bool} {span : Span}
    (h : condition.AllSound) : (jumpIf condition target sense span).AllSound :=
  jumpIf_cases (P := Stmt.AllSound) ⟨trivial, trivial⟩ ⟨trivial, trivial⟩ ⟨trivial, h⟩

/-- Expressions become sound ones of their types that have their values, and statements become sound
ones. -/
def serveScheme : Scheme where
  supply := Supplies .all
  expr e _ r _ := e.AllSound → r.Serves e
  exprs es _ r _ := Expr.AllEach Sound Stmt.Regular es → r.ServesAll es
  stmt s _ r _ := s.AllSound → r.Stands s
  stmts items _ r _ := Stmt.AllEach Sound Stmt.Regular items → r.StandsAll items

theorem lawful_serveScheme : serveScheme.Lawful where
  atom _ _ he := .refl he
  unary {n op _ _ _ _} h he := by
    have ho := h he.2
    refine serves_settle he (fun hc ↦ by rw [ho.same hc]) (.unary op ho.sound n.span) ?_
      (ho.inherits.unary op)
    exact (congrArg op.resultType ho.type).trans he.sound.typed.symm
  binary {n op _ _ _ _ _ _ _} hleft hright he := by
    have hl := hleft he.2.1
    have hr := hright he.2.2
    refine serves_settle he (fun hc ↦ ?_) (.binary op hl.sound hr.sound n.span) ?_
      (hl.inherits.binary hr.inherits op)
    · obtain ⟨hlc, hrc⟩ := Bool.or_eq_false_iff.1 hc
      rw [hl.same hlc, hr.same hrc]
    · exact (congrArg₂ op.resultType hl.type hr.type).trans he.sound.typed.symm
  make {n _ _ _ _ _ _ _ _ _ _} hfirst hsecond hthird he := by
    have hx := hfirst he.2.1
    have hy := hsecond he.2.2.1
    have hz := hthird he.2.2.2
    refine serves_settle he (fun hc ↦ ?_)
      (.make he.sound.vectorLike hx.sound hy.sound hz.sound n.span) rfl
      (hx.inherits.make hy.inherits hz.inherits rfl)
    obtain ⟨hxyc, hzc⟩ := Bool.or_eq_false_iff.1 hc
    obtain ⟨hxc, hyc⟩ := Bool.or_eq_false_iff.1 hxyc
    rw [hx.same hxc, hy.same hyc, hz.same hzc]
  call h hr he := serves_foldCall he (h he.2) hr
  convert {n _ _ _ _} h he := by
    have ho := h he.2
    exact serves_settle he (fun hc ↦ by rw [ho.same hc]) (.convert ho.sound n.type n.span) rfl
      (ho.inherits.convert rfl)
  segment {n _ _ _ _} h he := by
    refine ⟨⟨⟨?_, (h he.2).sound⟩, rfl, fun hc ↦ ?_⟩, .of_valueless fun _ _ ↦ rfl⟩
    · exact he.sound.of_note rfl he.sound.typed trivial fun _ _ ↦ rfl
    · exact congrArg (Expr.segment n) ((h he.2).same hc)
  assign {n x _ _ _ _} h he := by
    refine ⟨⟨⟨?_, (h he.2).sound⟩, rfl, fun hc ↦ ?_⟩, .of_valueless fun _ _ ↦ rfl⟩
    · exact he.sound.of_note rfl he.sound.typed trivial fun _ _ ↦ rfl
    · exact congrArg (Expr.assign n x) ((h he.2).same hc)
  compound {n x op _ _ _ _} h he := by
    refine ⟨⟨?_, he.sound.typed.symm, Bool.noConfusion⟩, .of_valueless fun _ _ ↦ rfl⟩
    exact .assign x (.combined x op (h he.2).sound n.span) n.span
  statement {n _ _ _ _} h he := by
    refine ⟨⟨⟨?_, (h he.2).sound⟩, rfl, fun hc ↦ ?_⟩, .of_valueless fun _ _ ↦ rfl⟩
    · exact he.sound.of_note rfl he.sound.typed trivial fun _ _ ↦ rfl
    · exact congrArg (Expr.statement n) ((h he.2).same hc)
  nil _ _ := ⟨⟨trivial, rfl, fun _ ↦ rfl⟩, fun _ _ _ _ _ hvs ↦ hvs⟩
  cons h hs hes := .cons (h hes.1) (hs hes.2)
  atomStmt _ _ hs := .refl hs
  block h hs := ⟨⟨trivial, (h hs.2).sound⟩, fun hc ↦ congrArg (Stmt.block _) ((h hs.2).same hc)⟩
  define h hs :=
    ⟨⟨trivial, (h hs.2).sound⟩, fun hc ↦ congrArg (Stmt.define _ _ _) ((h hs.2).same hc)⟩
  store h hs := ⟨⟨trivial, (h hs.2).sound⟩, fun hc ↦ congrArg (Stmt.assign _ _) ((h hs.2).same hc)⟩
  combine {span x op _ _ _ _} h hs :=
    .new ⟨trivial, AllSound.combined x op (h hs.2).sound span⟩
  retValue h hs :=
    ⟨⟨trivial, (h hs.2).sound⟩, fun hc ↦ congrArg (Stmt.retValue _) ((h hs.2).same hc)⟩
  expression h hs :=
    ⟨⟨trivial, (h hs.2).sound⟩, fun hc ↦ congrArg (Stmt.expression _) ((h hs.2).same hc)⟩
  invoke {span callee es result _ _ _} h hs := by
    have htakes : callee.Takes es := hs.1
    exact ⟨⟨htakes.of_types (h hs.2).types, (h hs.2).sound⟩,
      fun hc ↦ congrArg (Stmt.call span callee · result) ((h hs.2).same hc)⟩
  gotoIf h hs := .new (sound_jumpIf (h hs.2).sound)
  gotoOn h hs :=
    ⟨⟨trivial, (h hs.2).sound⟩, fun hc ↦ congrArg (Stmt.gotoOn _ _ _) ((h hs.2).same hc)⟩
  ifThen _ hc hb hs := .new ⟨trivial, sound_jumpIf (hc hs.2.1).sound, ⟨trivial, trivial⟩,
    (hb hs.2.2).sound, ⟨trivial, trivial⟩, ⟨trivial, trivial⟩, trivial⟩
  ifElse _ hc hb ha hs := .new ⟨trivial, sound_jumpIf (hc hs.2.1).sound, ⟨trivial, trivial⟩,
    (hb hs.2.2.1).sound, ⟨trivial, trivial⟩, ⟨trivial, trivial⟩, ⟨trivial, trivial⟩,
    ⟨trivial, trivial⟩, (ha hs.2.2.2).sound, ⟨trivial, trivial⟩, ⟨trivial, trivial⟩, trivial⟩
  whileLoop _ hc hb hs := .new ⟨trivial, ⟨trivial, trivial⟩, sound_jumpIf (hc hs.2.1).sound,
    (hb hs.2.2).sound, ⟨trivial, trivial⟩, ⟨trivial, trivial⟩, trivial⟩
  doWhile _ hb hc hs := .new ⟨trivial, ⟨trivial, trivial⟩, (hb hs.2.2).sound, ⟨trivial, trivial⟩,
    sound_jumpIf (hc hs.2.1).sound, ⟨trivial, trivial⟩, trivial⟩
  on _ ha hb hs := .new ⟨trivial, ⟨trivial, (ha hs.2.1).sound⟩, ⟨trivial, trivial⟩,
    ⟨trivial, trivial⟩, (hb hs.2.2).sound, ⟨trivial, trivial⟩, ⟨trivial, trivial⟩, trivial⟩
  nilStmts _ _ := ⟨trivial, fun _ ↦ rfl⟩
  consStmts h hs hitems := by
    refine ⟨⟨(h hitems.1).sound, (hs hitems.2).sound⟩, fun hc ↦ ?_⟩
    obtain ⟨hsc, hrestc⟩ := Bool.or_eq_false_iff.1 hc
    exact congrArg₂ List.cons ((h hitems.1).same hsc) ((hs hitems.2).same hrestc)

/-- A statement is lowered to a sound one. -/
theorem keeps_stands (hs : s.AllSound) : Keeps .all (·.Stands s) (stmt s) := by
  intro σ r σ' hσ hrun
  exact ((lawful_serveScheme.from_stmt s σ).of_run hσ hrun).imp_right fun h ↦ h hs

end Lower

/-- A sound body is sound when it has been lowered. -/
theorem Lowered.allSound {routine : Routine} {body : Stmt} {l : Lowered} (hbody : body.AllSound)
    (hl : lower routine body = .ok l) : l.body.AllSound := by
  refine ⟨trivial, Stmt.allEach_iff.2 fun s hs ↦ ?_⟩
  obtain ⟨r, σ, hr, hmem | rfl⟩ := Lowered.mem_statements hl hs
  · obtain ⟨-, hr⟩ := Lower.keeps_stands hbody { scope := routine.name } r σ
      (fun _ _ _ ↦ trivial) hr
    exact hr.sound.of_mem_flatten hmem
  · exact ⟨trivial, trivial⟩

end Wirescript
