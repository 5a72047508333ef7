import Wirescript.Proofs.Callees

/-!
# Jumps of flat code

Flat code is jump-closed if it defines no label twice and every jump names a label that it defines.
A script without labels and jumps of its own becomes such code: lowering takes each label from a
supply that never hands out one twice, and the jumps around a construct name the labels that were
handed out for it. Removal of dead code keeps what a jump that stays needs.
-/

namespace Wirescript

open Stmt
open List

variable {sense : Bool} {event : Event} {condition : Expr} {l : Label} {σ : LabelSupply}
  {arguments : List Expr} {made : List Label} {rest : List Stmt} {r : Routine} {s : Stmt}

namespace LabelSupply

/-- The labels are different and handed out between the two states, and only kinds of one sort were
asked for. -/
structure Draws (K : String → Prop) (σ : LabelSupply) (labels : List Label) (σ' : LabelSupply) :
    Prop extends Fresh σ labels σ' where
  kinds (kind : String) (h : ¬ K kind) : σ'.count kind = σ.count kind

namespace Draws

variable {K : String → Prop} {σ₁ σ₂ : LabelSupply} {labels labels' : List Label}

theorem nil (σ : LabelSupply) : Draws K σ [] σ := ⟨.nil σ, fun _ _ ↦ rfl⟩

theorem append (h : Draws K σ labels σ₁) (h' : Draws K σ₁ labels' σ₂) :
    Draws K σ (labels ++ labels') σ₂ :=
  ⟨h.toFresh.append h'.toFresh, fun kind hkind ↦ (h'.kinds kind hkind).trans (h.kinds kind hkind)⟩

theorem perm (h : Draws K σ labels σ₁) (hperm : labels'.Perm labels) : Draws K σ labels' σ₁ :=
  ⟨h.toFresh.perm hperm, h.kinds⟩

theorem single (σ : LabelSupply) (kind : String) (hkind : K kind := by decide)
    (hdigits : DigitFree kind := by decide) : Draws K σ [(σ.fresh kind).1] (σ.fresh kind).2 where
  toFresh := .single σ kind hdigits
  kinds other hother := by
    rw [count_fresh, if_neg]
    rintro rfl
    exact hother hkind

/-- Every label is of one of the kinds. -/
theorem exists_kind (h : Draws K σ labels σ₁) (hl : l ∈ labels) :
    ∃ kind n, K kind ∧ DigitFree kind ∧ l = .numbered σ.scope kind n := by
  obtain ⟨kind, n, hdigits, rfl, hlow, hhigh⟩ := h.made l hl
  refine ⟨kind, n, by_contra fun hkind ↦ ?_, hdigits, rfl⟩
  have hcount := h.kinds kind hkind
  omega

end Draws

end LabelSupply

namespace Stmt

/-- The labels that the jumps of code name, in order. -/
def targets (code : List Stmt) : List Label := code.filterMap target?

@[simp] theorem targets_nil : targets [] = [] := rfl

@[simp] theorem targets_append (xs ys : List Stmt) :
    targets (xs ++ ys) = targets xs ++ targets ys := filterMap_append

theorem targets_cons (s : Stmt) (rest : List Stmt) :
    targets (s :: rest) = s.target?.toList ++ targets rest := by
  rw [targets, filterMap_cons]
  cases s.target? <;> rfl

/-- Every label is defined at most once, and every jump names one that is defined. -/
structure JumpClosed (code : List Stmt) : Prop where
  nodup : (labels code).Nodup
  defined : targets code ⊆ labels code

/-- The statement is neither a label nor a jump, and it is of a kind. -/
def IsStraight (P : Stmt → Prop) (s : Stmt) : Prop := s.label? = none ∧ s.target? = none ∧ P s

/-- Control runs through the code from its beginning to its end. -/
def Straight (P : Stmt → Prop) (code : List Stmt) : Prop := ∀ s ∈ code, s.IsStraight P

namespace Straight

variable {P : Stmt → Prop} {code code' : List Stmt}

theorem nil : Straight P [] := forall_mem_nil _

theorem cons (h : Straight P code) (hs : s.IsStraight P) : Straight P (s :: code) :=
  forall_mem_cons.2 ⟨hs, h⟩

theorem labels (h : Straight P code) : Stmt.labels code = [] :=
  filterMap_eq_nil_iff.2 fun s hs ↦ (h s hs).1

theorem targets (h : Straight P code) : Stmt.targets code = [] :=
  filterMap_eq_nil_iff.2 fun s hs ↦ (h s hs).2.1

theorem each (h : Straight P code) : ∀ s ∈ code, P s := fun s hs ↦ (h s hs).2.2

end Straight

/-- The labels of the code are those that were handed out, all of one sort, its jumps stay inside,
and its statements are of a kind. -/
structure Numbers (K : String → Prop) (P : Stmt → Prop) (σ : LabelSupply) (code : List Stmt)
    (σ' : LabelSupply) : Prop where
  draws : σ.Draws K (labels code) σ'
  defined : targets code ⊆ labels code
  each : ∀ s ∈ code, P s

namespace Numbers

variable {K : String → Prop} {P : Stmt → Prop} {σ₁ σ₂ : LabelSupply} {code code' : List Stmt}

theorem straight (h : Straight P code) : Numbers K P σ code σ where
  draws := by
    rw [h.labels]
    exact .nil σ
  defined := by
    rw [h.targets]
    exact nil_subset _
  each := h.each

theorem nil (σ : LabelSupply) : Numbers K P σ [] σ := straight .nil

theorem append (h : Numbers K P σ code σ₁) (h' : Numbers K P σ₁ code' σ₂) :
    Numbers K P σ (code ++ code') σ₂ where
  draws := by
    rw [labels_append]
    exact h.draws.append h'.draws
  defined := by
    rw [targets_append, labels_append]
    exact append_subset_append h.defined h'.defined
  each := forall_mem_append.2 ⟨h.each, h'.each⟩

/-- Code with statements around it that define labels of their own and jump to them. -/
theorem around (h : Numbers K P σ code σ₁) (hmade : σ₁.Draws K made σ₂)
    (hlabels : (labels code').Perm (labels code ++ made))
    (hcode : ∀ s ∈ code', s ∈ code ∨ (∀ l ∈ s.target?, l ∈ made) ∧ P s) :
    Numbers K P σ code' σ₂ where
  draws := (h.draws.append hmade).perm hlabels
  defined l hl := by
    refine hlabels.mem_iff.2 (mem_append.2 ?_)
    obtain ⟨s, hs, hl⟩ := mem_filterMap.1 hl
    rcases hcode s hs with hs | hs
    · exact .inl (h.defined (mem_filterMap.2 ⟨s, hs, hl⟩))
    · exact .inr (hs.1 l hl)
  each s hs := (hcode s hs).elim (h.each s) And.right

end Numbers

end Stmt

/-! ### Sources without labels -/

/-- The statements that are wrapped into expressions. -/
def wrapVisitor : Visitor Stmt where
  expr
    | .statement _ body => [body]
    | _ => []

/-- The labels that are defined or jumped to. -/
def labelVisitor : Visitor Label where
  stmt
    | .label _ l | .goto _ l | .gotoIf _ l _ _ | .gotoOn _ l _ _ | .rollback _ l => [l]
    | _ => []

/-- There are no labels, no jumps and no statements inside expressions. -/
structure Stmt.Jumpless (s : Stmt) : Prop where
  wrapped : s.visit wrapVisitor = []
  labels : s.visit labelVisitor = []

/-- Nothing in the parts of a construct is wrapped or labelled. -/
def Stmt.JumplessBelow : Stmt → Prop
  | .ifThen _ condition body | .whileLoop _ condition body | .doWhile _ body condition =>
    condition.visit wrapVisitor = [] ∧ body.Jumpless
  | .ifElse _ condition body alternative =>
    condition.visit wrapVisitor = [] ∧ body.Jumpless ∧ alternative.Jumpless
  | .on _ _ arguments body => Expr.visitAll wrapVisitor arguments = [] ∧ body.Jumpless
  | _ => True

theorem Stmt.Jumpless.below (h : s.Jumpless) : s.JumplessBelow := by
  obtain ⟨hw, hl⟩ := h
  cases s <;> simp only [visit, append_eq_nil_iff] at hw hl
  case ifThen | whileLoop | on => exact ⟨hw.1.2.1, hw.1.2.2, hl.1.2.2⟩
  case doWhile => exact ⟨hw.1.2.2, hw.1.2.1, hl.1.2.1⟩
  case ifElse => exact ⟨hw.1.2.1.1, ⟨hw.1.2.1.2, hl.1.2.1.2⟩, hw.1.2.2, hl.1.2.2⟩
  all_goals trivial

/-! ### Lowering -/

namespace Lower

/-- The expression wraps no statements. -/
abbrev Plain (r : Revised Expr) : Prop := r.node.visit wrapVisitor = []

theorem plain_settle {n : Note} {changed : Bool} {kept derived : Expr}
    (hkept : kept.visit wrapVisitor = []) (hderived : derived.visit wrapVisitor = []) :
    Plain (settle n changed kept derived) :=
  settle_cases (P := Plain) (fun _ _ ↦ rfl) (fun _ ↦ hkept) fun _ ↦ hderived

/-- The kinds of labels that lowering makes up: all but the one that extraction makes up. -/
def Kind (kind : String) : Prop := kind ∈ Label.kinds ∧ kind ≠ "skip"

instance (kind : String) : Decidable (Kind kind) := inferInstanceAs (Decidable (_ ∧ _))

/-- Code that was made from jumpless statements. Nothing is wrapped into its expressions. -/
abbrev Numbers (σ : LabelSupply) (code : List Stmt) (σ' : LabelSupply) : Prop :=
  Stmt.Numbers Kind (fun s ↦ s.visit wrapVisitor = []) σ code σ'

theorem Numbers.single (hlabel : s.label? = none) (htarget : s.target? = none)
    (hplain : s.visit wrapVisitor = []) : Numbers σ [s] σ :=
  .straight (Straight.nil.cons ⟨hlabel, htarget, hplain⟩)

/-- A statement without parts, for one without parts: it is neither a label nor a jump, and it returns
only where the other does. -/
structure Leaf (s s' : Stmt) : Prop where
  label? : s'.label? = none
  target? : s'.target? = none
  plain : s'.visit wrapVisitor = []
  leaves (h : Leaves [s']) : Leaves [s]

/-- A statement around the parts of a construct: a label or a mark, or a jump to one of the labels. -/
def Frame (made : List Label) : Stmt → Prop
  | .label .. | .hint .. | .nop _ => True
  | .goto _ l => l ∈ made
  | .gotoIf _ l condition _ => l ∈ made ∧ condition.visit wrapVisitor = []
  | _ => False

/-- The statements that a statement is made of. -/
def parts : Stmt → List Stmt
  | .block _ items => items
  | .ifThen _ _ body | .whileLoop _ _ body | .doWhile _ body _ | .on _ _ _ body => [body]
  | .ifElse _ _ body alternative => [body, alternative]
  | _ => []

/-- The code that lowering makes of statements, and the supply of labels before and after. A construct
has two groups of parts, either of which may be empty. -/
inductive Lowers : LabelSupply → List Stmt → List Stmt → LabelSupply → Prop
  | nil {σ : LabelSupply} : Lowers σ [] [] σ
  | leaf {s s' : Stmt} {rest code : List Stmt} {σ σ' : LabelSupply}
      (hs : Leaf s s') (h : Lowers σ rest code σ') : Lowers σ (s :: rest) (s' :: code) σ'
  | framed {s : Stmt} {first second rest code₁ code₂ code : List Stmt} {σ σ₁ σ₂ σ₃ σ' : LabelSupply}
      (pre mid post : List Stmt) (hs : parts s = first ++ second)
      (hfirst : Lowers σ first code₁ σ₁) (hsecond : Lowers σ₁ second code₂ σ₂)
      (hmade : σ₂.Draws Kind (Stmt.labels (pre ++ mid ++ post)) σ₃)
      (hframe : ∀ t ∈ pre ++ mid ++ post, Frame (Stmt.labels (pre ++ mid ++ post)) t)
      (h : Lowers σ₃ rest code σ') :
      Lowers σ (s :: rest) ((pre ++ code₁ ++ mid) ++ (code₂ ++ post) ++ code) σ'
  | handler {span : Span} {event : Event} {arguments arguments' : List Expr} {body : Stmt}
      {rest code₁ code : List Stmt} {σ σ₁ σ₂ σ' : LabelSupply}
      (l after : Label) (hplain : Expr.visitAll wrapVisitor arguments' = [])
      (hbody : Lowers σ [body] code₁ σ₁) (hmade : σ₁.Draws Kind [l, after] σ₂)
      (h : Lowers σ₂ rest code σ') :
      Lowers σ (.on span event arguments body :: rest)
        ((.gotoOn span l event arguments' :: .goto span after :: .label span l :: code₁
          ++ [.rollback span after, .label span after]) ++ code) σ'

section Frame

variable {span : Span}

@[simp] theorem labels_gotoOn :
    Stmt.labels (.gotoOn span l event arguments :: rest) = Stmt.labels rest := rfl

@[simp] theorem labels_rollback : Stmt.labels (.rollback span l :: rest) = Stmt.labels rest := rfl

@[simp] theorem label?_jumpIf : (jumpIf condition l sense span).label? = none :=
  jumpIf_cases (P := (·.label? = none)) rfl rfl rfl

@[simp] theorem labels_jumpIf :
    Stmt.labels (jumpIf condition l sense span :: rest) = Stmt.labels rest :=
  labels_cons_of_none label?_jumpIf rest

theorem Frame.stays (h : Frame made s) :
    (∀ l ∈ s.target?, l ∈ made) ∧ s.visit wrapVisitor = [] := by
  cases s
  case goto => exact ⟨fun l hl ↦ Option.some.inj hl ▸ h, rfl⟩
  case gotoIf => exact ⟨fun l hl ↦ Option.some.inj hl ▸ h.1, append_eq_nil_iff.2 ⟨h.2, rfl⟩⟩
  case label | hint | nop => exact ⟨by simp [target?], rfl⟩
  all_goals exact h.elim

@[simp] theorem frame_label : Frame made (.label span l) := trivial

@[simp] theorem frame_hint {h : Hint} : Frame made (.hint span h) := trivial

@[simp] theorem frame_goto : Frame made (.goto span l) ↔ l ∈ made := .rfl

theorem frame_jumpIf (hcondition : condition.visit wrapVisitor = []) (hl : l ∈ made) :
    Frame made (jumpIf condition l sense span) :=
  jumpIf_cases (P := Frame made) hl trivial ⟨hl, hcondition⟩

end Frame

variable {σ' : LabelSupply}

/-- The labels of lowered code are those that are made up for it. -/
theorem Lowers.numbers {items code : List Stmt} (h : Lowers σ items code σ') :
    Numbers σ code σ' := by
  induction h with
  | nil => exact .nil _
  | leaf hs _ ih => exact Numbers.append (Numbers.single hs.label? hs.target? hs.plain) ih
  | framed pre mid post _ _ _ hmade hframe _ ih₁ ih₂ ih =>
    refine .append (.around (.append ih₁ ih₂) hmade (perm_iff_count.2 fun l ↦ ?_)
      fun t ht ↦ ?_) ih
    · simp only [labels_append, count_append]
      omega
    · have hstays (hmem : t ∈ pre ++ mid ++ post) := (hframe t hmem).stays
      simp only [mem_append] at ht hstays ⊢
      tauto
  | handler l after hplain _ hmade _ ih₁ ih =>
    refine .append (.around ih₁ hmade (perm_iff_count.2 fun l ↦ ?_) fun t ht ↦ ?_) ih
    · simp [count_cons]
      omega
    · simp only [cons_append, mem_cons, mem_append, not_mem_nil,
        or_false] at ht
      rcases ht with rfl | rfl | rfl | ht | rfl | rfl
      · exact .inr ⟨by simp [target?], append_eq_nil_iff.2 ⟨hplain, rfl⟩⟩
      · exact .inr ⟨by simp [target?], rfl⟩
      · exact .inr ⟨by simp [target?], rfl⟩
      · exact .inl ht
      · exact .inr ⟨by simp [target?], rfl⟩
      · exact .inr ⟨by simp [target?], rfl⟩

/-- Expressions that wrap no statements are lowered without labels. Jumpless statements become code
that is told by `Lowers`, in front of more such code. -/
def flatScheme : Scheme where
  expr e σ r σ' := e.visit wrapVisitor = [] → σ' = σ ∧ Plain r
  exprs es σ r σ' := Expr.visitAll wrapVisitor es = [] →
    σ' = σ ∧ Expr.visitAll wrapVisitor r.node = []
  stmt s σ r σ' := s.Jumpless → ∀ {rest code σ''}, Lowers σ' rest code σ'' →
    Lowers σ (s :: rest) (r.node.flatten ++ code) σ''
  stmts items σ r σ' := visitAll wrapVisitor items = [] →
    visitAll labelVisitor items = [] → Lowers σ items (flattenAll r.node) σ'

/-- A statement with nothing but expressions in it becomes one. -/
theorem flat_leaf {s t : Stmt} {changed : Bool} {inner inner' : List Stmt}
    (h : inner = [] → σ' = σ ∧ inner' = []) (hs : s.visit wrapVisitor = inner ++ [])
    (ht : t.visit wrapVisitor = inner' ++ []) (hflat : t.flatten = [t]) (hlabel : t.label? = none)
    (htarget : t.target? = none) (hleaves : Leaves [t] → Leaves [s]) :
    flatScheme.stmt s σ ⟨t, changed⟩ σ' := by
  intro hjumpless rest code σ'' hrest
  obtain ⟨rfl, rfl⟩ := h (append_eq_nil_iff.1 (hs ▸ hjumpless.wrapped)).1
  rw [hflat]
  exact .leaf ⟨hlabel, htarget, ht, hleaves⟩ hrest

theorem lawful_flatScheme : flatScheme.Lawful where
  unary h he := (h he).imp_right fun ho ↦ plain_settle ho ho
  binary {_ _ e f _ l _ r _} hleft hright he := by
    have hboth : e.visit wrapVisitor ++ f.visit wrapVisitor = [] := he
    obtain ⟨he, hf⟩ := append_eq_nil_iff.1 hboth
    obtain ⟨rfl, hl⟩ := hleft he
    obtain ⟨rfl, hr⟩ := hright hf
    have hnode : l.node.visit wrapVisitor ++ r.node.visit wrapVisitor = [] :=
      append_eq_nil_iff.2 ⟨hl, hr⟩
    exact ⟨rfl, plain_settle hnode hnode⟩
  make {_ e f g _ x _ y _ z _} hfirst hsecond hthird he := by
    have hall : e.visit wrapVisitor ++ f.visit wrapVisitor ++ g.visit wrapVisitor = [] := he
    obtain ⟨hef, hg⟩ := append_eq_nil_iff.1 hall
    obtain ⟨he, hf⟩ := append_eq_nil_iff.1 hef
    obtain ⟨rfl, hx⟩ := hfirst he
    obtain ⟨rfl, hy⟩ := hsecond hf
    obtain ⟨rfl, hz⟩ := hthird hg
    have hnode : x.node.visit wrapVisitor ++ y.node.visit wrapVisitor ++ z.node.visit wrapVisitor
        = [] := by
      rw [hx, hy, hz]
      rfl
    exact ⟨rfl, plain_settle hnode hnode⟩
  call h hr he := by
    obtain ⟨rfl, hes⟩ := h he
    obtain rfl | ⟨_, _, _, _, -, -, -, -, rfl⟩ := foldCall_cases hr
    · exact ⟨rfl, hes⟩
    · exact ⟨rfl, rfl⟩
  convert h he := (h he).imp_right fun ho ↦ plain_settle ho ho
  statement _ he := by cases he
  cons h hs hes := by
    obtain ⟨he, hrest⟩ := append_eq_nil_iff.1 hes
    obtain ⟨rfl, hr⟩ := h he
    exact (hs hrest).imp_right fun hrs ↦ append_eq_nil_iff.2 ⟨hr, hrs⟩
  atomStmt {s} h _ hs _ _ _ hrest := by
    cases s <;> first | exact .leaf ⟨rfl, rfl, rfl, id⟩ hrest | cases hs.labels | cases h
  block {span items _ r _} h hs rest code _ hrest := by
    have hitems := h (append_eq_nil_iff.1 hs.wrapped).1 (append_eq_nil_iff.1 hs.labels).1
    have hcode : Lowers _ (.block span items :: rest) _ _ :=
      .framed [] [] [] (append_nil items).symm hitems .nil (.nil _) (by simp) hrest
    show Lowers _ _ (flattenAll r.node ++ code) _
    simpa using hcode
  define h := flat_leaf h rfl rfl rfl rfl rfl id
  store h := flat_leaf h rfl rfl rfl rfl rfl id
  combine h := flat_leaf h rfl rfl rfl rfl rfl id
  retValue h := flat_leaf h rfl rfl rfl rfl rfl id
  expression h := flat_leaf h rfl rfl rfl rfl rfl id
  invoke h := flat_leaf h rfl rfl rfl rfl rfl id
  gotoIf _ hs := absurd hs.labels (by simp [visit, labelVisitor])
  gotoOn _ hs := absurd hs.labels (by simp [visit, labelVisitor])
  ifThen {span e s _ c _ b σ₂} _ hcondition hb hs rest code _ hrest := by
    obtain ⟨rfl, hplain⟩ := hcondition hs.below.1
    have hbody := hb hs.below.2 .nil
    have hcode : Lowers _ (.ifThen span e s :: rest) _ _ := .framed
      [jumpIf c.node (σ₂.fresh "end").1 false span, .hint b.node.span .enterBlock]
      [.hint b.node.span .exitBlock, .label span (σ₂.fresh "end").1] [] rfl hbody .nil
      (by simpa using .single _ "end") (by simp [frame_jumpIf hplain]) hrest
    simpa [Stmt.flatten, flattenAll, grouped, flatten_jumpIf, Revised.new] using hcode
  ifElse {span e s t _ c _ b _ a σ₃} _ hcondition hb ha hs rest code _ hrest := by
    obtain ⟨hjumpless, hbody, halternative⟩ := hs.below
    obtain ⟨rfl, hplain⟩ := hcondition hjumpless
    replace hbody := hb hbody .nil
    replace halternative := ha halternative .nil
    have hmade := (LabelSupply.Draws.single (K := Kind) σ₃ "end").append
      (.single _ "else")
    have hcode : Lowers _ (.ifElse span e s t :: rest) _ _ := .framed
      [jumpIf c.node ((σ₃.fresh "end").2.fresh "else").1 false span, .hint b.node.span .enterBlock]
      [.hint b.node.span .exitBlock, .goto span (σ₃.fresh "end").1,
        .label span ((σ₃.fresh "end").2.fresh "else").1, .hint a.node.span .enterBlock]
      [.hint a.node.span .exitBlock, .label span (σ₃.fresh "end").1]
      rfl hbody halternative (by simpa using hmade.perm (.swap _ _ _))
      (by simp [frame_jumpIf hplain]) hrest
    simpa [Stmt.flatten, flattenAll, grouped, flatten_jumpIf, Revised.new] using hcode
  whileLoop {span e s _ c _ b σ₂} _ hcondition hb hs rest code _ hrest := by
    obtain ⟨rfl, hplain⟩ := hcondition hs.below.1
    have hbody := hb hs.below.2 .nil
    have hmade := (LabelSupply.Draws.single (K := Kind) σ₂ "continue").append
      (.single _ "break")
    have hcode : Lowers _ (.whileLoop span e s :: rest) _ _ := .framed
      [.label span (σ₂.fresh "continue").1,
        jumpIf c.node ((σ₂.fresh "continue").2.fresh "break").1 false span]
      [.goto span (σ₂.fresh "continue").1, .label span ((σ₂.fresh "continue").2.fresh "break").1] []
      rfl hbody .nil (by simpa using hmade) (by simp [frame_jumpIf hplain]) hrest
    simpa [Stmt.flatten, flattenAll, flatten_jumpIf, Revised.new] using hcode
  doWhile {span s e _ b _ c σ₂} _ hb hcondition hs rest code _ hrest := by
    obtain ⟨rfl, hplain⟩ := hcondition hs.below.1
    have hbody := hb hs.below.2 .nil
    have hmade := ((LabelSupply.Draws.single (K := Kind) σ₂ "body").append
      (.single _ "continue")).append (.single _ "break")
    have hcode : Lowers _ (.doWhile span s e :: rest) _ _ := .framed
      [.label span (σ₂.fresh "body").1]
      [.label span ((σ₂.fresh "body").2.fresh "continue").1,
        jumpIf c.node (σ₂.fresh "body").1 true span,
        .label span (((σ₂.fresh "body").2.fresh "continue").2.fresh "break").1] []
      rfl hbody .nil (by simpa using hmade) (by simp [frame_jumpIf hplain]) hrest
    simpa [Stmt.flatten, flattenAll, flatten_jumpIf, Revised.new] using hcode
  on {span event es s _ a _ b σ₂} _ ha hb hs rest code _ hrest := by
    obtain ⟨rfl, hplain⟩ := ha hs.below.1
    have hbody := hb hs.below.2 .nil
    have hmade := (LabelSupply.Draws.single (K := Kind) σ₂ "event").append
      (.single _ "end")
    have hcode : Lowers _ (.on span event es s :: rest)
        (.gotoOn span (σ₂.fresh "event").1 event a.node :: _) _ :=
      .handler _ ((σ₂.fresh "event").2.fresh "end").1 hplain hbody hmade hrest
    simpa [Stmt.flatten, flattenAll, Revised.new] using hcode
  nilStmts _ _ _ := .nil
  consStmts h hs hw hl := by
    obtain ⟨hw, hws⟩ := append_eq_nil_iff.1 hw
    obtain ⟨hl, hls⟩ := append_eq_nil_iff.1 hl
    exact h ⟨hw, hl⟩ (hs hws hls)

theorem lowers_of_run (hs : s.Jumpless) {r : Revised Stmt} (h : (stmt s).run σ = .ok (r, σ')) :
    Lowers σ [s] r.node.flatten σ' := by
  have hlowers := ((lawful_flatScheme.from_stmt s σ).of_run trivial h).2 hs .nil
  rwa [append_nil] at hlowers

end Lower

/-! ### Dead code -/

theorem kept_sublist (reached : List Nat) (id : Nat) (runs : List (List Stmt)) :
    (kept reached id runs).Sublist runs.flatten := by
  induction runs generalizing id with
  | nil => exact .slnil
  | cons run rest ih =>
    refine List.Sublist.append ?_ (ih _)
    split
    · exact List.Sublist.refl _
    · exact filter_sublist

theorem Stmt.isHint_of_target? (h : s.target? = some l) : s.isHint = false := by
  cases s <;> first | rfl | cases h

/-- What control cannot reach can be dropped: a jump that stays keeps its label. -/
theorem Stmt.JumpClosed.dropUnreachable {code live : List Stmt} (h : JumpClosed code)
    (hlive : Wirescript.dropUnreachable code = .ok live) : JumpClosed live := by
  obtain ⟨f, hf, rfl⟩ := dropUnreachable_eq hlive
  have hsublist := kept_sublist f.reachableNodes 2 (Flow.runs code)
  rw [Flow.flatten_runs] at hsublist
  refine ⟨h.nodup.sublist (hsublist.filterMap _), fun l hl ↦ ?_⟩
  obtain ⟨s, hs, hl⟩ := mem_filterMap.1 hl
  obtain ⟨pre, rest, hkept⟩ := append_of_mem hs
  obtain ⟨_, haligned⟩ := Aligned.of_kept_eq hkept (isHint_of_target? hl)
  obtain ⟨_, there, -, hthere, -⟩ := haligned.jump hf hl
  obtain ⟨t, tail, rfl, ht⟩ := exists_cons_of_from? hthere
  exact mem_filterMap.2 ⟨t, (from?_suffix hthere).subset (.head _), ht⟩

/-! ### Code made from code -/

/-- The statement is neither a block nor an expression, in which other statements may be wrapped. -/
def Stmt.Single : Stmt → Prop
  | .block .. | .expression .. => False
  | _ => True

theorem Stmt.Single.flatten (h : s.Single) : s.flatten = [s] := by
  cases s <;> first | rfl | exact h.elim

/-- The code has the labels and jumps of other code, and some labels that were made up. -/
structure Stmt.Gains (source code : List Stmt) (made : List Label) : Prop where
  labels : (Stmt.labels code).Perm (Stmt.labels source ++ made)
  targets : Stmt.targets code ⊆ Stmt.targets source ++ made

namespace Stmt.Gains

variable {source source' code code' : List Stmt} {made' : List Label}

theorem append (h : Gains source code made) (h' : Gains source' code' made') :
    Gains (source ++ source') (code ++ code') (made ++ made') where
  labels := by
    simp only [labels_append]
    refine (h.labels.append h'.labels).trans (perm_iff_count.2 fun l ↦ ?_)
    simp only [count_append]
    omega
  targets := by
    simp only [targets_append]
    refine fun l hl ↦ ?_
    have hor : l ∈ Stmt.targets source ++ made ∨ l ∈ Stmt.targets source' ++ made' :=
      (mem_append.1 hl).imp (h.targets ·) (h'.targets ·)
    simp only [mem_append] at hor ⊢
    tauto

theorem refl (code : List Stmt) : Gains code code [] := ⟨by simp, by simp⟩

/-- Code that is closed stays closed, if the labels that are made up are new. -/
theorem jumpClosed (h : Gains source code made) (hsource : JumpClosed source) (hmade : made.Nodup)
    (hnew : (Stmt.labels source).Disjoint made) : JumpClosed code where
  nodup := h.labels.nodup_iff.2 (hsource.nodup.append hmade hnew)
  defined l hl := by
    refine h.labels.mem_iff.2 (mem_append.2 ?_)
    exact (mem_append.1 (h.targets hl)).imp_left (hsource.defined ·)

end Stmt.Gains

/-! ### Lowered bodies -/

/-- The labels of a routine that flattening makes up. -/
def Label.Flattening (r : Routine) (l : Label) : Prop :=
  ∃ kind ∈ Label.kinds, ∃ n, l = .numbered r.name kind n

theorem Label.Flattening.written (h : l.Flattening r) : l.Written r := by
  obtain ⟨kind, hkind, n, rfl⟩ := h
  exact written_numbered hkind n

/-- What lowering makes of a jumpless body. -/
theorem lowered_jumpClosed {body : Stmt} {lo : Lowered} (hbody : body.Jumpless)
    (h : lower r body = .ok lo) : JumpClosed lo.statements ∧
      (∀ s ∈ lo.statements, s.visit wrapVisitor = []) ∧
      ∀ l ∈ Stmt.labels lo.statements, ∃ kind n, Lower.Kind kind ∧ DigitFree kind ∧
        l = .numbered r.name kind n := by
  obtain ⟨revised, σ, code, hrun, hclose, hlive⟩ := lower_eq_ok h
  have hnumbers := (Lower.lowers_of_run hbody hrun).numbers
  have hcode : Lower.Numbers { scope := r.name } code σ := by
    rcases closeFlat_eq_ok hclose with rfl | rfl
    · exact hnumbers
    · exact hnumbers.append (Lower.Numbers.single rfl rfl rfl)
  have hclosed : JumpClosed code := ⟨hcode.draws.nodup, hcode.defined⟩
  refine ⟨hclosed.dropUnreachable hlive,
    fun s hs ↦ hcode.each s (mem_of_mem_dropUnreachable hlive hs), fun l hl ↦ ?_⟩
  obtain ⟨s, hs, hl⟩ := mem_filterMap.1 hl
  exact hcode.draws.exists_kind (mem_filterMap.2 ⟨s, mem_of_mem_dropUnreachable hlive hs, hl⟩)

end Wirescript
