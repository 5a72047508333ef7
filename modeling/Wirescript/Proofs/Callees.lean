import Wirescript.Proofs.WellScoped

/-!
# Calls that no statement makes

Extraction turns the call of a routine into a statement, expansion replaces such statements, and
routines that are replaced everywhere are left out of the program. There are two places where
extraction leaves expressions as they are: the arguments of an event, and the array that a literal
list is stored to. A call there is *held*. It stays a call when its callee is replaced and left out.

What a tree says about calls is collected by `noteVisitor`, once for every call and once more for
those that are held. Lowering adds nothing to it. In flat code every call of a routine is a
statement or is held (`Stmt.Retains`), and after expansion every statement that is a call has a
callee that is still there. So a held call of a replaced routine is all that can go missing in a
program that was complete (`Program.heldCall_of_missingCallee`).
-/

namespace Wirescript

open Stmt
open Wirescript.Expr
open List

variable {changed : Bool} {e : Expr} {arguments es es' : List Expr} {code : List Stmt}
  {result : Option Variable} {p : Program} {q : Routine} {span : Span} {body s : Stmt}
  {c : Callee}
  {name : String}

/-! ### Calls that stay where they are -/

/-- What a node of a tree says about a callee: that it calls it, or that it holds a call of it
which extraction leaves where it is. -/
inductive CallNote where
  | made (callee : Callee)
  | held (callee : Callee)

def CallNote.held? : CallNote → Option Routine
  | .made _ => none
  | .held callee => callee.routine?

/-- The calls that the array of a literal list holds when the list is stored to a range. -/
def Callee.holds (callee : Callee) : List Expr → List Callee
  | [array, _, .segment _ _] =>
    if callee.builtin?.any (·.name == "setRange") then array.visit calleeVisitor else []
  | _ => []

def Callee.notes (callee : Callee) (arguments : List Expr) : List CallNote :=
  .made callee :: (callee.holds arguments).map .held

/-- The arguments of an event hold their calls, and so does the array of a literal list that is
stored to a range. -/
def noteVisitor : Visitor CallNote where
  expr
    | .call _ callee arguments => callee.notes arguments
    | _ => []
  stmt
    | .call _ callee arguments _ => callee.notes arguments
    | .on _ _ arguments _ | .gotoOn _ _ _ arguments =>
      (Expr.visitAll calleeVisitor arguments).map .held
    | _ => []

/-- The routines that are called from where extraction leaves calls as they are. -/
def Stmt.heldCalls (body : Stmt) : List Routine :=
  (body.visit noteVisitor).filterMap CallNote.held?

theorem made_mem_node (n : Expr ⊕ Stmt) :
    .made c ∈ noteVisitor.node n ↔ c ∈ calleeVisitor.node n := by
  rcases n with e | s
  · cases e <;> simp [Visitor.node, noteVisitor, calleeVisitor, Callee.notes]
  · cases s <;> simp [Visitor.node, noteVisitor, calleeVisitor, Callee.notes]

theorem Expr.made_mem_visit : .made c ∈ e.visit noteVisitor ↔ c ∈ e.visit calleeVisitor :=
  Expr.mem_visit_congr made_mem_node

theorem Expr.made_mem_visitAll :
    .made c ∈ Expr.visitAll noteVisitor es ↔ c ∈ Expr.visitAll calleeVisitor es :=
  Expr.mem_visitAll_congr made_mem_node

theorem Stmt.made_mem_visit : .made c ∈ s.visit noteVisitor ↔ c ∈ s.visit calleeVisitor :=
  Stmt.mem_visit_congr made_mem_node

/-! ### Lowering -/

/-- The fault is not that a routine has no body. -/
def Fault.NotMissing (f : Fault) : Prop := ∀ name, f ≠ .missingCallee name

/-- One expression says no more about calls than another one. -/
structure Expr.Narrows (e' e : Expr) : Prop where
  notes : e'.visit noteVisitor ⊆ e.visit noteVisitor
  list {n : Note} {items : List Expr} (h : e' = .segment n items) : ∃ n items, e = .segment n items

/-- One statement says no more about calls than another one. -/
structure Stmt.Narrows (t s : Stmt) : Prop where
  notes : t.visit noteVisitor ⊆ s.visit noteVisitor

theorem Expr.Narrows.refl (e : Expr) : e.Narrows e := ⟨fun _ h ↦ h, fun h ↦ ⟨_, _, h⟩⟩

theorem Expr.narrows_literal (n : Note) (value : Value) (e : Expr) :
    (Expr.literal n value).Narrows e :=
  ⟨nil_subset _, fun h ↦ by cases h⟩

section

variable (h : Forall₂ Expr.Narrows es' es)

include h

theorem Callee.notes_subset : c.notes es' ⊆ c.notes es := by
  refine cons_subset_cons _ (map_subset _ ?_)
  unfold Callee.holds
  split
  · next array' start' n' items' =>
    obtain _ | ⟨harray, _ | ⟨-, _ | ⟨hlist, _ | _⟩⟩⟩ := h
    obtain ⟨n, -, rfl⟩ := hlist.list rfl
    split
    · intro q hq
      exact Expr.made_mem_visit.1 (harray.notes (Expr.made_mem_visit.2 hq))
    · exact fun _ h ↦ h
  · exact nil_subset _

theorem Expr.visitAll_subset : Expr.visitAll noteVisitor es' ⊆ Expr.visitAll noteVisitor es := by
  induction h with
  | nil => exact fun _ h ↦ h
  | cons he _ ih => exact append_subset_append he.notes ih

theorem Expr.callees_subset : Expr.visitAll calleeVisitor es' ⊆ Expr.visitAll calleeVisitor es := by
  intro c hc
  exact made_mem_visitAll.1 (visitAll_subset h (made_mem_visitAll.2 hc))

theorem Expr.narrows_call {n n' : Note} : (Expr.call n' c es').Narrows (.call n c es) :=
  ⟨append_subset_append (Callee.notes_subset h) (visitAll_subset h), fun h ↦ by cases h⟩

end

namespace Lower

theorem narrows_settle {n : Note} {kept derived : Expr} (hkept : kept.Narrows e)
    (hderived : derived.Narrows e) : (settle n changed kept derived).node.Narrows e :=
  settle_cases (P := (·.node.Narrows e)) (fun _ _ ↦ narrows_literal _ _ _) (fun _ ↦ hkept)
    fun _ ↦ hderived

variable {notes : List CallNote}

theorem notes_jumpIf_subset {condition : Expr} {target : Label} {sense : Bool}
    (h : condition.visit noteVisitor ⊆ notes) :
    (jumpIf condition target sense span).visit noteVisitor ⊆ notes :=
  jumpIf_cases (P := (·.visit noteVisitor ⊆ notes)) (nil_subset _) (nil_subset _)
    (append_subset.2 ⟨h, nil_subset _⟩)

section Notes

variable (s : Span) (l : Label)

@[simp] theorem notes_label : (Stmt.label s l).visit noteVisitor = [] := rfl

@[simp] theorem notes_goto : (Stmt.goto s l).visit noteVisitor = [] := rfl

@[simp] theorem notes_rollback : (Stmt.rollback s l).visit noteVisitor = [] := rfl

@[simp] theorem notes_hint (h : Hint) : (Stmt.hint s h).visit noteVisitor = [] := rfl

theorem notes_block_subset {items : List Stmt} (h : ∀ t ∈ items, t.visit noteVisitor ⊆ notes) :
    (Stmt.block s items).visit noteVisitor ⊆ notes := by
  have hitems : Stmt.visitAll noteVisitor items ⊆ notes := by
    induction items with
    | nil => exact nil_subset _
    | cons t rest ih =>
      obtain ⟨ht, hrest⟩ := forall_mem_cons.1 h
      exact append_subset.2 ⟨ht, ih hrest⟩
  exact append_subset.2 ⟨hitems, nil_subset _⟩

end Notes

theorem narrows_block {items : List Stmt}
    (hs : s.visit noteVisitor = noteVisitor.stmt s ++ notes ++ [])
    (h : ∀ t ∈ items, t.visit noteVisitor ⊆ notes) : (Stmt.block span items).Narrows s :=
  ⟨hs ▸ append_nil _ ▸ subset_append_of_subset_right _ (notes_block_subset span h)⟩

attribute [local simp] notes_jumpIf_subset subset_append_of_subset_left
  subset_append_of_subset_right

/-- Nothing says more about calls than what it was made of, and lowering does not stop because a
routine has no body. -/
def narrowScheme : Scheme where
  fault := Fault.NotMissing
  expr e _ r _ := r.node.Narrows e
  exprs es _ r _ := Forall₂ Expr.Narrows r.node es
  stmt s _ r _ := r.node.Narrows s
  stmts items _ r _ := Stmt.visitAll noteVisitor r.node ⊆ Stmt.visitAll noteVisitor items

theorem lawful_narrowScheme : narrowScheme.Lawful where
  byReference _ _ _ := by simp
  atom _ _ := .refl _
  unary h := narrows_settle ⟨h.notes, fun h ↦ by cases h⟩ ⟨h.notes, fun h ↦ by cases h⟩
  binary hl hr := by
    have hboth := append_subset_append hl.notes hr.notes
    exact narrows_settle ⟨hboth, fun h ↦ by cases h⟩ ⟨hboth, fun h ↦ by cases h⟩
  make hx hy hz := by
    have hall := append_subset_append (append_subset_append hx.notes hy.notes) hz.notes
    exact narrows_settle ⟨hall, fun h ↦ by cases h⟩ ⟨hall, fun h ↦ by cases h⟩
  call h hr := by
    obtain rfl | ⟨_, _, _, _, -, -, -, -, rfl⟩ := foldCall_cases hr
    · exact narrows_call h
    · exact narrows_literal _ _ _
  convert h := narrows_settle ⟨h.notes, fun h ↦ by cases h⟩ ⟨h.notes, fun h ↦ by cases h⟩
  segment h := ⟨visitAll_subset h, fun _ ↦ ⟨_, _, rfl⟩⟩
  assign h := ⟨h.notes, fun h ↦ by cases h⟩
  compound h := ⟨h.notes, fun h ↦ by cases h⟩
  statement h := ⟨h.notes, fun h ↦ by cases h⟩
  nil _ := .nil
  cons h hs := .cons h hs
  atomStmt _ _ := ⟨fun _ h ↦ h⟩
  block h := ⟨append_subset_append h (nil_subset _)⟩
  define h := ⟨append_subset_append h.notes fun _ h ↦ h⟩
  store h := ⟨append_subset_append h.notes fun _ h ↦ h⟩
  combine h := ⟨append_subset_append h.notes fun _ h ↦ h⟩
  retValue h := ⟨append_subset_append h.notes fun _ h ↦ h⟩
  expression h := ⟨append_subset_append h.notes fun _ h ↦ h⟩
  invoke h := ⟨append_subset_append
    (append_subset_append (Callee.notes_subset h) (visitAll_subset h)) fun _ h ↦ h⟩
  gotoIf h := ⟨notes_jumpIf_subset (subset_append_of_subset_left _ h.notes)⟩
  gotoOn h := ⟨append_subset_append (append_subset_append
    (map_subset _ (callees_subset h)) (visitAll_subset h)) fun _ h ↦ h⟩
  ifThen _ hc hb := narrows_block rfl (by simp [grouped, hc.notes, hb.notes])
  ifElse _ hc hb ha := narrows_block rfl (by simp [grouped, hc.notes, hb.notes, ha.notes])
  whileLoop _ hc hb := narrows_block rfl (by simp [hc.notes, hb.notes])
  doWhile _ hb hc := narrows_block rfl (by simp [hc.notes, hb.notes])
  on {span event es s _ a _ _ σ₂} _ ha hb := by
    have hgoto : (Stmt.gotoOn span (σ₂.fresh "event").1 event a.node).visit noteVisitor ⊆
        noteVisitor.stmt (.on span event es s) ++
          (Expr.visitAll noteVisitor es ++ s.visit noteVisitor) := by
      refine append_subset.2 ⟨append_subset_append ?_ ?_, nil_subset _⟩
      · exact map_subset _ (callees_subset ha)
      · exact subset_append_of_subset_left _ (visitAll_subset ha)
    refine ⟨subset_append_of_subset_left _ (notes_block_subset _ ?_)⟩
    simp [hgoto, hb.notes]
  nilStmts _ _ h := h
  consStmts h hs := append_subset_append h.notes hs

end Lower

theorem Flow.outcome_build (code : List Stmt) :
    Outcome Fault.NotMissing (fun _ ↦ True) (Flow.build code) :=
  (outcome_nodesFrom fun _ _ _ _ _ _ _ _ ↦ by simp).bind fun _ _ ↦ trivial

theorem outcome_closeFlat (routine : Routine) (span : Span) (code : List Stmt) :
    Outcome Fault.NotMissing (fun code' ↦ ∀ s ∈ code', s ∈ code ∨ s = .ret span)
      (closeFlat routine span code) := by
  unfold closeFlat
  split
  · refine (Flow.outcome_build code).bind fun f _ ↦ ?_
    show ∀ s ∈ (if f.fallsThrough then code ++ [.ret span] else code), _
    split
    · simp
    · exact fun s hs ↦ .inl hs
  · exact fun s hs ↦ .inl hs

theorem outcome_dropUnreachable (code : List Stmt) :
    Outcome Fault.NotMissing (fun live ↦ live ⊆ code) (dropUnreachable code) := by
  rcases h : dropUnreachable code with f | live
  · have hbuild : Outcome Fault.NotMissing (fun _ ↦ True) (dropUnreachable code) :=
      (Flow.outcome_build code).bind fun f _ ↦ trivial
    rw [h] at hbuild
    exact hbuild
  · exact fun s hs ↦ mem_of_mem_dropUnreachable h hs

/-- Lowering adds no calls, and it does not stop because a routine has no body. -/
theorem outcome_lower (routine : Routine) (body : Stmt) :
    Outcome Fault.NotMissing (fun l ↦ ∀ s ∈ l.statements,
      s.visit noteVisitor ⊆ body.visit noteVisitor) (lower routine body) := by
  refine (Lower.lawful_narrowScheme.from_stmt body { scope := routine.name } trivial).bind
    fun outcome hlowered ↦ ?_
  refine (outcome_closeFlat routine body.span outcome.1.node.flatten).bind fun code hcode ↦ ?_
  refine (outcome_dropUnreachable code).bind fun live hlive ↦ ?_
  intro s hs
  rcases hcode s (hlive hs) with hs | rfl
  · exact List.Subset.trans (visit_subset _ hs) hlowered.2.notes
  · exact nil_subset _

/-! ### Extraction -/

variable {α : Type} {M K : Callee → Prop} {H : Routine → Prop}

/-- The callee is of a kind if it is a routine. -/
def Callee.Of (H : Routine → Prop) : Callee → Prop
  | .routine q => H q
  | .builtin _ _ => True

theorem Callee.Of.imp {H' : Routine → Prop} (h : c.Of H) (hH : ∀ q, H q → H' q) : c.Of H' := by
  cases c with
  | routine q => exact hH q h
  | builtin b t => trivial

theorem Callee.of_builtin (b : Builtin) (_ : b ∈ Builtin.all) (t : Ty) :
    (Callee.builtin b t).Of H := trivial

/-- What is known about calls in the source: something about all of them, and something else about
those of routines that are held. -/
def CallNote.Known (M : Callee → Prop) (H : Routine → Prop) : CallNote → Prop
  | .made callee => M callee
  | .held callee => callee.Of H

/-- What is known about calls that stay in values: those of routines are held. -/
def Callee.Kept (M : Callee → Prop) (H : Routine → Prop) (callee : Callee) : Prop :=
  M callee ∧ callee.Of H

/-- Every call in the value of flat code is of a kind. -/
def Expr.Retains (K : Callee → Prop) (e : Expr) : Prop := ∀ c ∈ e.visit calleeVisitor, K c

/-- Every call in one of the values is of a kind. -/
def Expr.AllRetain (K : Callee → Prop) (es : List Expr) : Prop :=
  ∀ c ∈ Expr.visitAll calleeVisitor es, K c

/-- A flat statement that is a call, of one kind, or is none. All calls in its values are of another
kind. -/
def Stmt.Retains (M K : Callee → Prop) : Stmt → Prop
  | .call _ callee arguments _ => M callee ∧ Expr.AllRetain K arguments
  | .block .. | .expression .. => False
  | s => ∀ c ∈ s.visit calleeVisitor, K c

def Stmt.AllRetain (M K : Callee → Prop) (code : List Stmt) : Prop := ∀ s ∈ code, s.Retains M K

@[simp] theorem Stmt.allRetain_nil : Stmt.AllRetain M K [] := by simp [Stmt.AllRetain]

@[simp] theorem Stmt.allRetain_cons {rest : List Stmt} :
    Stmt.AllRetain M K (s :: rest) ↔ s.Retains M K ∧ Stmt.AllRetain M K rest := forall_mem_cons

@[simp] theorem Stmt.allRetain_append {xs ys : List Stmt} :
    Stmt.AllRetain M K (xs ++ ys) ↔ Stmt.AllRetain M K xs ∧ Stmt.AllRetain M K ys :=
  forall_mem_append

theorem Stmt.Retains.mono {M' K' : Callee → Prop} (h : s.Retains M K) (hM : ∀ c, M c → M' c)
    (hK : ∀ c, K c → K' c) : s.Retains M' K' := by
  cases s
  case call => exact ⟨hM _ h.1, fun c hc ↦ hK c (h.2 c hc)⟩
  case block | expression => exact h.elim
  all_goals exact fun c hc ↦ hK c (h c hc)

theorem Expr.retains_read (x : Variable) (span : Span) : (Build.read x span).Retains K := by
  simp [Expr.Retains, Expr.visit, Build.read, calleeVisitor]

theorem Stmt.retains_assign {x : Variable} (h : e.Retains K) :
    (Stmt.assign span x e).Retains M K := by
  show ∀ c ∈ e.visit calleeVisitor ++ [], K c
  rwa [append_nil]

namespace Extract

/-- Extraction leaves calls of the two kinds, if what is known about those of the source is that. -/
def callScheme (M : Callee → Prop) (H : Routine → Prop) : Scheme where
  fault := Fault.NotMissing
  supply _ := True
  source e := ∀ a ∈ e.visit noteVisitor, a.Known M H
  sourceStmt s := ∀ a ∈ s.visit noteVisitor, a.Known M H
  target _ := True
  calls callee arguments := ∀ a ∈ callee.notes arguments, a.Known M H
  value _ r := r.node.Retains (Callee.Kept M H)
  values _ r := Expr.AllRetain (Callee.Kept M H) r.node
  array := Expr.Retains (Callee.Kept M H)
  line := Stmt.Retains M (Callee.Kept M H)
  code _ code _ := Stmt.AllRetain M (Callee.Kept M H) code

theorem retains_choose {kept derived : Expr} (h : kept.Retains K)
    (hvisit : derived.visit calleeVisitor = kept.visit calleeVisitor) :
    (Revised.choose changed kept derived).node.Retains K := by
  cases changed with
  | true => exact fun c hc ↦ h c (hvisit ▸ hc)
  | false => exact h

/-- The functions that extraction itself calls are built in. -/
theorem lawful_callScheme (hM : ∀ b ∈ Builtin.all, ∀ t, M (.builtin b t)) (H : Routine → Prop) :
    (callScheme M H).Lawful where
  breach _ := by simp [callScheme, Fault.NotMissing]
  fresh _ _ := ⟨trivial, trivial⟩
  skipped _ := trivial
  operand h _ hc a ha := h a (Expr.visit_operand_subset _ hc ha)
  operandStmt h _ hc a ha := h a (Stmt.visit_operand_subset _ hc ha)
  body h := h
  item h s hs a ha := h a (mem_append_left _ (Stmt.mem_visitAll hs ha))
  written _ _ _ := trivial
  writtenStmt _ _ _ := trivial
  callee h := (forall_mem_append.1 h).1
  calleeStmt h := (forall_mem_append.1 (forall_mem_append.1 h).1).1
  straight h := h
  append h h' := allRetain_append.2 ⟨h, h'⟩
  skip _ _ _ _ h h' := by
    simp only [callScheme, allRetain_append, allRetain_cons]
    refine ⟨h, ?_, h', ?_⟩
    · simp [Stmt.Retains, Stmt.visit, calleeVisitor, Build.read, Expr.visit]
    · simp [Stmt.Retains, Stmt.visit, calleeVisitor]
  plain {e} _ he := by cases e <;> first | exact forall_mem_nil _ | exact he.elim
  unary _ hr := retains_choose hr rfl
  convert _ hr := retains_choose hr rfl
  binary _ hr hr' := by
    have hboth := forall_mem_append.2 ⟨hr, hr'⟩
    exact retains_choose hboth rfl
  make _ ha hb hc := by
    have hall := forall_mem_append.2 ⟨forall_mem_append.2 ⟨ha, hb⟩, hc⟩
    exact retains_choose hall rfl
  call {_ c _ _} h hc hr := by
    -- a routine that is called is always called by a statement
    refine retains_choose (forall_mem_cons.2 ⟨⟨h (.made c) (.head _), ?_⟩, hr⟩) rfl
    cases c with
    | routine r => cases hc
    | builtin b t => trivial
  segment _ _ hr := retains_choose hr rfl
  reread _ _ _ _ := retains_read _ _
  left _ _ _ _ := retains_read _ _
  void _ _ _ _ := forall_mem_nil _
  nil := forall_mem_nil _
  cons hr hrs := forall_mem_append.2 ⟨hr, hrs⟩
  read _ _ := retains_read _ _
  range hname hc h c hmem := by
    refine ⟨h (.made c) (Expr.made_mem_visit.2 hmem), hc (.held c) (mem_cons_of_mem _ ?_)⟩
    rw [Callee.holds, if_pos hname]
    exact mem_map_of_mem hmem
  element _ ha hset hr hv := by
    obtain ⟨b, hb, t, rfl⟩ := exists_of_resolve hset
    refine ⟨hM b (mem_filter.1 hb).1 t, forall_mem_append.2 ⟨ha, ?_⟩⟩
    exact forall_mem_append.2 ⟨forall_mem_nil _, forall_mem_append.2
      ⟨fun c hc ↦ hr c (Expr.mem_visitAll hv hc), forall_mem_nil _⟩⟩
  assign _ _ _ hr := retains_assign (M := M) hr
  stepped _ _ _ := retains_assign (M := M) <| by
    simp [Build.stepped, Build.binary, Expr.Retains, Expr.visit, calleeVisitor, Build.read,
      Build.float, Build.literal]
  lineCall _ h hr _ _ := ⟨h _ (.head _), hr⟩
  stays {s} h hs := by
    cases s
    case gotoOn span target event arguments =>
      obtain ⟨hheld, harguments⟩ := forall_mem_append.1 (forall_mem_append.1 h).1
      refine forall_mem_append.2 ⟨fun c hc ↦ ⟨?_, ?_⟩, forall_mem_nil _⟩
      · exact harguments (.made c) (made_mem_visitAll.2 hc)
      · exact hheld (.held c) (mem_map_of_mem hc)
    all_goals first | exact forall_mem_nil _ | exact hs.elim
  declare _ := forall_mem_nil _
  define _ _ _ hr := forall_mem_append.2 ⟨hr, forall_mem_nil _⟩
  gotoIf _ hr := forall_mem_append.2 ⟨hr, forall_mem_nil _⟩
  retValue _ hr := forall_mem_append.2 ⟨hr, forall_mem_nil _⟩

end Extract

theorem outcome_extract (hM : ∀ b ∈ Builtin.all, ∀ t, M (.builtin b t)) (routine : Routine)
    (h : ∀ a ∈ body.visit noteVisitor, a.Known M H) :
    Outcome Fault.NotMissing (fun e ↦ Stmt.AllRetain M (Callee.Kept M H) e.statements)
      (extract routine body) := by
  have hgives := (Extract.lawful_callScheme hM H).from_stmt h _ (.ofRoutine routine) ⟨trivial, rfl⟩
  unfold extract
  rcases hrun : (Extract.stmt body).run (.ofRoutine routine) with ⟨f | statements, ξ⟩
  · rw [hrun] at hgives
    exact hgives
  · rw [hrun] at hgives
    exact hgives.2

/-! ### Expansion -/

/-- Routines are not replaced, and what takes the place of a return calls no more than the value
that is returned. -/
structure Substitution.Calls (σ : Substitution) : Prop where
  routine (r : Routine) : σ.routine r = r
  ret (span : Span) : (σ.ret span).visit calleeVisitor = []
  retValue (span : Span) (value : Expr) :
    (σ.retValue span value).visit calleeVisitor ⊆ value.visit calleeVisitor

theorem Expand.calls_copy (site : Nat) (bound : Table Variable Variable) (result : Option Variable)
    (exit : Label) : (copy site bound result exit).Calls where
  routine _ := rfl
  ret _ := rfl
  retValue span value := by
    cases result with
    | none => exact nil_subset _
    | some x =>
      show (([] ++ value.visit calleeVisitor ++ []) ++ ([] ++ [])) ++ [] ⊆ _
      simp

section Substitution

variable {σ : Substitution} (hσ : σ.Calls)

include hσ

theorem Substitution.Calls.callee (callee : Callee) : σ.callee callee = callee := by
  cases callee with
  | routine r => exact congrArg Callee.routine (hσ.routine r)
  | builtin b t => rfl

theorem Substitution.Calls.callees_subset (callee : Callee) : [σ.callee callee] ⊆ [callee] := by
  rw [hσ.callee]
  exact fun _ h ↦ h

/-- A copy of a body calls no more than the body. -/
theorem Substitution.Calls.relates : Visitor.Relates (· ⊆ ·) σ calleeVisitor calleeVisitor where
  nil := nil_subset _
  append := append_subset_append
  expr e := by
    cases e
    case call n callee arguments => exact hσ.callees_subset callee
    all_goals exact nil_subset _
  stmt {s} hs _ _ h := by
    refine append_subset_append (append_subset_append ?_ h) (nil_subset _)
    cases s
    case ret | retValue => cases hs
    case call span callee arguments result => exact hσ.callees_subset callee
    all_goals exact nil_subset _
  ret span := by
    rw [hσ.ret span]
    exact nil_subset _
  retValue span value h :=
    List.Subset.trans (hσ.retValue span _) (subset_append_of_subset_left _ h)

end Substitution

theorem Stmt.Retains.flatten (h : s.Retains M K) : s.flatten = [s] := by
  cases s
  case block | expression => exact h.elim
  all_goals rfl

/-- A copy of a flat statement leaves calls of the same kinds. -/
theorem Stmt.Retains.substitute {σ : Substitution} (hσ : σ.Calls) (h : s.Retains M K)
    (hret : ∀ span, Stmt.AllRetain M K (σ.ret span).flatten)
    (hretValue : ∀ span (value : Expr), value.Retains K →
      Stmt.AllRetain M K (σ.retValue span value).flatten) :
    Stmt.AllRetain M K (s.substitute σ).flatten := by
  have hcalls := hσ.relates.visitStmt s
  cases s
  case block | expression => exact h.elim
  case ret => exact hret _
  case retValue span value =>
    refine hretValue span _ fun q hq ↦ h q ?_
    exact mem_append_left _ (hσ.relates.visit value hq)
  case call span callee arguments result =>
    refine allRetain_cons.2 ⟨⟨?_, fun q hq ↦ ?_⟩, allRetain_nil⟩
    · rw [hσ.callee]
      exact h.1
    · exact h.2 q (hσ.relates.visitAll arguments hq)
  all_goals
    refine allRetain_cons.2 ⟨fun q hq ↦ h q (hcalls hq), allRetain_nil⟩

/-- A call does not fit the parameters of the routine whose copy would take its place. -/
def Fault.Mismatch : Fault → Prop
  | .internal (.expansionArity ..) | .internal (.expansionReference ..) => True
  | _ => False

theorem Fault.Mismatch.notMissing {f : Fault} (h : f.Mismatch) : f.NotMissing := by
  rintro name rfl
  exact h

namespace Expand

variable {i : Inliner} {site : Nat}

theorem retains_copy {bound : Table Variable Variable} {exit : Label} {code : Stmt}
    (h : Stmt.AllRetain M K code.flatten) :
    Stmt.AllRetain M K (code.substitute (copy site bound result exit)).flatten := by
  rw [flatten_substitute]
  intro t ht
  obtain ⟨s, hs, ht⟩ := mem_flatMap.1 ht
  have hgoto (span : Span) : (Stmt.goto span exit).Retains M K := forall_mem_nil _
  refine (h s hs).substitute (calls_copy _ _ _ _) (fun span ↦ ?_) (fun span value hvalue ↦ ?_) t ht
  · exact allRetain_cons.2 ⟨hgoto span, allRetain_nil⟩
  · cases result with
    | none => exact allRetain_cons.2 ⟨hgoto span, allRetain_nil⟩
    | some x =>
      exact allRetain_cons.2 ⟨retains_assign hvalue,
        allRetain_cons.2 ⟨hgoto span, allRetain_nil⟩⟩

/-- What is done before and after a copy leaves calls of the two kinds. -/
def Bindings.Retains (M K : Callee → Prop) (b : Bindings) : Prop :=
  Stmt.AllRetain M K b.before ∧ Stmt.AllRetain M K b.after

/-- Arguments are bound unless one of them does not fit its parameter. -/
theorem mismatch_of_bindArguments {routine : Routine} {written : List Variable} {f : Fault}
    (h : bindArguments routine site span written arguments = .error f) : f.Mismatch := by
  have hfold {b : Bindings} {entries : List ((Variable × Expr) × Nat)} :
      Outcome Fault.Mismatch (fun _ ↦ True)
        (entries.foldlM (bindArgument routine site span written) b) := by
    induction entries generalizing b with
    | nil => trivial
    | cons entry rest ih =>
      refine Outcome.bind (P := fun _ ↦ True) ?_ fun _ _ ↦ ih
      unfold bindArgument
      repeat' split
      all_goals trivial
  have houtcome : Outcome Fault.Mismatch (fun _ ↦ True)
      (bindArguments routine site span written arguments) := hfold
  rwa [h] at houtcome

theorem outcome_bindArguments {F : Fault → Prop} (hF : ∀ f : Fault, f.Mismatch → F f)
    {routine : Routine} {written : List Variable} (h : Expr.AllRetain K arguments) :
    Outcome F (Bindings.Retains M K) (bindArguments routine site span written arguments) := by
  rcases hb : bindArguments routine site span written arguments with f | b
  · exact hF f (mismatch_of_bindArguments hb)
  · exact forall_bindArguments
      (fun _ a ha ↦ retains_assign fun q hq ↦ h q (Expr.mem_visitAll ha hq))
      (fun _ _ ↦ retains_assign (retains_read _ _)) hb

section Calls

variable {F : Fault → Prop} (hF : ∀ f : Fault, f.Mismatch → F f) {routine : Routine}
include hF

/-- What takes the place of a call leaves what the copy leaves. -/
theorem ensures_call {inner : Routine → List Stmt → Expand (List Stmt)} {r : Routine}
    (hbody : i.bodies.get? r = some body)
    (hinner : ∀ site bound exit, Ensures F (Stmt.AllRetain M K)
      (inner r (body.substitute (copy site bound result exit)).flatten))
    (harguments : Expr.AllRetain K arguments) :
    Ensures F (Stmt.AllRetain M K) (call i inner span r arguments result) := by
  unfold call
  rw [hbody]
  dsimp only
  split
  · refine Ensures.bind (P := fun _ ↦ True) (fun _ ↦ trivial) fun site _ ↦ ?_
    refine Ensures.bind (.lift (outcome_bindArguments hF (M := M) harguments)) fun b hb ↦ ?_
    refine (hinner site b.images _).bind fun copied hcopied ↦ .pure ?_
    simp only [allRetain_append, allRetain_cons]
    exact ⟨⟨hb.1, hcopied⟩, forall_mem_nil _, hb.2⟩
  · exact Ensures.bind (P := fun _ ↦ False) (.throw (hF _ trivial)) fun _ h ↦ h.elim

/-- What takes the place of statements leaves what copies of the routines that they call leave. -/
theorem ensures_stmts_succ {M' : Callee → Prop}
    (hkept : ∀ c : Callee, M c → c.Of (· ∉ i.inlined) → M' c) {depth : Nat} (hcode : Stmt.AllRetain M K code)
    (hcopy : ∀ q ∈ i.inlined, M (.routine q) → ∃ body, i.bodies.get? q = some body ∧
      ∀ site bound result exit, Ensures F (Stmt.AllRetain M' K)
        (stmts i depth q (body.substitute (copy site bound result exit)).flatten)) :
    Ensures F (Stmt.AllRetain M' K) (stmts i (depth + 1) routine code) := by
  have hstmt : ∀ s ∈ code, Ensures F (Stmt.AllRetain M' K) (stmt i (stmts i depth) s) := by
    intro s hs
    have hretains := hcode s hs
    unfold stmt
    split
    · next span r arguments result =>
      have hr := hretains.1
      split
      · next hmem =>
        obtain ⟨body, hbody, hinner⟩ := hcopy r hmem hr
        exact ensures_call hF hbody (fun site bound exit ↦ hinner site bound result exit) hretains.2
      · next hmem =>
        exact .pure (allRetain_cons.2 ⟨⟨hkept _ hr hmem, hretains.2⟩, allRetain_nil⟩)
    · next hnot =>
      refine .pure (allRetain_cons.2 ⟨?_, allRetain_nil⟩)
      cases s
      case call span callee arguments result =>
        cases callee with
        | routine r => exact absurd rfl (hnot _ _ _ _)
        | builtin b t => exact ⟨hkept _ hretains.1 trivial, hretains.2⟩
      all_goals exact hretains
  refine Ensures.bind (.mapM hstmt) fun parts hparts ↦ .pure fun t ht ↦ ?_
  obtain ⟨part, hpart, ht⟩ := mem_flatten.1 ht
  exact forall_mem_of_forall₂ hparts part hpart t ht

end Calls

/-- Expansion leaves no call of a routine that is replaced, other than in values. -/
theorem ensures_stmts
    (hbodies : ∀ r body, i.bodies.get? r = some body → Stmt.AllRetain M K body.flatten)
    (hinlined : ∀ r ∈ i.inlined, i.bodies.contains r = true) (depth : Nat) (routine : Routine)
    (hcode : Stmt.AllRetain M K code) :
    Ensures Fault.NotMissing (Stmt.AllRetain (fun c ↦ M c ∧ c.Of (· ∉ i.inlined)) K)
      (stmts i depth routine code) := by
  induction depth generalizing routine code with
  | zero => exact .throw fun name ↦ by simp
  | succ depth ih =>
    refine ensures_stmts_succ (fun _ ↦ Fault.Mismatch.notMissing) (fun _ hq hnot ↦ ⟨hq, hnot⟩) hcode
      fun q hq _ ↦ ?_
    obtain ⟨body, hbody⟩ := Option.isSome_iff_exists.1 (hinlined q hq)
    exact ⟨body, hbody, fun _ _ _ _ ↦ ih q (retains_copy (hbodies q body hbody))⟩

end Expand

theorem Stmt.Retains.of_mem_visit (h : s.Retains M K) (hc : c ∈ s.visit calleeVisitor) :
    M c ∨ K c := by
  cases s
  case call span callee arguments result =>
    rcases mem_append.1 (mem_append.1 hc |>.resolve_right (by simp [calleeVisitor])) with
      hc | hc
    · exact .inl (mem_singleton.1 hc ▸ h.1)
    · exact .inr (h.2 c hc)
  case block | expression => exact h.elim
  all_goals exact .inr (h c hc)

/-- What a body calls, one of its items calls. -/
theorem Stmt.exists_of_mem_callSites (h : q ∈ body.callSites) :
    ∃ s ∈ body.items, q ∈ s.callSites := by
  cases body with
  | block span items =>
    have hall : q ∈ Stmt.visitAll callVisitor items :=
      (mem_append.1 h).resolve_right not_mem_nil
    exact exists_of_mem_visitAll hall
  | _ => exact ⟨_, mem_singleton_self _, h⟩

theorem Stmt.AllRetain.of_mem_callSites (h : Stmt.AllRetain M K body.items)
    (hq : q ∈ body.callSites) : M (.routine q) ∨ K (.routine q) := by
  obtain ⟨s, hs, hq⟩ := exists_of_mem_callSites hq
  exact (h s hs).of_mem_visit (Stmt.mem_callSites_iff.1 hq)

/-! ### Whole programs -/

theorem Table.contains_iff {κ ν : Type} [DecidableEq κ] {t : Table κ ν} {k : κ} :
    t.contains k = true ↔ k ∈ t.keys := by
  obtain ⟨entries⟩ := t
  induction entries with
  | nil => simp [Table.contains, Table.get?, Table.find?, Table.keys]
  | cons entry rest ih =>
    simp only [Table.contains, Table.get?, Table.find?, Table.keys] at ih ⊢
    split
    · next hk => simp [hk]
    · next hk => simp [ih, Ne.symm hk]

namespace Program

theorem ensures_note {F : Fault → Prop} (n : Notice) :
    Ensures F (fun _ ↦ True) (Work.note n) := fun _ ↦ trivial

section Flat

variable (hM : ∀ b ∈ Builtin.all, ∀ t, M (.builtin b t))
include hM

/-- A flat body leaves calls of the kinds that the body has. -/
theorem ensures_flatten (r : Routine) (h : ∀ a ∈ body.visit noteVisitor, a.Known M H) :
    Ensures Fault.NotMissing (fun flat ↦ Stmt.AllRetain M (Callee.Kept M H) flat.flatten)
      (flatten r body) := by
  have hlowered : Ensures Fault.NotMissing (fun l ↦ ∀ a ∈ l.visit noteVisitor, a.Known M H)
      (lowered r body) := by
    refine Ensures.bind (.lift (outcome_lower r body)) fun l hl ↦
      (ensures_note _).bind fun _ _ ↦ .pure fun a ha ↦ h a ?_
    exact Lower.notes_block_subset _ hl ha
  refine hlowered.bind fun l hl ↦ Ensures.bind (.lift (outcome_extract hM r hl)) fun e he ↦
    (ensures_note _).bind fun _ _ ↦ .pure ?_
  show Stmt.AllRetain M _ (flattenAll e.statements)
  rwa [Flat.flattenAll fun s hs ↦ (he s hs).flatten]

/-- A flat program has the routines of the program, and its bodies leave calls of the kinds that the
bodies of the program have. -/
theorem ensures_flat (h : ∀ entry ∈ p.bodies.entries, ∀ a ∈ entry.2.visit noteVisitor, a.Known M H)
    : Ensures Fault.NotMissing (fun flat ↦ flat.keys = p.bodies.keys ∧
      ∀ entry ∈ flat.entries, Stmt.AllRetain M (Callee.Kept M H) entry.2.flatten) p.flat := by
  refine Ensures.bind (P := Forall₂ (fun source entry ↦ entry.1 = source.1 ∧
    Stmt.AllRetain M (Callee.Kept M H) entry.2.flatten) p.bodies.entries)
    (.mapM fun entry hentry ↦ ?_) fun entries hentries ↦ (ensures_note _).bind fun _ _ ↦
      .pure ⟨?_, ?_⟩
  · exact (ensures_flatten hM entry.1 (h entry hentry)).bind fun flat hflat ↦ .pure ⟨rfl, hflat⟩
  · exact Table.keys_of_forall₂ (u := ⟨entries⟩) hentries
  · exact forall_mem_of_forall₂ (hentries.imp fun _ _ hentry ↦ hentry.2)

end Flat

section Expand

variable {i : Inliner}
  (hbodies : ∀ entry ∈ i.bodies.entries, Stmt.AllRetain M K entry.2.flatten)
  (hinlined : ∀ r ∈ i.inlined, i.bodies.contains r = true)
include hbodies hinlined

/-- What an expanded body calls is not replaced, unless it is called in a value. -/
theorem ensures_expand (r : Routine) (hbody : Stmt.AllRetain M K body.flatten) :
    Ensures Fault.NotMissing
      (fun e ↦ Stmt.AllRetain (fun c ↦ M c ∧ c.Of (· ∉ i.inlined)) K e.statements)
      (i.expand r body) := by
  refine Ensures.bind (P := fun _ ↦ True) (fun _ ↦ trivial) fun first _ ↦ ?_
  exact (Expand.ensures_stmts (fun r body h ↦ hbodies _ (Table.mem_of_get? h)) hinlined _ r
    hbody).bind fun code hcode ↦
    Ensures.bind (P := fun _ ↦ True) (fun _ ↦ trivial) fun last _ ↦ .pure hcode

theorem ensures_expandEach (sites : Nat) {entries : List (Routine × Stmt)}
    (hentries : ∀ entry ∈ entries, Stmt.AllRetain M K entry.2.flatten) :
    Ensures Fault.NotMissing (fun entries' ↦ entries'.map Prod.fst = entries.map Prod.fst ∧
      ∀ entry ∈ entries', Stmt.AllRetain (fun c ↦ M c ∧ c.Of (· ∉ i.inlined)) K entry.2.items)
      (expandEach i sites entries) := by
  induction entries generalizing sites with
  | nil => exact .pure ⟨rfl, by simp⟩
  | cons entry rest ih =>
    obtain ⟨hentry, hrest⟩ := forall_mem_cons.1 hentries
    have hexpand := ensures_expand hbodies hinlined entry.1 hentry sites
    refine Ensures.bind (.lift hexpand) fun e he ↦ (ensures_note _).bind fun _ _ ↦
      (ih _ hrest).bind fun rest' hrest' ↦ .pure ⟨?_, ?_⟩
    · rw [map_cons, map_cons, hrest'.1]
    · exact forall_mem_cons.2 ⟨he, hrest'.2⟩

end Expand

/-- A routine without a body that the entry still calls is called by one that has a body. -/
theorem outcome_called {bodies : Bodies} {entry : Routine} (hentry : entry ∈ bodies.keys) :
    Outcome (fun f ↦ ∃ caller ∈ bodies.entries, ∃ q ∈ caller.2.callSites, q ∉ bodies.keys ∧
      f = .missingCallee q.name) (fun _ ↦ True) (called bodies entry) := by
  unfold called
  dsimp only
  split
  · next r hfound =>
    obtain hmem := mem_of_find?_eq_some hfound
    have hnot : r ∉ bodies.keys := by
      have hcontains := find?_some hfound
      simpa [← Table.contains_iff] using hcontains
    have hcalled : r ∈ bodies.keys ∨ ∃ caller ∈ bodies.entries, r ∈ caller.2.callSites := by
      refine Reach.of_mem_closure (P := fun r ↦ r ∈ bodies.keys ∨
        ∃ caller ∈ bodies.entries, r ∈ caller.2.callSites) ?_ ?_ hmem
      · exact fun a ha ↦ .inl (mem_singleton.1 ha ▸ hentry)
      · intro a _ b hb
        obtain ⟨callees, hcallees, hb⟩ := CallGraph.exists_of_mem_callees hb
        obtain ⟨caller, hcaller, heq⟩ := mem_map.1 (Table.mem_of_get? hcallees)
        cases heq
        exact .inr ⟨caller, hcaller, hb⟩
    obtain ⟨caller, hcaller, hr⟩ := hcalled.resolve_left hnot
    exact ⟨caller, hcaller, r, hr, hnot, rfl⟩
  · trivial

/-- Some body of the program calls the routine from where extraction leaves calls as they are. -/
def Holds (p : Program) (q : Routine) : Prop := ∃ caller ∈ p.bodies.entries, q ∈ caller.2.heldCalls

/-- If the fault is that a routine has no body, the routine is one that is replaced by its body and
there is a call of it which extraction leaves where it is. -/
def Blames (p : Program) (mode : Inlining) (f : Fault) : Prop :=
  ∀ name, f = .missingCallee name →
    ∃ q, p.Holds q ∧ q ∈ p.analyze.inlined mode p.bodies.keys ∧ q.name = name

theorem ensures_prepare (hentry : p.entry ∈ p.bodies.keys)
    (hcomplete : ∀ entry ∈ p.bodies.entries, ∀ q ∈ entry.2.callSites, q ∈ p.bodies.keys)
    (mode : Inlining) : Ensures (p.Blames mode) (fun _ ↦ True) (p.prepare p.analyze mode) := by
  have hblames (f : Fault) (hf : f.NotMissing) : p.Blames mode f := fun name h ↦ absurd h (hf name)
  have hknown : ∀ entry ∈ p.bodies.entries, ∀ a ∈ entry.2.visit noteVisitor,
      a.Known (Callee.Of (· ∈ p.bodies.keys)) p.Holds := by
    rintro entry hmem ((q | b) | (q | b)) ha
    · exact hcomplete entry hmem q (Stmt.mem_callSites_iff.2 (Stmt.made_mem_visit.1 ha))
    · trivial
    · exact ⟨entry, hmem, mem_filterMap.2 ⟨_, ha, rfl⟩⟩
    · trivial
  generalize hinlined : p.analyze.inlined mode p.bodies.keys = inlined
  unfold prepare
  rw [if_pos (Table.contains_iff.2 hentry), hinlined]
  refine ((ensures_flat Callee.of_builtin hknown).mono hblames).bind fun flat hflat ↦ ?_
  obtain ⟨hkeys, hbodies⟩ := hflat
  have hcontains : ∀ r ∈ inlined, flat.contains r = true := by
    intro r hr
    rw [Table.contains_iff, hkeys]
    exact (Program.of_mem_inlined (hinlined ▸ hr)).1
  have hexpand : Ensures (p.Blames mode) (fun expanded ↦
      (∀ r, r ∈ expanded.keys ↔ r ∈ p.bodies.keys ∧ r ∉ inlined) ∧
      ∀ entry ∈ expanded.entries, ∀ q ∈ entry.2.callSites,
        (q ∈ p.bodies.keys ∧ q ∉ inlined) ∨ (q ∈ p.bodies.keys ∧ p.Holds q))
      (expand flat inlined) := by
    refine Ensures.bind ((ensures_expandEach (i := ⟨inlined, flat⟩) hbodies hcontains 0
      fun entry h ↦ hbodies entry (mem_filter.1 h).1).mono hblames)
      fun entries hentries ↦ .pure ⟨fun r ↦ ?_,
        fun entry hentry q ↦ (hentries.2 entry hentry).of_mem_callSites⟩
    show r ∈ entries.map Prod.fst ↔ _
    rw [hentries.1, ← hkeys]
    simp [Table.keys]
  refine hexpand.bind fun expanded hexpanded ↦ ?_
  obtain ⟨hexpandedKeys, hsites⟩ := hexpanded
  have hentry' : p.entry ∈ expanded.keys :=
    (hexpandedKeys _).2 ⟨hentry, fun h ↦ (Program.of_mem_inlined (hinlined ▸ h)).2.1 rfl⟩
  have hcalled : Outcome (p.Blames mode) (fun _ ↦ True) (called expanded p.entry) := by
    have houtcome := outcome_called hentry'
    rcases hrun : called expanded p.entry with f | live
    · rw [hrun] at houtcome
      obtain ⟨caller, hcaller, q, hq, hnot, rfl⟩ := houtcome
      rintro name ⟨⟩
      rcases hsites caller hcaller q hq with hkept | ⟨hbody, hheld⟩
      · exact absurd ((hexpandedKeys q).2 hkept) hnot
      · refine ⟨q, hheld, ?_, rfl⟩
        rw [hinlined]
        by_contra hremains
        exact hnot ((hexpandedKeys q).2 ⟨hbody, hremains⟩)
    · trivial
  exact Ensures.bind (.lift hcalled) fun _ _ ↦ (ensures_note _).bind fun _ _ ↦
    (ensures_note _).bind fun _ _ ↦ .pure trivial

/-- The preparation of a program that has its entry and the body of every routine that it calls
stops because a routine has no body only if there is a call which extraction leaves where it is, in
the arguments of an event or in the array that a literal list is stored to, and if it is a call of a
routine that is replaced by its body. -/
theorem heldCall_of_missingCallee (p : Program) (mode : Inlining) (hentry : p.entry ∈ p.bodies.keys)
    (hcomplete : ∀ entry ∈ p.bodies.entries, ∀ q ∈ entry.2.callSites, q ∈ p.bodies.keys)
    {notices notices' : List Notice} {name : String}
    (h : (p.prepare p.analyze mode).run notices = (.error (.missingCallee name), notices')) :
    ∃ caller ∈ p.bodies.entries, ∃ q ∈ caller.2.heldCalls,
      q ∈ p.analyze.inlined mode p.bodies.keys ∧ q.name = name := by
  have hprepare := ensures_prepare hentry hcomplete mode notices
  rw [h] at hprepare
  obtain ⟨q, ⟨caller, hcaller, hheld⟩, hq, hname⟩ := hprepare name rfl
  exact ⟨caller, hcaller, q, hheld, hq, hname⟩

/-- The routine that the preparation finds to have no body. -/
def missing? (p : Program) (mode : Inlining) : Option String :=
  match ((p.prepare p.analyze mode).run []).1 with
  | .error (.missingCallee name) => some name
  | _ => none

theorem exists_of_missing? {mode : Inlining} (h : p.missing? mode = some name) :
    ∃ notices, (p.prepare p.analyze mode).run [] = (.error (.missingCallee name), notices) := by
  unfold missing? at h
  split at h
  · next name' hrun =>
    cases h
    exact ⟨_, Prod.ext hrun rfl⟩
  · cases h

end Program

/-- A routine that gives a number. -/
def buttonKind : Routine := .declare 1 "f" [] .float {}

/-- Waits for a button of the kind that a routine gives: `on Button(f()) {}`. -/
def waiting : Program where
  bodies := ⟨[(.declare 0 "main" [] .void {},
      .block default [.on default .button [Build.call (.routine buttonKind) [] default]
        (.block default [])]),
    (buttonKind, .block default [.retValue default (Build.float 1 default)])]⟩
  entry := .declare 0 "main" [] .void {}

theorem Program.heldCall_of_missingCallee_waiting :
    waiting.missing? .auto = some "f" ∧ ∃ caller ∈ waiting.bodies.entries,
      ∃ q ∈ caller.2.heldCalls, q ∈ waiting.analyze.inlined .auto waiting.bodies.keys ∧
        q.name = "f" := by
  have hmissing : waiting.missing? .auto = some "f" := by decide +kernel
  obtain ⟨notices, h⟩ := exists_of_missing? hmissing
  exact ⟨hmissing, heldCall_of_missingCallee waiting .auto (by decide +kernel)
    (by decide +kernel) h⟩

/-- Every routine that is called has a body, and yet one goes missing when it is replaced. -/
theorem Program.missing?_waiting : waiting.entry ∈ waiting.bodies.keys ∧
      (∀ entry ∈ waiting.bodies.entries, ∀ q ∈ entry.2.callSites, q ∈ waiting.bodies.keys) ∧
      waiting.missing? .never = none ∧ waiting.missing? .auto = some "f" ∧
      waiting.missing? .always = some "f" := by
  decide +kernel

end Wirescript
