import Mathlib.Data.List.Infix
import Wirescript.Proofs.Live
import Wirescript.Proofs.Notes

/-!
# The normal form of lowered code

Lowering leaves one list of statements in which nothing is nested, and control can get to every
statement of it but marks. Two things make the second part more than the search of the flow graph.
The search is made before anything is dropped, so the way to a statement has to be found again in what
is left: `Aligned` says where a place of the whole code lies among the statements that stay, and a
place has only one such partner (`Aligned.unique`). And marks stay even where control does not get to,
so it must be seen that it does not fall into them: a way through what is left is a way through the
whole code (`Aligned.exists_way_of_kept`).

Marks come in pairs. Lowering puts pairs of its own around stretches of marks (`Hint.Wrapped`), which
leaves marks balanced that were balanced before.
-/

namespace Wirescript

open Stmt
open List

variable {pair : Hint × Hint} {runs : List (List Stmt)} {pre : List Stmt} {n : Note}
  {routine : Routine} {s : Stmt}

/-! ### Marks -/

namespace Hint

/-- A mark with the one that it is closed by. -/
def pairs : List (Hint × Hint) := [(.enterBlock, .exitBlock), (.enterHighlight, .exitHighlight)]

/-- No mark of either kind is closed before it is opened, and all are closed in the end. -/
def Balanced (hints : List Hint) : Prop :=
  ∀ pair ∈ pairs, (∀ pre ∈ hints.inits, pre.count pair.2 ≤ pre.count pair.1) ∧
    hints.count pair.2 = hints.count pair.1

instance (hints : List Hint) : Decidable (Balanced hints) :=
  inferInstanceAs (Decidable (∀ pair ∈ pairs,
    (∀ pre ∈ hints.inits, pre.count pair.2 ≤ pre.count pair.1) ∧
      hints.count pair.2 = hints.count pair.1))

/-- Pairs of marks have been put around stretches of the first list. -/
inductive Wrapped : List Hint → List Hint → Prop
  | refl (xs : List Hint) : Wrapped xs xs
  | append {xs ys xs' ys' : List Hint} (h : Wrapped xs ys) (h' : Wrapped xs' ys') :
      Wrapped (xs ++ xs') (ys ++ ys')
  | around {xs ys : List Hint} (h : Wrapped xs ys) :
      Wrapped xs (.enterBlock :: (ys ++ [.exitBlock]))

/-- How many marks of a kind are open. -/
def excess (pair : Hint × Hint) (hints : List Hint) : Int := hints.count pair.1 - hints.count pair.2

theorem excess_append (pair : Hint × Hint) (xs ys : List Hint) :
    excess pair (xs ++ ys) = excess pair xs + excess pair ys := by
  simp only [excess, count_append]
  omega

/-- A pair opens one mark and closes it, or does neither. -/
theorem excess_around (hpair : pair ∈ pairs) :
    0 ≤ excess pair [.enterBlock] ∧ excess pair [.enterBlock] + excess pair [.exitBlock] = 0 := by
  simp only [pairs, mem_cons, not_mem_nil, or_false] at hpair
  rcases hpair with rfl | rfl <;> decide

/-- What is open somewhere in the wrapped list is open somewhere in the list. -/
theorem Wrapped.excess (hpair : pair ∈ pairs) {xs ys : List Hint} (h : Wrapped xs ys) :
    excess pair ys = excess pair xs ∧
      ∀ pre, pre <+: ys → ∃ pre', pre' <+: xs ∧ excess pair pre' ≤ excess pair pre := by
  induction h with
  | refl xs => exact ⟨rfl, fun pre hpre ↦ ⟨pre, hpre, Int.le_refl _⟩⟩
  | @append xs ys xs' ys' _ _ ih ih' =>
    obtain ⟨htotal, hopen⟩ := ih
    obtain ⟨htotal', hopen'⟩ := ih'
    refine ⟨by rw [excess_append, excess_append, htotal, htotal'], fun pre hpre ↦ ?_⟩
    rcases prefix_or_prefix_of_prefix hpre (prefix_append ys ys') with hpre | ⟨q, rfl⟩
    · obtain ⟨pre', hpre', hle⟩ := hopen pre hpre
      exact ⟨pre', hpre'.trans (prefix_append _ _), hle⟩
    · obtain ⟨q', hq', hle⟩ := hopen' q ((prefix_append_right_inj ys).1 hpre)
      refine ⟨xs ++ q', (prefix_append_right_inj xs).2 hq', ?_⟩
      rw [excess_append, excess_append]
      omega
  | @around xs ys _ ih =>
    obtain ⟨htotal, hopen⟩ := ih
    obtain ⟨henter, hboth⟩ := excess_around hpair
    have hwhole : Hint.excess pair (.enterBlock :: (ys ++ [.exitBlock])) = Hint.excess pair xs := by
      rw [← singleton_append, excess_append, excess_append]
      omega
    refine ⟨hwhole, fun pre hpre ↦ ?_⟩
    rcases prefix_cons_iff.1 hpre with rfl | ⟨q, rfl, hq⟩
    · exact ⟨[], nil_prefix, Int.le_refl _⟩
    · rcases prefix_concat_iff.1 hq with rfl | hq
      · exact ⟨xs, prefix_refl _, Int.le_of_eq hwhole.symm⟩
      · obtain ⟨q', hq', hle⟩ := hopen q hq
        refine ⟨q', hq', ?_⟩
        rw [← singleton_append, excess_append]
        omega

theorem Balanced.wrapped {xs ys : List Hint} (h : Balanced xs) (hwrapped : Wrapped xs ys) :
    Balanced ys := by
  intro pair hpair
  obtain ⟨hopen, htotal⟩ := h pair hpair
  obtain ⟨htotal', hopen'⟩ := hwrapped.excess hpair
  simp only [Hint.excess] at htotal' hopen'
  refine ⟨fun pre hpre ↦ ?_, by omega⟩
  obtain ⟨pre', hpre', hle⟩ := hopen' pre (mem_inits _ _ |>.1 hpre)
  have := hopen pre' (mem_inits _ _ |>.2 hpre')
  omega

end Hint

namespace Stmt

mutual

/-- The marks of a statement in the order of the script, apart from those inside expressions. -/
def hints : Stmt → List Hint
  | .block _ items => allHints items
  | .ifThen _ _ body | .whileLoop _ _ body | .doWhile _ body _ | .on _ _ _ body => body.hints
  | .ifElse _ _ body alternative => body.hints ++ alternative.hints
  | .hint _ h => [h]
  | .declare .. | .define .. | .assign .. | .compound .. | .label .. | .goto .. | .gotoIf ..
  | .gotoOn .. | .rollback .. | .ret _ | .retValue .. | .call .. | .expression .. | .nop _ => []

@[inherit_doc hints]
def allHints : List Stmt → List Hint
  | [] => []
  | s :: rest => s.hints ++ allHints rest

end

@[simp] theorem allHints_append (xs ys : List Stmt) :
    allHints (xs ++ ys) = allHints xs ++ allHints ys := by
  induction xs with
  | nil => rfl
  | cons s xs ih => rw [cons_append, allHints, allHints, ih, append_assoc]

mutual

theorem allHints_flatten (s : Stmt) : allHints s.flatten = s.hints := by
  match s with
  | .block span items => exact allHints_flattenAll items
  | .declare .. | .define .. | .assign .. | .compound .. | .ifThen .. | .ifElse .. | .whileLoop ..
  | .doWhile .. | .on .. | .label .. | .goto .. | .gotoIf .. | .gotoOn .. | .rollback .. | .ret _
  | .retValue .. | .call .. | .expression .. | .hint .. | .nop _ => exact append_nil _

theorem allHints_flattenAll (items : List Stmt) : allHints (flattenAll items) = allHints items := by
  match items with
  | [] => rfl
  | s :: rest =>
    rw [flattenAll, allHints_append, allHints_flatten s, allHints_flattenAll rest]
    rfl

end

/-! ### Statements without structure -/

/-- Neither a conditional, a loop or a handler, nor a compound assignment. -/
def isElementary : Stmt → Bool
  | .compound .. | .ifThen .. | .ifElse .. | .whileLoop .. | .doWhile .. | .on .. => false
  | _ => true

/-- A statement without parts has at most the mark that it is. -/
theorem hints_eq_nil (hblock : s.isBlock = false) (helementary : s.isElementary = true)
    (hs : s.isHint = false) : s.hints = [] := by
  cases s
  case block => cases hblock
  case ifThen | ifElse | whileLoop | doWhile | on => cases helementary
  case hint => cases hs
  all_goals rfl

end Stmt

@[inherit_doc Stmt.isElementary]
def Expr.isElementary : Expr → Bool
  | .compound .. => false
  | _ => true

/-- Nothing in the expression is structured, the statements that it runs included. -/
abbrev Expr.Elementary (e : Expr) : Prop :=
  e.Each (fun e ↦ e.isElementary = true) fun s ↦ s.isElementary = true

@[inherit_doc Expr.Elementary]
abbrev Expr.AllElementary (es : List Expr) : Prop :=
  Expr.AllEach (fun e ↦ e.isElementary = true) (fun s ↦ s.isElementary = true) es

/-- Nothing in the statement is structured, down to the statements that its expressions run. -/
abbrev Stmt.Elementary (s : Stmt) : Prop :=
  s.Each (fun e ↦ e.isElementary = true) fun s ↦ s.isElementary = true

@[inherit_doc Stmt.Elementary]
abbrev Stmt.AllElementary (items : List Stmt) : Prop :=
  Stmt.AllEach (fun e ↦ e.isElementary = true) (fun s ↦ s.isElementary = true) items

/-- A statement without structure that has the marks of another one, with pairs around some. -/
structure Stmt.Unfolds (t s : Stmt) : Prop where
  elementary : t.Elementary
  hints : Hint.Wrapped s.hints t.hints

@[inherit_doc Unfolds]
structure Stmt.AllUnfold (code items : List Stmt) : Prop where
  elementary : Stmt.AllElementary code
  hints : Hint.Wrapped (allHints items) (allHints code)

namespace Lower

theorem elementary_settle {changed : Bool} {kept derived : Expr} (hkept : kept.Elementary)
    (hderived : derived.Elementary) : (settle n changed kept derived).node.Elementary :=
  settle_cases (P := (·.node.Elementary)) (fun _ _ ↦ ⟨rfl, trivial⟩) (fun _ ↦ hkept) fun _ ↦ hderived

theorem elementary_foldCall {callee : Callee} {arguments : Revised (List Expr)} {r : Revised Expr}
    (h : Expr.AllElementary arguments.node) (hr : foldCall n callee arguments = .ok r) :
    r.node.Elementary := by
  obtain rfl | ⟨_, _, _, _, -, -, -, -, rfl⟩ := foldCall_cases hr
  · exact ⟨rfl, h⟩
  · exact ⟨rfl, trivial⟩

theorem elementary_jumpIf {condition : Expr} (h : condition.Elementary) (target : Label)
    (sense : Bool) (span : Span) : (jumpIf condition target sense span).Elementary ∧
      (jumpIf condition target sense span).hints = [] :=
  jumpIf_cases (P := fun s ↦ s.Elementary ∧ s.hints = []) ⟨⟨rfl, trivial⟩, rfl⟩
    ⟨⟨rfl, trivial⟩, rfl⟩ ⟨⟨rfl, h⟩, rfl⟩

/-- Nothing has structure, and statements have pairs of marks around branches. -/
def unfoldScheme : Scheme where
  supply := Supplies .all
  expr _ _ r _ := r.node.Elementary
  exprs _ _ r _ := Expr.AllElementary r.node
  stmt s _ r _ := r.node.Unfolds s
  stmts items _ r _ := AllUnfold r.node items

theorem lawful_unfoldScheme : unfoldScheme.Lawful where
  atom {e} h _ := by cases e <;> first | exact ⟨rfl, trivial⟩ | cases h
  unary h := elementary_settle ⟨rfl, h⟩ ⟨rfl, h⟩
  binary hl hr := elementary_settle ⟨rfl, hl, hr⟩ ⟨rfl, hl, hr⟩
  make hx hy hz := elementary_settle ⟨rfl, hx, hy, hz⟩ ⟨rfl, hx, hy, hz⟩
  call h hr := elementary_foldCall h hr
  convert h := elementary_settle ⟨rfl, h⟩ ⟨rfl, h⟩
  statement h := ⟨rfl, h.elementary⟩
  atomStmt {s} h _ := by cases s <;> first | exact ⟨⟨rfl, trivial⟩, .refl _⟩ | cases h
  block h := ⟨⟨rfl, h.elementary⟩, h.hints⟩
  define h := ⟨⟨rfl, h⟩, .refl _⟩
  store h := ⟨⟨rfl, h⟩, .refl _⟩
  combine h := ⟨⟨rfl, rfl, ⟨rfl, trivial⟩, h⟩, .refl _⟩
  retValue h := ⟨⟨rfl, h⟩, .refl _⟩
  expression h := ⟨⟨rfl, h⟩, .refl _⟩
  invoke h := ⟨⟨rfl, h⟩, .refl _⟩
  gotoIf {span l _ sense _ _ _} h := by
    obtain ⟨hjump, hhints⟩ := elementary_jumpIf h l sense span
    exact ⟨hjump, hhints ▸ .refl _⟩
  gotoOn h := ⟨⟨rfl, h⟩, .refl _⟩
  ifThen {span _ _ _ _ _ _ σ₂} _ hc hb := by
    obtain ⟨hjump, hhints⟩ := elementary_jumpIf hc (σ₂.fresh "end").1 false span
    refine ⟨⟨rfl, hjump, ⟨rfl, trivial⟩, hb.elementary, ⟨rfl, trivial⟩, ⟨rfl, trivial⟩, trivial⟩, ?_⟩
    simpa [Revised.new, hints, allHints, grouped, hhints] using hb.hints.around
  ifElse {span _ _ _ _ _ _ _ _ _ σ₃} _ hc hb ha := by
    obtain ⟨hjump, hhints⟩ := elementary_jumpIf hc ((σ₃.fresh "end").2.fresh "else").1 false span
    refine ⟨⟨rfl, hjump, ⟨rfl, trivial⟩, hb.elementary, ⟨rfl, trivial⟩, ⟨rfl, trivial⟩,
      ⟨rfl, trivial⟩, ⟨rfl, trivial⟩, ha.elementary, ⟨rfl, trivial⟩, ⟨rfl, trivial⟩, trivial⟩, ?_⟩
    simpa [Revised.new, hints, allHints, grouped, hhints] using
      hb.hints.around.append ha.hints.around
  whileLoop {span _ _ _ _ _ _ σ₂} _ hc hb := by
    obtain ⟨hjump, hhints⟩ :=
      elementary_jumpIf hc ((σ₂.fresh "continue").2.fresh "break").1 false span
    refine ⟨⟨rfl, ⟨rfl, trivial⟩, hjump, hb.elementary, ⟨rfl, trivial⟩, ⟨rfl, trivial⟩, trivial⟩, ?_⟩
    simpa [Revised.new, hints, allHints, hhints] using hb.hints
  doWhile {span _ _ _ _ _ _ σ₂} _ hb hc := by
    obtain ⟨hjump, hhints⟩ := elementary_jumpIf hc (σ₂.fresh "body").1 true span
    refine ⟨⟨rfl, ⟨rfl, trivial⟩, hb.elementary, ⟨rfl, trivial⟩, hjump, ⟨rfl, trivial⟩, trivial⟩, ?_⟩
    simpa [Revised.new, hints, allHints, hhints] using hb.hints
  on _ ha hb := by
    refine ⟨⟨rfl, ⟨rfl, ha⟩, ⟨rfl, trivial⟩, ⟨rfl, trivial⟩, hb.elementary, ⟨rfl, trivial⟩,
      ⟨rfl, trivial⟩, trivial⟩, ?_⟩
    simpa [Revised.new, hints, allHints] using hb.hints
  nilStmts _ := ⟨trivial, .refl _⟩
  consStmts h hs := ⟨⟨h.elementary, hs.elementary⟩, h.hints.append hs.hints⟩

/-- A statement is lowered to one without structure, with pairs of marks around branches. -/
theorem keeps_unfolds (s : Stmt) : Keeps .all (fun r ↦ r.node.Unfolds s) (stmt s) := by
  intro σ r σ' hσ hrun
  exact (lawful_unfoldScheme.from_stmt s σ).of_run hσ hrun

end Lower

/-! ### Places that control gets to -/

namespace Stmt

/-- The code that is left when control has come to a place of a code. A rollback counts as a jump to
its label. -/
abbrev Visited (code rest : List Stmt) : Prop := Way target? code code rest

variable {code rest : List Stmt}

/-- Control runs off the end only behind a last statement that lets it. -/
theorem Visited.exists_last (h : Visited code []) (hne : code ≠ []) :
    ∃ last, Visited code [last] ∧ code.getLast? = some last ∧ last.endsFlow = false := by
  cases h with
  | refl => exact absurd rfl hne
  | @next last _ h hs =>
    obtain ⟨before, rfl⟩ := h.suffix (suffix_refl _)
    exact ⟨last, h, by simp, hs⟩
  | jump _ _ hthere =>
    obtain ⟨_, _, hcons, -⟩ := exists_cons_of_from? hthere
    cases hcons

end Stmt

open Wirescript.Flow

variable {code rest rest' : List Stmt} {f : Flow}

/-- Marks are never dropped. -/
theorem allHints_kept (reached : List Nat) (id : Nat)
    (hruns : ∀ run ∈ runs, ∀ s ∈ run, s.isBlock = false ∧ s.isElementary = true) :
    allHints (kept reached id runs) = allHints runs.flatten := by
  have hfilter {run : List Stmt} (hrun : ∀ s ∈ run, s.isBlock = false ∧ s.isElementary = true) :
      allHints (run.filter isHint) = allHints run := by
    induction run with
    | nil => rfl
    | cons s run ih =>
      obtain ⟨⟨hblock, helementary⟩, hrun⟩ := forall_mem_cons.1 hrun
      rw [filter_cons, allHints, ← ih hrun]
      split
      · rfl
      · next hs =>
        rw [hints_eq_nil hblock helementary (Bool.eq_false_iff.2 hs)]
        rfl
  induction runs generalizing id with
  | nil => rfl
  | cons run runs ih =>
    obtain ⟨hrun, hruns⟩ := forall_mem_cons.1 hruns
    rw [kept, flatten_cons, allHints_append, allHints_append, ih (id + 1) hruns]
    split
    · rfl
    · rw [hfilter hrun]

/-! ### The end of the code -/

theorem Flow.exit_of_build (h : build code = .ok f) : f.exit = match code.getLast? with
      | none => some start
      | some last => if last.endsFlow then none else some ((Flow.runs code).length + 1) := by
  obtain ⟨nodes, -, h⟩ := bind_eq_ok.1 h
  cases h
  rfl

/-- The graph sees it if control can run off the end. -/
theorem Flow.fallsThrough_of_visited (hf : build code = .ok f) (h : Visited code []) :
    f.fallsThrough = true := by
  rcases eq_or_ne code [] with rfl | hne
  · rw [fallsThrough, exit_of_build hf]
    exact decide_eq_true (Reach.mem_closure_of_mem_roots (.head _))
  · obtain ⟨last, hlast, hget, hend⟩ := h.exists_last hne
    rw [fallsThrough, exit_of_build hf, hget]
    simp only [hend, Bool.false_eq_true, if_false, decide_eq_true_eq]
    -- the last statement ends the last run, and control gets to it
    obtain ⟨rest', haligned, -⟩ := (Aligned.start hf hne).exists_way (fun _ _ ↦ id) hf hlast
    obtain ⟨before, pre, part, after, hruns, hreached, hrest, -⟩ := haligned.cons
    obtain ⟨-, hafter⟩ := append_eq_nil_iff.1 hrest.symm
    have hnone : after = [] := by
      refine eq_nil_iff_forall_not_mem.2 fun run hrun ↦ ?_
      have hmem : run ∈ Flow.runs code := by
        rw [hruns]
        exact mem_append_right _ (.tail _ hrun)
      exact ne_nil_of_mem_runs hmem (flatten_eq_nil_iff.1 hafter run hrun)
    rw [hruns, hnone, List.length_append]
    exact hreached

/-- Behind the return that closes the code of a routine without a result there is nothing to get
to. -/
theorem not_visited_of_closeFlat {span : Span} {closed : List Stmt}
    (hvoid : routine.returnType.isVoid = true) (h : closeFlat routine span code = .ok closed) :
    ¬ Visited closed [] := by
  intro hvisited
  rw [closeFlat, if_pos hvoid] at h
  obtain ⟨f, hf, h⟩ := bind_eq_ok.1 h
  split at h
  · cases h
    obtain ⟨last, -, hlast, hend⟩ := hvisited.exists_last (by simp)
    obtain rfl : Stmt.ret span = last := by simpa using hlast
    cases hend
  · next hfalls =>
    cases h
    exact hfalls (fallsThrough_of_visited hf hvisited)

theorem not_visited_of_dropUnreachable {live : List Stmt} (h : ¬ Visited code [])
    (hlive : dropUnreachable code = .ok live) : ¬ Visited live [] := by
  obtain ⟨f, hf, rfl⟩ := dropUnreachable_eq hlive
  have hne : code ≠ [] := by
    rintro rfl
    exact h .refl
  intro hvisited
  obtain ⟨rest, haligned, hvisited⟩ :=
    (Aligned.start hf hne).exists_way_of_kept (fun _ _ ↦ id) hf hvisited
  rw [head?_eq_none_iff.1 haligned.head?_eq] at hvisited
  exact h hvisited

/-! ### Lowered code -/

/-- Flat code of which control can get to every statement but marks. -/
structure Stmt.Normal (code : List Stmt) : Prop where
  /-- Nothing is nested. -/
  single : ∀ s ∈ code, s.isBlock = false
  /-- Nothing is structured, down to the statements that expressions run. -/
  elementary : ∀ s ∈ code, s.Elementary
  /-- Control gets to every statement that is no mark. -/
  visited {pre rest : List Stmt} {s : Stmt} (h : code = pre ++ s :: rest) (hs : s.isHint = false) :
    Visited code (s :: rest)

theorem Lowered.elementary_of_mem {body : Stmt} {σ : LabelSupply} {r : Revised Stmt}
    (hr : (Lower.stmt body).run { scope := routine.name } = .ok (r, σ)) (hs : s ∈ r.node.flatten) :
    s.Elementary := by
  obtain ⟨-, hunfolds⟩ := Lower.keeps_unfolds body { scope := routine.name } r σ
    (fun _ _ _ ↦ trivial) hr
  exact hunfolds.elementary.of_mem_flatten hs

/-- Lowered code is in normal form. If the routine has no result, control cannot run off its end. Its
marks are those of the whole body as it was before anything was dropped, and they are balanced if
those of the script are. -/
theorem Lowered.normal_statements {routine : Routine} {body : Stmt} {l : Lowered}
    (h : lower routine body = .ok l) :
    Stmt.Normal l.statements ∧ (routine.returnType.isVoid = true → ¬ Visited l.statements []) ∧
      (∃ r σ, (Lower.stmt body).run { scope := routine.name } = .ok (r, σ) ∧
        Stmt.allHints l.statements = Stmt.allHints r.node.flatten) ∧
      (Hint.Balanced body.hints → Hint.Balanced (Stmt.allHints l.statements)) := by
  obtain ⟨r, σ, code, hr, hcode, hlive⟩ := lower_eq_ok h
  have hplain : ∀ s ∈ code, s.isBlock = false ∧ s.Elementary := by
    have hflat : ∀ s ∈ r.node.flatten, s.isBlock = false ∧ s.Elementary := fun s hs ↦
      ⟨Stmt.isBlock_of_mem_flatten hs, Lowered.elementary_of_mem hr hs⟩
    rcases closeFlat_eq_ok hcode with rfl | rfl
    · exact hflat
    · exact forall_mem_append.2 ⟨hflat, forall_mem_singleton.2 ⟨rfl, rfl, trivial⟩⟩
  have hhints : Stmt.allHints l.statements = Stmt.allHints r.node.flatten := by
    obtain ⟨f, hf, hkept⟩ := dropUnreachable_eq hlive
    have hruns : ∀ run ∈ Flow.runs code, ∀ s ∈ run, s.isBlock = false ∧ s.isElementary = true := by
      intro run hrun s hs
      have hmem : s ∈ code := by
        rw [← flatten_runs code]
        exact mem_flatten.2 ⟨run, hrun, hs⟩
      exact ⟨(hplain s hmem).1, (hplain s hmem).2.node⟩
    rw [hkept, allHints_kept _ _ hruns, flatten_runs]
    rcases closeFlat_eq_ok hcode with rfl | rfl
    · rfl
    · rw [Stmt.allHints_append]
      exact append_nil _
  refine ⟨⟨fun s hs ↦ ?_, fun s hs ↦ ?_, fun hsplit hs ↦ ?_⟩, fun hvoid ↦ ?_, ⟨r, σ, hr, hhints⟩,
    fun hbalanced ↦ ?_⟩
  · exact (hplain s (mem_of_mem_dropUnreachable hlive hs)).1
  · exact (hplain s (mem_of_mem_dropUnreachable hlive hs)).2
  · exact way_of_dropUnreachable (fun _ _ _ _ ↦ .jump) (fun _ _ ↦ id) hlive hsplit hs
  · exact not_visited_of_dropUnreachable (not_visited_of_closeFlat hvoid hcode) hlive
  · obtain ⟨-, hunfolds⟩ := Lower.keeps_unfolds body { scope := routine.name } r σ
      (fun _ _ _ ↦ trivial) hr
    rw [hhints, Stmt.allHints_flatten]
    exact hbalanced.wrapped hunfolds.hints

/-- A loop that is left by a return only, with code behind it that is never reached, between marks:
`while (true) { if (x) return; } x = true`. -/
def markedLoop : Stmt :=
  let x : Variable := .slot ⟨.declared 0, "x", .bool, .global, {}⟩
  .block default [
    .hint default .enterHighlight,
    .whileLoop default (Build.literal (.bool true) default)
      (.ifThen default (Build.read x default) (.ret default)),
    .assign default x (Build.literal (.bool true) default),
    .hint default .exitHighlight]

theorem Lowered.normal_statements_markedLoop :
    ∃ l, lower (.declare 0 "main" [] .void {}) markedLoop = .ok l ∧ l.dropped = 2 ∧
      Stmt.Normal l.statements ∧ ¬ Visited l.statements [] ∧
      Stmt.allHints l.statements = [.enterHighlight, .enterBlock, .exitBlock, .exitHighlight] ∧
      Hint.Balanced (Stmt.allHints l.statements) := by
  obtain ⟨l, hl, hdropped, hhints⟩ : ∃ l, lower (.declare 0 "main" [] .void {}) markedLoop = .ok l ∧
      l.dropped = 2 ∧ Stmt.allHints l.statements =
        [.enterHighlight, .enterBlock, .exitBlock, .exitHighlight] := ⟨_, rfl, rfl, rfl⟩
  obtain ⟨hnormal, hend, -, hbalanced⟩ := Lowered.normal_statements hl
  exact ⟨l, hl, hdropped, hnormal, hend rfl, hhints, hbalanced (by decide)⟩

end Wirescript
