import Wirescript.Proofs.Positions

/-!
# Lowering twice

Lowered code is a fixed point of lowering (`Lowered.lower_body`): one pass folds all that can be
folded, resolves all conditions that are known and drops all that cannot be reached.

A second pass finds nothing to fold because notes are derived again above everything that changed. The
exception is a jump on a condition, which counts as changed whatever becomes of it; but then it counted
as changed the first time, so that the notes above it are derived ones already (`Lower.Repeats`). Nor
does it find anything to drop or to close, because control gets to all that stays, marks apart.
-/

namespace Wirescript

open List

variable {σ σ' : LabelSupply} {n : Note} {s : Stmt} {code live : List Stmt}

namespace Lower

variable {α β : Type} {pass : α → Lower (Revised α)} {r : Revised Stmt}

/-- Lowered once more, what became of a node stays as it is and no label is made up. It counts as
changed only if it did the first time. -/
def Repeats (pass : α → Lower (Revised α)) (r : Revised α) : Prop :=
  ∃ changed, (changed = true → r.changed = true) ∧
    ∀ σ, (pass r.node).run σ = .ok (⟨r.node, changed⟩, σ)

theorem run_bind_of_run {x : Lower α} {f : α → Lower β} {a : α} (h : x.run σ = .ok (a, σ')) :
    (x >>= f).run σ = (f a).run σ' := by
  rw [StateT.run_bind, h]
  rfl

/-- The node stays as it is. -/
theorem Repeats.same {a : α} (h : ∀ σ, (pass a).run σ = .ok (.same a, σ)) :
    Repeats pass (.same a) :=
  ⟨false, fun h ↦ absurd h Bool.false_ne_true, h⟩

theorem Repeats.new {r : Revised α} (h : Repeats pass r) : Repeats pass (.new r.node) := by
  obtain ⟨changed, -, hrun⟩ := h
  exact ⟨changed, fun _ ↦ rfl, hrun⟩

/-- The node has one part, which repeats. -/
theorem Repeats.map {pass' : β → Lower (Revised β)} {f : α → β} {r : Revised α} (h : Repeats pass r)
    (hf : ∀ a, pass' (f a) = pass a >>= fun r ↦ pure (r.map f)) : Repeats pass' (r.map f) := by
  obtain ⟨changed, hchanged, hrun⟩ := h
  refine ⟨changed, hchanged, fun σ ↦ ?_⟩
  rw [Revised.map, hf, run_bind_of_run (hrun σ)]
  rfl

theorem or_imp_or {a b c d : Bool} (h : a = true → c = true) (h' : b = true → d = true) :
    (a || b) = true → (c || d) = true := by
  cases a <;> cases b <;> simp_all

/-- The list has a first item and others, which repeat. -/
theorem Repeats.cons {pass' : List α → Lower (Revised (List α))} {r : Revised α}
    {rs : Revised (List α)} (h : Repeats pass r) (hs : Repeats pass' rs)
    (hf : ∀ a as, pass' (a :: as) = do return .map₂ List.cons (← pass a) (← pass' as)) :
    Repeats pass' (.map₂ List.cons r rs) := by
  obtain ⟨changed, hchanged, hrun⟩ := h
  obtain ⟨changed', hchanged', hrun'⟩ := hs
  refine ⟨changed || changed', or_imp_or hchanged hchanged', fun σ ↦ ?_⟩
  rw [Revised.map₂, hf, run_bind_of_run (hrun σ), run_bind_of_run (hrun' σ)]
  rfl

/-! ### Expressions -/

theorem repeats_atom {e : Expr} (h : e.isAtom = true) : Repeats expr (.same e) := by
  refine .same fun σ ↦ ?_
  cases e
  case literal | read | step | error =>
    rw [expr]
    rfl
  all_goals cases h

theorem repeats_literal (v : Value) (span : Span) : Repeats expr (.new (Build.literal v span)) :=
  (repeats_atom (e := Build.literal v span) rfl).new

/-- What an operator is settled to repeats, if it is settled again by notes that are derived in the
same way: `derive` makes a note of operands that stay, and keeps type and span if it is one. -/
theorem repeats_settle (form : Note → Expr) (derive : Note → Note) {changed again : Bool}
    (hform : ∀ m, (form m).constant = m.constant) (hderive : ∀ m, derive (derive m) = derive m)
    (hagain : again = true → changed = true)
    (hrun : ∀ m σ, (expr (form m)).run σ = .ok (settle m again (form m) (form (derive m)), σ)) :
    Repeats expr (settle n changed (form n) (form (derive n))) := by
  -- an operator without a value is settled to itself
  have hself {m : Note} (hm : m.constant = none) (hnone : (derive m).constant = none)
      (heq : again = true → form m = form (derive m)) :
      settle m again (form m) (form (derive m)) = ⟨form m, again⟩ := by
    unfold settle
    rw [hm, hform, hnone]
    cases again with
    | true => exact congrArg (Revised.mk · true) (heq rfl).symm
    | false => rfl
  conv in settle _ _ _ _ => unfold settle
  split
  · exact repeats_literal _ _
  · next hnone =>
    obtain ⟨hn, hconstant⟩ := Option.or_eq_none_iff.1 hnone
    rw [hform] at hconstant
    cases changed with
    | true =>
      refine ⟨again, fun _ ↦ rfl, fun σ ↦ (hrun (derive n) σ).trans ?_⟩
      rw [hself hconstant ((hderive n).symm ▸ hconstant) fun _ ↦ by rw [hderive]]
      rfl
    | false =>
      refine ⟨again, hagain, fun σ ↦ (hrun n σ).trans ?_⟩
      rw [hself hn hconstant fun h ↦ absurd (hagain h) Bool.false_ne_true]
      rfl

theorem foldCall_again {callee : Callee} {as : Revised (List Expr)}
    (h : foldCall n callee as = .ok (as.map (.call n callee))) (changed : Bool) :
    foldCall n callee ⟨as.node, changed⟩ = .ok ⟨.call n callee as.node, changed⟩ := by
  unfold foldCall at h ⊢
  dsimp only at h ⊢
  split
  · rfl
  · next b hb =>
    rw [hb] at h
    dsimp only at h
    split
    · rfl
    · next hevaluator hp =>
      simp only [hevaluator, hp] at h
      cases h
    · next hevaluator hp =>
      simp only [hevaluator, hp] at h
      split
      · next hv =>
        rw [hv] at h
        cases h
      · rfl

theorem repeats_foldCall {callee : Callee} {as : Revised (List Expr)} {r : Revised Expr}
    (h : Repeats exprs as) (hr : foldCall n callee as = .ok r) : Repeats expr r := by
  rcases foldCall_cases hr with rfl | ⟨_, _, _, v, -, -, -, -, rfl⟩
  · obtain ⟨changed, hchanged, hrun⟩ := h
    refine ⟨changed, hchanged, fun σ ↦ ?_⟩
    rw [Revised.map, expr, run_bind_of_run (hrun σ), foldCall_again hr]
    rfl
  · exact repeats_literal _ _

theorem repeats_unary {op : UnaryOp} {o : Revised Expr} (h : Repeats expr o) :
    Repeats expr (settle n o.changed (.unary n op o.node) (Build.unary op o.node n.span)) := by
  obtain ⟨changed, hchanged, hrun⟩ := h
  refine repeats_settle (.unary · op o.node)
    (fun m ↦ (Build.unary op o.node m.span).note) (fun _ ↦ rfl) (fun _ ↦ rfl) hchanged
    fun m σ ↦ ?_
  rw [expr, run_bind_of_run (hrun σ)]
  rfl

theorem repeats_convert {o : Revised Expr} (h : Repeats expr o) :
    Repeats expr (settle n o.changed (.convert n o.node) (Build.convert o.node n.type n.span)) := by
  obtain ⟨changed, hchanged, hrun⟩ := h
  refine repeats_settle (.convert · o.node)
    (fun m ↦ (Build.convert o.node m.type m.span).note) (fun _ ↦ rfl) (fun _ ↦ rfl)
    hchanged fun m σ ↦ ?_
  rw [expr, run_bind_of_run (hrun σ)]
  rfl

theorem repeats_binary {op : BinaryOp} {l r : Revised Expr} (hl : Repeats expr l)
    (hr : Repeats expr r) : Repeats expr (settle n (l.changed || r.changed)
      (.binary n op l.node r.node) (Build.binary op l.node r.node n.span)) := by
  obtain ⟨changed, hchanged, hrun⟩ := hl
  obtain ⟨changed', hchanged', hrun'⟩ := hr
  refine repeats_settle (.binary · op l.node r.node)
    (fun m ↦ (Build.binary op l.node r.node m.span).note) (fun _ ↦ rfl) (fun _ ↦ rfl)
    (or_imp_or hchanged hchanged') fun m σ ↦ ?_
  rw [expr, run_bind_of_run (hrun σ), run_bind_of_run (hrun' σ)]
  rfl

theorem repeats_make {x y z : Revised Expr} (hx : Repeats expr x) (hy : Repeats expr y)
    (hz : Repeats expr z) : Repeats expr (settle n (x.changed || y.changed || z.changed)
      (.make n x.node y.node z.node) (Build.make n.type x.node y.node z.node n.span)) := by
  obtain ⟨changed, hchanged, hrun⟩ := hx
  obtain ⟨changed', hchanged', hrun'⟩ := hy
  obtain ⟨changed'', hchanged'', hrun''⟩ := hz
  refine repeats_settle (.make · x.node y.node z.node)
    (fun m ↦ (Build.make m.type x.node y.node z.node m.span).note) (fun _ ↦ rfl)
    (fun _ ↦ rfl) (or_imp_or (or_imp_or hchanged hchanged') hchanged'') fun m σ ↦ ?_
  rw [expr, run_bind_of_run (hrun σ), run_bind_of_run (hrun' σ), run_bind_of_run (hrun'' σ)]
  rfl

/-- A compound assignment becomes an assignment of an operation that has no value. -/
theorem repeats_combined {x : Variable} {op : BinaryOp} {v : Revised Expr} (h : Repeats expr v)
    (span : Span) : Repeats expr (.new (Build.combined x op v.node span)) := by
  obtain ⟨changed, hchanged, hrun⟩ := h
  refine ⟨changed, fun _ ↦ rfl, fun σ ↦ ?_⟩
  rw [Revised.new, Build.combined, Build.binary, expr, Build.read, expr,
    run_bind_of_run (a := .same _) rfl, run_bind_of_run (hrun σ)]
  cases changed <;> rfl

/-! ### Statements -/

/-- What became of a statement repeats, and so do the statements it is made of. -/
structure Lasts (r : Revised Stmt) : Prop where
  whole : Repeats stmt r
  parts : ∀ t ∈ r.node.flatten, Repeats stmt (.new t)

/-- What became of statements repeats, and so do the statements they are made of. -/
structure LastAll (r : Revised (List Stmt)) : Prop where
  whole : Repeats stmts r
  parts : ∀ t ∈ Stmt.flattenAll r.node, Repeats stmt (.new t)

theorem Repeats.lasts (h : Repeats stmt r) (hr : r.node.isBlock = false) : Lasts r := by
  refine ⟨h, fun t ht ↦ ?_⟩
  rw [Stmt.flatten_of_isBlock hr, mem_singleton] at ht
  exact ht ▸ h.new

theorem Lasts.new (h : Lasts r) : Lasts (.new r.node) := ⟨h.whole.new, h.parts⟩

theorem lasts_atom (h : s.isAtom = true) : Lasts (.same s) := by
  refine Repeats.lasts (.same fun σ ↦ ?_) ?_
  all_goals cases s
  case refine_1.declare | refine_1.label | refine_1.goto | refine_1.rollback | refine_1.ret
      | refine_1.hint | refine_1.nop =>
    rw [stmt]
    rfl
  all_goals first | rfl | cases h

theorem lasts_new (h : s.isAtom = true) : Lasts (.new s) := (lasts_atom h).new

theorem Lasts.cons {rs : Revised (List Stmt)} (h : Lasts r) (hs : LastAll rs) :
    LastAll (.map₂ List.cons r rs) :=
  ⟨h.whole.cons hs.whole fun _ _ ↦ by rw [stmts], forall_mem_append.2 ⟨h.parts, hs.parts⟩⟩

theorem lastAll_nil : LastAll (.same []) :=
  ⟨.same fun _ ↦ by rw [stmts]; rfl, forall_mem_nil _⟩

theorem LastAll.block {r : Revised (List Stmt)} (h : LastAll r) (span : Span) :
    Lasts (r.map (.block span)) := ⟨h.whole.map fun _ ↦ by rw [stmt], h.parts⟩

theorem lasts_jumpIf {c : Revised Expr} (h : Repeats expr c) (target : Label) (sense : Bool)
    (span : Span) : Lasts (.new (jumpIf c.node target sense span)) := by
  unfold jumpIf
  split
  · split
    · exact lasts_new rfl
    · exact lasts_new rfl
  · next hnone =>
    obtain ⟨changed, -, hrun⟩ := h
    refine Repeats.lasts ⟨true, fun _ ↦ rfl, fun σ ↦ ?_⟩ rfl
    rw [Revised.new, stmt, run_bind_of_run (hrun σ), jumpIf, hnone]
    rfl

/-- What becomes of a tree repeats. -/
def repeatScheme : Scheme where
  expr _ _ r _ := Repeats expr r
  exprs _ _ r _ := Repeats exprs r
  stmt _ _ r _ := Lasts r
  stmts _ _ r _ := LastAll r

theorem lawful_repeatScheme : repeatScheme.Lawful where
  atom h _ := repeats_atom h
  unary h := repeats_unary h
  binary hl hr := repeats_binary hl hr
  make hx hy hz := repeats_make hx hy hz
  call h hr := repeats_foldCall h hr
  convert h := repeats_convert h
  segment h := h.map fun _ ↦ by rw [expr]
  assign h := h.map fun _ ↦ by rw [expr]
  compound h := (repeats_combined h _).map fun _ ↦ by rw [expr]
  statement h := h.whole.map fun _ ↦ by rw [expr]
  nil _ := .same fun _ ↦ by rw [exprs]; rfl
  cons h hs := h.cons hs fun _ _ ↦ by rw [exprs]
  atomStmt h _ := lasts_atom h
  block h := h.block _
  define h := (h.map fun _ ↦ by rw [stmt]).lasts rfl
  store h := (h.map fun _ ↦ by rw [stmt]).lasts rfl
  combine h := ((repeats_combined h _).map fun _ ↦ by rw [stmt]).lasts rfl
  retValue h := (h.map fun _ ↦ by rw [stmt]).lasts rfl
  expression h := (h.map fun _ ↦ by rw [stmt]).lasts rfl
  invoke h := (h.map fun _ ↦ by rw [stmt]).lasts rfl
  gotoIf h := lasts_jumpIf h _ _ _
  gotoOn h := (h.map fun _ ↦ by rw [stmt]).lasts rfl
  ifThen _ hc hb :=
    ((lasts_jumpIf hc _ _ _).cons <| (lasts_new rfl).cons <| hb.cons <| (lasts_new rfl).cons <|
      (lasts_new rfl).cons lastAll_nil).block _
  ifElse _ hc hb ha :=
    ((lasts_jumpIf hc _ _ _).cons <| (lasts_new rfl).cons <| hb.cons <| (lasts_new rfl).cons <|
      (lasts_new rfl).cons <| (lasts_new rfl).cons <| (lasts_new rfl).cons <| ha.cons <|
      (lasts_new rfl).cons <| (lasts_new rfl).cons lastAll_nil).block _
  whileLoop _ hc hb :=
    ((lasts_new rfl).cons <| (lasts_jumpIf hc _ _ _).cons <| hb.cons <| (lasts_new rfl).cons <|
      (lasts_new rfl).cons lastAll_nil).block _
  doWhile _ hb hc :=
    ((lasts_new rfl).cons <| hb.cons <| (lasts_new rfl).cons <| (lasts_jumpIf hc _ _ _).cons <|
      (lasts_new rfl).cons lastAll_nil).block _
  on {span event _ _ _ _ _ _ σ₂} _ ha hb := by
    have hjump : Repeats stmt _ :=
      ha.map (f := Stmt.gotoOn span (σ₂.fresh "event").1 event) fun _ ↦ by rw [stmt]
    exact ((hjump.lasts rfl).new.cons <| (lasts_new rfl).cons <| (lasts_new rfl).cons <| hb.cons <|
      (lasts_new rfl).cons <| (lasts_new rfl).cons lastAll_nil).block _
  nilStmts _ := lastAll_nil
  consStmts h hs := h.cons hs

end Lower

/-! ### Flow -/

/-- Nothing is dropped of code that control gets to, marks apart. -/
theorem dropUnreachable_of_visited {f : Flow} (hf : Flow.build code = .ok f)
    (h : ∀ {pre s rest}, code = pre ++ s :: rest → s.isHint = false →
      Stmt.Visited code (s :: rest)) : dropUnreachable code = .ok code := by
  have hkeep : ∀ entry ∈ code.zip f.reachable, keepFlagged entry = some entry.1 := by
    intro entry hentry
    obtain ⟨i, hi⟩ := mem_iff_getElem?.1 hentry
    obtain ⟨hs, hflag⟩ := getElem?_zip_eq_some.1 hi
    obtain ⟨hlt, heq⟩ := List.getElem?_eq_some_iff.1 hs
    rw [keepFlagged, if_pos]
    cases hhint : entry.1.isHint with
    | true => rw [Bool.or_true]
    | false =>
      have hsplit : code = code.take i ++ entry.1 :: code.drop (i + 1) := by
        rw [← heq, cons_getElem_drop_succ, take_append_drop]
      have hreached : f.reachable[i]? = some true := by
        rw [Flow.reachable_iff hf, Stmt.comesTo_iff hlt.le, drop_eq_getElem_cons hlt, heq]
        exact ⟨hlt, h hsplit hhint⟩
      rw [Option.some.inj (hflag.symm.trans hreached), Bool.true_or]
  rw [dropUnreachable, hf]
  show Except.ok ((code.zip f.reachable).filterMap keepFlagged) = _
  rw [filterMap_congr hkeep, filterMap_eq_map',
    map_fst_zip (Flow.length_reachable hf).ge]

/-- Nothing closes code that control does not run off the end of. -/
theorem closeFlat_of_visited {f : Flow} {routine : Routine} (hf : Flow.build code = .ok f)
    (h : routine.returnType.isVoid = true → ¬ Stmt.Visited code []) (span : Span) :
    closeFlat routine span code = .ok code := by
  unfold closeFlat
  split
  · next hvoid =>
    have hfalls : f.fallsThrough = false := by
      rw [Bool.eq_false_iff, ne_eq, Flow.fallsThrough_iff hf, Stmt.comesTo_iff le_rfl,
        drop_length]
      exact h hvoid
    rw [hf]
    show Except.ok (if f.fallsThrough then _ else _) = _
    rw [hfalls]
    rfl
  · rfl

/-- All labels that statements which stay jump to are defined among them. -/
theorem exists_build_of_dropUnreachable (h : dropUnreachable code = .ok live) :
    ∃ f, Flow.build live = .ok f := by
  obtain ⟨f, hf, rfl⟩ := dropUnreachable_eq h
  rcases hbuild : Flow.build (kept f.reachableNodes 2 (Flow.runs code)) with e | f'
  · -- control gets to the jump, so that it finds the label both before and after the rest is dropped
    obtain ⟨s, hs, l, hl, hnone⟩ := Flow.build_eq_error_iff.1 ⟨e, hbuild⟩
    obtain ⟨pre, rest, hsplit⟩ := append_of_mem hs
    have hhint : s.isHint = false := by cases s <;> first | rfl | cases hl
    obtain ⟨_, haligned⟩ := Aligned.of_kept_eq hsplit hhint
    obtain ⟨_, _, -, hthere, -⟩ := haligned.jump hf hl
    obtain ⟨t, tail, rfl, ht⟩ := Stmt.exists_cons_of_from? hthere
    exact absurd ht (hnone t ((Stmt.from?_suffix hthere).subset (.head _)))
  · exact ⟨f', rfl⟩

/-- Every statement of a lowered body is lowered to itself. -/
theorem Lowered.repeats_statements {routine : Routine} {body : Stmt} {l : Lowered}
    (h : lower routine body = .ok l) : Lower.Repeats Lower.stmts (.new l.statements) := by
  have hitem : ∀ s ∈ l.statements, Lower.Repeats Lower.stmt (.new s) := by
    intro s hs
    obtain ⟨r, σ, hr, hmem | rfl⟩ := Lowered.mem_statements h hs
    · exact ((Lower.lawful_repeatScheme.from_stmt body _).of_run trivial hr).2.parts s hmem
    · exact (Lower.lasts_new rfl).whole
  generalize l.statements = items at hitem
  induction items with
  | nil => exact Lower.lastAll_nil.whole.new
  | cons s items ih =>
    obtain ⟨hs, hitems⟩ := forall_mem_cons.1 hitem
    exact hs.cons (ih hitems) fun _ _ ↦ by rw [Lower.stmts]

/-- Lowering is idempotent: the lowered body of a routine is lowered to itself, with the same spans,
types and values, and nothing is dropped. -/
theorem Lowered.lower_body {routine : Routine} {body : Stmt} {l : Lowered}
    (h : lower routine body = .ok l) :
    lower routine l.body = .ok ⟨l.span, l.statements, 0⟩ := by
  obtain ⟨r, σ, code, hr, hcode, hlive⟩ := lower_eq_ok h
  obtain ⟨f, hf⟩ := exists_build_of_dropUnreachable hlive
  obtain ⟨changed, -, hrun⟩ : Lower.Repeats Lower.stmt (.new l.body) :=
    (Lowered.repeats_statements h).map (f := Stmt.block l.span) fun _ ↦ by rw [Lower.stmt]
  have hclose : closeFlat routine l.span l.statements = .ok l.statements :=
    closeFlat_of_visited hf (fun hvoid ↦
      not_visited_of_dropUnreachable (not_visited_of_closeFlat hvoid hcode) hlive) l.span
  have hdrop : dropUnreachable l.statements = .ok l.statements :=
    dropUnreachable_of_visited hf
      (Flow.way_of_dropUnreachable (fun _ _ _ _ ↦ .jump) (fun _ _ ↦ id) hlive)
  have hflat : l.body.flatten = l.statements := Lowered.flatten_body h
  refine bind_eq_ok.2 ⟨_, hrun _, bind_eq_ok.2 ⟨_, ?_, bind_eq_ok.2 ⟨_, hdrop, ?_⟩⟩⟩
  · exact hflat.symm ▸ hclose
  · exact congrArg (fun n ↦ Except.ok (Lowered.mk l.span l.statements n)) (Nat.sub_self _)

theorem Lowered.lower_body_markedLoop :
    ∃ l, lower (.declare 0 "main" [] .void {}) markedLoop = .ok l ∧ l.dropped = 2 ∧
      lower (.declare 0 "main" [] .void {}) l.body = .ok ⟨l.span, l.statements, 0⟩ := by
  obtain ⟨l, hl, hdropped⟩ : ∃ l, lower (.declare 0 "main" [] .void {}) markedLoop = .ok l ∧
      l.dropped = 2 := ⟨_, rfl, rfl⟩
  exact ⟨l, hl, hdropped, Lowered.lower_body hl⟩

end Wirescript
