import Wirescript.Proofs.Entered

/-!
# Groups of blocks

Blocks are placed in groups: segments for stretches of statements and groups for expressions.
Emission of a statement closes every group for an expression that it opens, wherever it stops.
Segments change with the marks that emission comes across and in no other way (`Emit.nesting`), so
all are closed again if the marks of each body are balanced.

Marks are come across in all statements, those in blocks and those that stand for values with them.
What follows from the steps of emission, marks among them, is an `Emit.Trace`, and it is followed
through all statements once (`Emit.Trace.follows_stmt`).
-/

namespace Wirescript

open List

variable {s : Stmt} {marks marks' : List Hint} {code : List Stmt} {r : Routine}
  {st st' : Emitter}

/-- The groups that are open, without the blocks. -/
def Placement.nest (p : Placement) : Placement := { p with blocks := [] }

/-- What a mark does to the groups. -/
def Placement.follow (p : Placement) : Hint → Placement
  | .enterBlock => p.enterStatement
  | .exitBlock => p.exitStatement
  | .enterHighlight | .exitHighlight => p

mutual

/-- The marks that emission comes across, also in blocks and statements that stand for values. -/
def Stmt.marks : Stmt → List Hint
  | .block _ items => Stmt.allMarks items
  | .expression _ e => e.marks
  | .hint _ m => [m]
  | _ => []

@[inherit_doc Stmt.marks]
def Stmt.allMarks : List Stmt → List Hint
  | [] => []
  | s :: rest => s.marks ++ Stmt.allMarks rest

@[inherit_doc Stmt.marks]
def Expr.marks : Expr → List Hint
  | .statement _ body => body.marks
  | _ => []

end

theorem Stmt.allMarks_concat (code : List Stmt) (s : Stmt) :
    Stmt.allMarks (code ++ [s]) = Stmt.allMarks code ++ s.marks := by
  induction code <;> simp_all [allMarks]

theorem Stmt.allMarks_items (s : Stmt) : Stmt.allMarks s.items = s.marks := by
  cases s <;> simp [items, marks, allMarks]

/-! ### Balanced marks -/

namespace Hint

/-- No segment is closed before it is opened, and all are closed in the end. -/
def Nested (marks : List Hint) : Prop :=
  (∀ pre ∈ marks.inits, pre.count .exitBlock ≤ pre.count .enterBlock) ∧
    marks.count .exitBlock = marks.count .enterBlock

instance : Decidable (Nested marks) := inferInstanceAs (Decidable (_ ∧ _))

/-- Marks open new segments on top of the old ones, and leave the groups of expressions alone. -/
theorem exists_append_of_inits (n : Placement)
    (h : ∀ pre ∈ marks.inits, pre.count .exitBlock ≤ pre.count .enterBlock) : ∃ new : List Nat,
      (marks.foldl Placement.follow n).openSegments = new ++ n.openSegments ∧
      new.length + marks.count .exitBlock = marks.count .enterBlock ∧
      (marks.foldl Placement.follow n).expressionDepth = n.expressionDepth := by
  -- along the marks, since the condition is one on every stretch from the start
  induction marks using List.reverseRecOn with
  | nil => exact ⟨[], rfl, rfl, rfl⟩
  | append_singleton marks m ih =>
    have hwhole := h (marks ++ [m]) ((mem_inits _ _).2 (prefix_refl _))
    obtain ⟨new, hopen, hcount, hdepth⟩ := ih fun pre hpre ↦
      h pre ((mem_inits _ _).2 (((mem_inits _ _).1 hpre).trans (prefix_append _ _)))
    rw [foldl_append]
    cases m with
    | enterBlock =>
      refine ⟨_ :: new, congrArg (List.cons _) hopen, ?_, hdepth⟩
      simp
      omega
    | exitBlock =>
      simp at hwhole
      cases new with
      | nil => simp at hcount; omega
      | cons top new =>
        refine ⟨new, congrArg List.tail hopen, ?_, hdepth⟩
        simp [count_append] at hcount ⊢
        omega
    | enterHighlight | exitHighlight => exact ⟨new, hopen, by simpa using hcount, hdepth⟩

/-- Balanced marks leave all groups open that were so, and no others. -/
theorem Nested.foldl_follow (h : Nested marks) (n : Placement) :
    (marks.foldl Placement.follow n).openSegments = n.openSegments ∧
      (marks.foldl Placement.follow n).expressionDepth = n.expressionDepth := by
  obtain ⟨new, hopen, hcount, hdepth⟩ := exists_append_of_inits n h.1
  obtain rfl : new = [] := length_eq_zero_iff.1 (by have := h.2; omega)
  exact ⟨hopen, hdepth⟩

end Hint

/-! ### What emission comes across -/

namespace Emit

/-- A relation between states of emission, one for each list of marks that are come across in
between. Steps of emission keep it, and it says what a mark does. -/
structure Trace where
  rel (marks : List Hint) : Emitter → Emitter → Prop
  trans {marks marks' : List Hint} {s₁ s₂ s₃ : Emitter} (h : rel marks s₁ s₂)
    (h' : rel marks' s₂ s₃) : rel (marks ++ marks') s₁ s₃
  quiet {s s' : Emitter} (h : s.Quiet (fun _ ↦ True) s') : rel [] s s'
  place (s : Emitter) (shape : BlockShape) : rel [] s (s.placed shape)
  group {s s' : Emitter} (h : rel [] s.inside s') : rel [] s s'.outside
  share {s s' : Emitter} (x : Variable) (cache : BreakCache) (h : rel [] s s')
    (hx : ∀ c, x = .slot c → s.Serves c (s'.sharing x cache)) : rel [] s (s'.sharing x cache)
  calling (s : Emitter) (r : Routine) (entrance : Terminal) : rel [] s (s.calling r entrance)
  /-- Blocks are joined, and there is more to report. -/
  more (s : Emitter) (wires : List Wire) (notices : List Notice) (diagnostics : List Diagnostic) :
    rel [] s { s with
      netlist := s.netlist.connectAll wires
      notices := notices
      diagnostics := diagnostics }
  hint (s : Emitter) (m : Hint) : rel [m] s ((hint m).run s).2

variable {T : Trace} {α β : Type} {x : Emit Handle}

namespace Trace

/-- Where there are no marks, emission is steady. -/
def steady (T : Trace) (s₀ : Emitter) : Steady where
  shapes _ := True
  fed _ := True
  supply := .every
  rel := T.rel []
  trans h h' := T.trans h h'
  quiet := T.quiet
  place s shape _ := T.place s shape
  group := T.group
  share := T.share
  base := s₀
  sites _ := True
  marks _ := False
  any := T.place
  join {s wires} _ := T.more s wires s.notices s.diagnostics
  calling r entrance _ _ := T.calling _ r entrance
  hint _ _ h := h.elim

/-- Unless there is a fault, the computation comes across some marks. -/
def Follows (T : Trace) (marks : List Hint) (x : Emit α) : Prop :=
  ∀ st, (∀ f, (x.run st).1 ≠ .error (.fault f)) → T.rel marks st (x.run st).2

theorem follows_of_builds (hx : ∀ s₀, (T.steady s₀).Builds x) : T.Follows [] x :=
  fun st _ ↦ (hx st [] st (.refl _ st)).2.1

theorem follows_of_single (hs : s.Single) (hhint : s.isHint = false) :
    T.Follows [] (stmt r s) := by
  intro st _
  refine (meets_stmt (S := T.steady st) r hs (fun _ _ ↦ trivial) (fun _ _ _ _ _ _ _ ↦ trivial)
    (fun _ _ ↦ trivial) ?_ st (.refl _ st)).2.1
  rintro span m rfl
  cases hhint

theorem follows_pass : T.Follows [] (pure .pass : Emit Handle) := fun _ _ ↦ T.quiet .refl

theorem Follows.forget (hx : T.Follows marks x) : T.Follows marks (do forgetElement s; x) := by
  unfold forgetElement
  split
  · exact hx
  · intro st hst
    have hforgotten : T.rel [] st { st with cursor := none } :=
      T.quiet ⟨⟨rfl, .refl, rfl, rfl, rfl, rfl⟩, rfl, rfl⟩
    exact T.trans hforgotten (hx { st with cursor := none } hst)

theorem Follows.map {x : Emit α} (hx : T.Follows marks x) (g : α → β) :
    T.Follows marks (do return g (← x)) := by
  intro st hst
  have hx := hx st
  rcases hrun : x.run st with ⟨e | a, st'⟩
  · rw [hrun] at hx
    rw [run_bind_of_error hrun] at hst ⊢
    refine hx fun f hf ↦ hst f ?_
    rw [Except.error.inj hf]
  · rw [hrun] at hx
    rw [run_bind_of_ok hrun]
    exact hx fun _ hf ↦ by cases hf

/-- A statement that there is a complaint about has come across its marks too. -/
theorem Follows.meets (hx : T.Follows marks x) (st₀ : Emitter) (before : List Hint) :
    Wirescript.Meets (fun _ ↦ True) (T.rel before st₀) (attempt x)
      fun _ ↦ T.rel (before ++ marks) st₀ := by
  intro st hst
  have hx := hx st
  rcases hstmt : x.run st with ⟨(d | f) | h, stop⟩
  all_goals rw [hstmt] at hx
  · rw [Assemble.run_attempt_of_complaint hstmt]
    have hmore := T.trans (T.trans hst (hx fun _ hf ↦ by cases hf))
      (T.more stop [] stop.notices (stop.diagnostics ++ [d]))
    rwa [append_nil] at hmore
  · rw [Assemble.run_attempt_of_fault hstmt]
    trivial
  · rw [Assemble.run_attempt_of_ok hstmt]
    exact T.trans hst (hx fun _ hf ↦ by cases hf)

theorem run_lift {a : Assemble α} {o : Except Fault α} (h : a.run st = (o, st')) :
    (liftM a : Emit α).run st = (o.mapError .fault, st') := by
  have h' : a st = (o, st') := h
  cases o <;> simp only [liftM, monadLift, MonadLift.monadLift, ExceptT.run, ExceptT.mk, bind,
    StateT.bind, h'] <;> rfl

theorem Follows.attempt_bind {f : Handle → Emit α} (hx : T.Follows marks x)
    (hf : ∀ h, T.Follows marks' (f h)) :
    T.Follows (marks ++ marks') (liftM (attempt x) >>= f) := by
  intro st hst
  have hattempt := hx.meets st [] st (T.quiet .refl)
  rcases hrun : (Emit.attempt x).run st with ⟨e | h, st'⟩
  all_goals rw [hrun] at hattempt
  · rw [run_bind_of_error (run_lift hrun)] at hst
    exact absurd rfl (hst e)
  · rw [run_bind_of_ok (run_lift hrun)] at hst ⊢
    exact T.trans hattempt (hf h st' hst)

mutual

/-- Emission of a statement comes across its marks. -/
theorem follows_stmt (T : Trace) (r : Routine) (s : Stmt) : T.Follows s.marks (stmt r s) := by
  cases s with
  | block _ items => exact ((follows_stmts T r items).map _).forget
  | expression _ e => exact (follows_effect T r e).forget
  | hint _ m => exact Follows.forget (s := .hint _ m) fun st _ ↦ T.hint st m
  | _ => exact follows_of_single trivial rfl

theorem follows_stmts (T : Trace) (r : Routine) (items : List Stmt) :
    T.Follows (Stmt.allMarks items) (stmts r items) := by
  cases items with
  | nil => exact fun st _ ↦ T.quiet .refl
  | cons s rest =>
    rw [stmts]
    exact (follows_stmt T r s).attempt_bind fun h ↦ (follows_stmts T r rest).map _

theorem follows_effect (T : Trace) (r : Routine) (e : Expr) : T.Follows e.marks (effect r e) := by
  cases e with
  | call n callee arguments =>
    exact follows_of_builds fun _ ↦ meets_call callee (fun _ _ ↦ trivial)
      (fun _ _ _ _ _ _ _ ↦ trivial) (fun _ _ ↦ trivial) (fun _ _ ↦ trivial) none n.span
  | step | assign => exact follows_of_builds fun _ ↦ meets_assign _ fun _ _ ↦ trivial
  | statement _ body => exact follows_stmt T r body
  | _ => exact follows_pass

end

/-- Emission of a routine comes across the marks of its body, and then the routine is entered among
those that are done. -/
theorem meets_routine (T : Trace) (r : Routine) (body : Stmt) (st : Emitter) :
    Wirescript.Meets (fun _ ↦ True) (· = st) (Assemble.routine r body) fun _ st' ↦
      ∃ entry blocks st₁, T.rel body.marks st.restarted st₁ ∧ st' = st₁.finished r entry blocks := by
  have hwalk : Wirescript.Meets _ _ (Assemble.routine r body) _ := Assemble.walks_routine
    (F := fun _ ↦ True) (I := fun code ↦ T.rel (Stmt.allMarks code) st.restarted)
    (K := fun st' ↦ ∃ entry blocks st₁,
      T.rel body.marks st.restarted st₁ ∧ st' = st₁.finished r entry blocks) r
    (fun code st₁ wires notices warnings _ hst ↦ ?_) (fun _ _ _ ↦ trivial) (fun code s _ ↦ ?_)
    fun entry blocks st₁ hst ↦ ⟨entry, blocks, st₁, body.allMarks_items ▸ hst, rfl⟩
  · rintro _ rfl
    exact hwalk _ (T.quiet .refl)
  · have hmore := T.trans hst (T.more st₁ wires notices (st₁.diagnostics ++ warnings))
    rwa [append_nil] at hmore
  · rw [Stmt.allMarks_concat]
    exact (T.follows_stmt r s).meets _ _

end Trace

/-! ### Groups that are open -/

/-- The groups change as the marks say. -/
def nesting : Trace where
  rel marks s s' := s'.placement.nest = marks.foldl Placement.follow s.placement.nest
  trans h h' := by rw [h', h, foldl_append]
  quiet h := congrArg Placement.nest h.placement
  place _ _ := rfl
  group h := congrArg Placement.exitExpression h
  share _ _ h _ := h
  calling _ _ _ := rfl
  more _ _ _ _ := rfl
  hint _ m := by cases m <;> rfl

end Emit

namespace Assemble

/-- Balanced marks leave nothing open. -/
theorem balanced_routines {entries : List (Routine × Stmt)}
    (hentries : ∀ e ∈ entries, Hint.Nested e.2.marks) :
    Meets (fun _ ↦ True) (·.placement.isBalanced = true) (routines entries)
      fun _ st ↦ st.placement.isBalanced = true := by
  refine walks_routines (J := fun _ st ↦ st.placement.isBalanced = true) ?_ [] rfl
  rintro before e after rfl st hst
  have hclosed : Meets (fun _ ↦ True) (· = st) (routine e.1 e.2)
      fun _ st' ↦ st'.placement.isBalanced = true := by
    refine (Emit.nesting.meets_routine e.1 e.2 st).after ?_
    rintro _ _ ⟨entry, blocks, st₁, hst₁, rfl⟩
    obtain ⟨hopen, hdepth⟩ := (hentries e (by simp)).foldl_follow st.placement.nest
    have hnest : st₁.placement.nest = e.2.marks.foldl Placement.follow st.placement.nest := hst₁
    rw [← hnest] at hopen hdepth
    have hlevel : st₁.placement.nest.isBalanced = st.placement.nest.isBalanced := by
      rw [Placement.isBalanced, hopen, hdepth, Placement.isBalanced]
    exact hlevel.trans hst
  exact hclosed st rfl

end Assemble

/-- Emission closes what it opens. A program in each of whose bodies the marks for segments are
balanced, those of statements that stand for values with them, ends with no group open if it is
emitted at all. A statement that holds no marks leaves the open segments and the depth of
expressions as they are, also if it is left out with a complaint. -/
theorem Bodies.nesting_restored : (∀ (bodies : Bodies) (options : EmitOptions) (st : Emitter),
      (∀ e ∈ bodies.entries, Hint.Nested e.2.marks) → bodies.emit options = (.ok (), st) →
      st.placement.isBalanced = true) ∧
    ∀ (r : Routine) (s : Stmt) (st : Emitter) (h : Handle) (st' : Emitter), s.marks = [] →
      Yields (Emit.attempt (Emit.stmt r s)) st h st' →
      st'.placement.openSegments = st.placement.openSegments ∧
        st'.placement.expressionDepth = st.placement.expressionDepth := by
  constructor
  · intro bodies options st h hemit
    have hyields : Yields (Assemble.program bodies) { options } () st := hemit
    obtain ⟨_, st₁, hroutines, hyields⟩ := yields_bind.1 hyields
    obtain ⟨_, _, hget, hyields⟩ := yields_bind.1 hyields
    cases hget
    obtain ⟨_, st₂, hcalls, hyields⟩ := yields_bind.1 hyields
    cases hyields
    have hbalanced := Assemble.balanced_routines h { options } rfl
    rw [hroutines] at hbalanced
    exact (Assemble.of_yields_calls hcalls).1 ▸ hbalanced
  · intro r s st h st' hmarks hrun
    have hnest := (Emit.nesting.follows_stmt r s).meets st [] st rfl
    rw [hrun, hmarks] at hnest
    have hopen := congrArg Placement.openSegments hnest
    have hdepth := congrArg Placement.expressionDepth hnest
    exact ⟨hopen, hdepth⟩

/-! ### A mark that stands for a value -/

def opening : Stmt := .expression default (.statement default (.hint default .enterBlock))

/-- A statement that is neither a block nor a mark can leave a segment open. -/
theorem Bodies.not_balanced_opening : opening.isBlock = false ∧ opening.isHint = false ∧
      ∃ st, Bodies.emit (Table.insert {} default (.block default [opening])) {} = (.ok (), st) ∧
        st.placement.openSegments = [1] ∧ st.placement.isBalanced = false :=
  ⟨rfl, rfl, _, rfl, rfl, rfl⟩

/-- It is closed in the end, and between the two a variable is read that has no value. -/
def openedAndClosed : Bodies :=
  let x : Variable := .slot ⟨.declared 1, "x", .float, .scoped, { inline := true }⟩
  Table.insert {} default (.block default
    [opening, .assign default x (Build.read x default), .hint default .exitBlock])

theorem Bodies.nesting_restored_openedAndClosed : ∃ st, openedAndClosed.emit {} = (.ok (), st) ∧
    st.diagnostics.length = 1 ∧ st.placement.segments = 1 ∧ st.placement.isBalanced = true :=
  ⟨_, rfl, rfl, rfl, Bodies.nesting_restored.1 openedAndClosed {} _ (by decide) rfl⟩

end Wirescript
