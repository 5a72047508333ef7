import Wirescript.Proofs.Plans

/-!
# Bodies become pieces of code

A flat body whose counts are stored late, and the body that extraction makes of it, take the same
course: each statement becomes a piece of code that does what the statement does, and pieces follow
each other as the statements do (`Frame.Unrolls`). Labels of the body stay where they are. The labels
that extraction makes up are found inside their own piece, as long as the body has no label of the
same name.
-/

namespace Wirescript

open Stmt
open List hiding flatten span

variable {e : Expr} {ξ' : Extractor} {l : Label} {span : Span} {x : Variable}

variable {κ : Type} [DecidableEq κ]

/-! ### Bodies that effects can be separated from -/

/-- The expression is well typed, its notes are derived from its parts and statements around it can
have its effects. -/
structure Expr.Separable (S : Frame κ) (e : Expr) : Prop where
  typed : e.WellTyped S.key S.types S.callable
  derived : e.Derived
  splittable : e.Splittable S.key

/-- The call can be made by a statement, whether or not it has a result. -/
structure Callee.Separable (S : Frame κ) (callee : Callee) (arguments : List Expr) : Prop where
  typed : Expr.AllWellTyped S.key S.types S.callable arguments
  derived : Expr.AllDerived arguments
  splittable : Expr.AllSplittable S.key arguments
  admits : callee.Admits S.key S.types S.callable arguments
  order : callee.TakesInOrder S.key arguments

/-- The effects of the statement can be separated from its values. As a statement of its own, a count
may be that of any variable and a call need not have a result. -/
def Stmt.Separable (S : Frame κ) : Stmt → Prop
  | .define _ _ x value | .assign _ x value =>
    x.Typed S.key S.types ∧ value.type = x.type ∧ value.Separable S
  | .gotoIf _ _ condition _ => condition.Separable S
  | .retValue _ value =>
    value.Separable S ∧
      ∀ slot ∈ S.routine.returnSlot, slot.Typed S.key S.types ∧ value.type = slot.type
  | .call _ callee arguments result =>
    callee.Separable S arguments ∧
      ∀ x ∈ result, x.Typed S.key S.types ∧ x.type = callee.returnType ∧
        callee.Returns S.key S.types
  | .expression _ (.step _ x _ _) => x.Typed S.key S.types ∧ x.type = .float
  | .expression _ (.call _ callee arguments) => callee.Separable S arguments
  | .expression _ e => e.Separable S
  | .declare .. | .label .. | .goto .. | .rollback .. | .ret _ | .hint .. | .nop _ => True
  | .block .. | .compound .. | .ifThen .. | .ifElse .. | .whileLoop .. | .doWhile .. | .on ..
  | .gotoOn .. => False

variable {S : Frame κ} {m m' μ : Memory κ} {s : Stmt} {c : Control} {ξ : Extractor}

/-! ### A statement becomes a piece of code -/

namespace Frame

/-- The code does what the statement does. -/
def Simulates (S : Frame κ) (R : Set ℕ) (code : List Stmt) (s : Stmt) : Prop :=
  ∀ bound, R ⊆ Set.Iio bound → ∀ m c m' μ, s.InTime S.key S.calls S.routine m c m' →
    m.Agrees (S.Hidden bound) μ → S.Reaches bound R code μ c m' fun _ ↦ True

/-- What extraction makes of a statement. A label stays as it is. -/
structure IsPiece (S : Frame κ) (ξ : Extractor) (s : Stmt) (code : List Stmt) (ξ' : Extractor) :
    Prop where
  labels : ∃ fresh, S.Progress ξ fresh ξ' ∧ labels code = s.label?.toList ++ fresh
  label (h : s.label?.isSome = true) : code = [s]
  flat : Flat code
  simulates : S.Simulates (made ξ ξ') code s

/-- A statement that extraction leaves as it is. -/
theorem isPiece_same (hξ : S.Serves ξ) (hflat : s.flatten = [s])
    (hstep : ∀ m c m' μ, s.InTime S.key S.calls S.routine m c m' → m' = m ∧ S.step s μ c μ) :
    S.IsPiece ξ s [s] ξ where
  labels := ⟨[], .refl hξ, by rw [labels_cons]; rfl⟩
  label _ := rfl
  flat := by simpa using hflat
  simulates := by
    intro bound _ m c m' μ h hμ
    obtain ⟨rfl, hs⟩ := hstep m c m' μ h
    exact .statement hs hμ (.refl bound _ μ) trivial

/-- A statement that is code for an effect. -/
theorem Makes.exists_piece {P : Memory κ → Memory κ → Prop} {effects : Extract (List Stmt)}
    (h : S.Makes effects P) (hξ : S.Serves ξ) (hlabel : s.label? = none)
    (hP : ∀ m c m', s.InTime S.key S.calls S.routine m c m' → c = .next ∧ P m m') :
    ∃ code ξ', Yields effects ξ code ξ' ∧ S.IsPiece ξ s code ξ' := by
  obtain ⟨code, ξ', hcode, hprogress, hflat, hdoes⟩ := h ξ hξ
  refine ⟨code, ξ', hcode, ⟨_, hprogress, by rw [hlabel]; rfl⟩, by simp [hlabel], hflat, ?_⟩
  intro bound hbound m c m' μ hs hμ
  obtain ⟨rfl, hPm⟩ := hP m c m' hs
  exact hdoes bound hbound m m' μ hPm hμ

/-- A value for a statement that reads it last of all. -/
theorem exists_settled {r : Split} {R : Set ℕ} (h : S.IsSplit false e R r)
    (he : S.Typed e) (hξ : S.Serves ξ) :
    ∃ r' ξ', Yields (Extract.settled r) ξ r' ξ' ∧ S.Progress ξ [] ξ' ∧
      S.IsSplit true e (R ∪ made ξ ξ') r' ∧ labels r'.before = labels r.before := by
  obtain ⟨r', ξ', hyields, hprogress, hsplit, -, -, hlabels⟩ := exists_ahead h he hξ (!r.after.isEmpty)
  refine ⟨r', ξ', hyields, hprogress, ?_, hlabels⟩
  rcases hafter : r.after.isEmpty with - | -
  · rwa [hafter] at hsplit
  · -- nothing is owed, so all has been settled
    have hpending : e.pending = [] := by simpa [h.after] using hafter
    refine { hsplit with after := ?_, reaches := fun bound hbound m v m₁ m' μ hv hdue hμ ↦ ?_ }
    · simpa [hpending] using hsplit.after
    · refine hsplit.reaches bound hbound m v m₁ m' μ hv ?_ hμ
      simpa [Expr.due, Expr.owed, hpending] using hdue

/-- A statement that ends in one that reads the value of an expression. -/
theorem IsValue.exists_piece {value : Extract Split} (h : S.IsValue e value)
    (he : S.Typed e) (s : Stmt) (use : Expr → Stmt) (hξ : S.Serves ξ) (hlabel : s.label? = none)
    (huse : ∀ node, (use node).label? = none ∧ (use node).flatten = [use node])
    (hs : ∀ bound m c m', s.InTime S.key S.calls S.routine m c m' →
      ∃ v m₁, e.Completes S.key S.calls m v m₁ ∧
        ∀ node μ, S.Agrees bound m₁ μ → node.eval S.key μ = .ok v →
          ∃ μ', S.step (use node) μ c μ' ∧ S.Agrees bound m' μ' ∧ S.Spares bound ∅ μ μ') :
    ∃ r ξ₁ r' ξ', Yields value ξ r ξ₁ ∧ Yields (Extract.settled r) ξ₁ r' ξ' ∧
      S.IsPiece ξ s (r'.around use) ξ' := by
  obtain ⟨r, ξ₁, hr, hprogress₁, hsplit₁, -⟩ := h ξ hξ
  obtain ⟨r', ξ', hr', hprogress, hsplit, hlabels⟩ := exists_settled hsplit₁ he hprogress₁.serves
  rw [Set.Ico_union_Ico_eq_Ico hprogress₁.le hprogress.le] at hsplit
  refine ⟨r, ξ₁, r', ξ', hr, hr', ⟨_, hprogress₁.trans hprogress, ?_⟩, by simp [hlabel],
    hsplit.flat_around fun node ↦ (huse node).2, ?_⟩
  · rw [hsplit.labels_around fun node ↦ (huse node).1, hlabel, hlabels]
    simp
  intro bound hbound m c m' μ hstep hμ
  rw [Split.around, hsplit.after]
  obtain ⟨v, m₁, ⟨m₀, hv, howed⟩, hnode⟩ := hs bound m c m' hstep
  refine (hsplit.reaches bound hbound m v m₀ m₁ μ hv howed hμ).append fun μ₁ hμ₁ _ _ hvalue ↦ ?_
  obtain ⟨μ', hlast, hμ', hspares⟩ := hnode r'.value.node μ₁ hμ₁ hvalue
  exact .statement hlast hμ' (hspares.mono (Set.empty_subset _)) trivial

theorem exists_stored {v : Value} {bound : Nat} {R : Set ℕ} (hx : S.Holds x)
    (h : m.store S.key x v = .ok m') (hμ : S.Agrees bound m μ) :
    ∃ μ', μ.store S.key x v = .ok μ' ∧ S.Agrees bound m' μ' ∧ S.Spares bound R μ μ' := by
  obtain ⟨μ', hstore, hμ', -⟩ := hμ.store (not_hidden hx) h
  exact ⟨μ', hstore, hμ', .store hx hstore⟩

theorem Separable.isPlans {callee : Callee} {arguments : List Expr}
    (h : callee.Separable S arguments) :
    Forall₂ S.IsPlan arguments (Extract.exprs arguments) :=
  Frame.isPlans h.typed h.derived h.splittable

theorem Separable.isPlan (h : e.Separable S) : S.IsPlan e (Extract.expr e) :=
  Frame.isPlan h.typed h.derived h.splittable

/-- The effects of an expression that stands as a statement. -/
theorem makes_discard (h : (Stmt.expression span e).Separable S) :
    S.Makes (Extract.expr e).discard (e.ActsLate S.key S.calls) := by
  match e with
  | .step n x yieldsNew down =>
    have hflat : Flat [Extract.step x down n.span] := by simp [Extract.step, flatten]
    intro ξ hξ
    refine ⟨[Extract.step x down n.span], ξ, ?_, .refl hξ, hflat, ?_⟩
    · rw [Extract.expr]
      exact rfl
    · rintro bound - m m' μ hacts hμ
      obtain ⟨w, hw⟩ := Expr.actsLate_step.1 hacts
      exact .step h.1 hw hμ
  | .call n callee arguments =>
    have hcallee : callee.Separable S arguments := h
    exact makes_callStatement none n.span (Separable.isPlans hcallee) ⟨hcallee.typed, hcallee.admits,
      hcallee.order, fun _ hx ↦ (nomatch hx), fun hsome ↦ (nomatch hsome)⟩
  | .literal .. | .read .. | .unary .. | .binary .. | .make .. | .convert .. | .assign ..
  | .segment .. | .compound .. | .error _ | .statement .. => exact (Separable.isPlan h).discard

/-- A declaration does nothing. -/
theorem IsPiece.cons_declare {code : List Stmt} {nameSpan : Span} (h : S.IsPiece ξ s code ξ')
    (hlabel : s.label? = none) : S.IsPiece ξ s (.declare span nameSpan x :: code) ξ' where
  labels := by exact h.labels
  label hsome := by simp [hlabel] at hsome
  flat := flat_cons.2 ⟨rfl, h.flat⟩
  simulates bound hbound m c m' μ hs hμ := by
    have hdeclare : S.Reaches bound (made ξ ξ') [.declare span nameSpan x] μ .next m fun μ' ↦
        μ' = μ := .statement ⟨rfl, rfl⟩ hμ (.refl bound _ μ) rfl
    refine hdeclare.append fun μ₁ hμ₁ _ _ heq ↦ ?_
    exact h.simulates bound hbound m c m' μ₁ hs hμ₁

/-- A definition whose value is no call is kept as one statement. -/
theorem IsValue.exists_define {value : Expr} {code : Extract Split} (h : S.IsValue value code)
    (hvalue : S.Typed value) (hhasty : value.hasty = [])
    (span nameSpan : Span) (hx : S.Holds x) (hξ : S.Serves ξ) : ∃ r ξ', Yields code ξ r ξ' ∧
      S.IsPiece ξ (.define span nameSpan x value) (r.around (.define span nameSpan x)) ξ' := by
  obtain ⟨r, ξ', hr, hprogress, hsplit, -⟩ := h ξ hξ
  refine ⟨r, ξ', hr, ⟨_, hprogress, hsplit.labels_around fun _ ↦ rfl⟩, fun hsome ↦ (nomatch hsome),
    hsplit.flat_around fun _ ↦ rfl, ?_⟩
  have huse (node : Expr) (μ μ' : Memory κ) (h : Assigns S.key x node μ μ') :
      S.step (.define span nameSpan x node) μ .next μ' := ⟨rfl, h⟩
  rintro bound hbound m c m' μ ⟨rfl, hstores⟩ hμ
  exact hsplit.isCode_around hvalue hhasty hx huse bound hbound m m' μ hstores hμ

/-- Every statement becomes a piece of code. -/
theorem exists_piece (hs : s.Separable S) (hξ : S.Serves ξ) :
    ∃ code ξ', Yields (Extract.stmt s) ξ code ξ' ∧ S.IsPiece ξ s code ξ' := by
  match s with
  | .assign span x value =>
    exact ((Separable.isPlan hs.2.2).store x span hs.1).exists_piece hξ rfl fun _ _ _ h ↦ h
  | .expression span e => exact (makes_discard hs).exists_piece hξ rfl fun _ _ _ h ↦ h
  | .call span callee arguments result =>
    have hresult (hsome : result.isSome = true) : callee.Returns S.key S.types := by
      obtain ⟨x, hx⟩ := Option.isSome_iff_exists.1 hsome
      exact (hs.2 x hx).2.2
    exact (makes_callStatement result span (Separable.isPlans hs.1) ⟨hs.1.typed, hs.1.admits,
      hs.1.order, fun x hx ↦ (hs.2 x hx).1, hresult⟩).exists_piece hξ rfl fun _ _ _ h ↦ h
  | .define span nameSpan x value =>
    by_cases hcall : ∃ n callee arguments, value = .call n callee arguments
    · obtain ⟨n, callee, arguments, rfl⟩ := hcall
      obtain ⟨code, ξ', hcode, hpiece⟩ := ((Separable.isPlan hs.2.2).store x span
        hs.1).exists_piece (s := .define span nameSpan x (.call n callee arguments)) hξ rfl
          fun _ _ _ h ↦ h
      refine ⟨.declare span nameSpan x :: code, ξ', ?_, hpiece.cons_declare rfl⟩
      exact hcode.bind rfl
    · have hhasty : value.hasty = [] := by
        cases value <;> first | rfl | exact absurd ⟨_, _, _, rfl⟩ hcall
      obtain ⟨r, ξ', hr, hpiece⟩ := (Separable.isPlan hs.2.2).value.exists_define hs.2.2.typed hhasty
        span nameSpan hs.1 hξ
      refine ⟨_, ξ', ?_, hpiece⟩
      rw [Extract.stmt]
      · exact hr.bind rfl
      · rintro n items rfl
        exact hs.2.2.splittable
      · exact fun n callee arguments heq ↦ hcall ⟨n, callee, arguments, heq⟩
  | .gotoIf span target condition sense =>
    have hcondition : condition.Separable S := hs
    obtain ⟨r, ξ₁, r', ξ', hr, hr', hpiece⟩ :=
      (Separable.isPlan hcondition).value.exists_piece hcondition.typed
        (.gotoIf span target condition sense) (fun condition ↦ .gotoIf span target condition sense)
        hξ rfl (fun _ ↦ ⟨rfl, rfl⟩) fun bound m c m' h ↦ by
          obtain ⟨v, hv, rfl⟩ := h
          exact ⟨v, m', hv, fun node μ hμ hnode ↦ ⟨μ, ⟨v, hnode, rfl, rfl⟩, hμ, .refl bound ∅ μ⟩⟩
    refine ⟨_, ξ', ?_, hpiece⟩
    exact hr.bind (hr'.bind rfl)
  | .retValue span value =>
    obtain ⟨r, ξ₁, r', ξ', hr, hr', hpiece⟩ :=
      (Separable.isPlan hs.1).value.exists_piece hs.1.typed (.retValue span value) (.retValue span) hξ
        rfl (fun _ ↦ ⟨rfl, rfl⟩) fun bound m c m' h ↦ by
          obtain ⟨rfl, v, m₁, hv, h⟩ := h
          refine ⟨v, m₁, hv, fun node μ hμ hnode ↦ ?_⟩
          rcases hslot : S.routine.returnSlot with - | slot
          · rw [hslot] at h
            obtain rfl : m' = m₁ := h
            exact ⟨μ, ⟨rfl, by rw [hslot]⟩, hμ, .refl bound ∅ μ⟩
          · rw [hslot] at h
            obtain ⟨μ', hstore, hμ', hspares⟩ := exists_stored (hs.2 slot hslot).1 h hμ
            refine ⟨μ', ⟨rfl, ?_⟩, hμ', hspares⟩
            rw [hslot]
            exact ⟨v, hnode, hstore⟩
    refine ⟨_, ξ', ?_, hpiece⟩
    exact hr.bind (hr'.bind rfl)
  | .declare .. | .label .. | .hint .. | .nop _ | .goto .. | .rollback .. | .ret _ =>
    refine ⟨_, ξ, rfl, isPiece_same hξ rfl fun m c m' μ h ↦ ?_⟩
    obtain ⟨rfl, rfl⟩ := h
    exact ⟨rfl, rfl, rfl⟩

/-! ### A body becomes pieces of code -/

/-- The label is one that extraction may make up. -/
def Skip (S : Frame κ) (l : Label) : Prop := ∃ n, l = .numbered S.routine.name "skip" n

/-- The code consists of a piece for each statement. -/
def Unrolls (S : Frame κ) (bound : Nat) : List Stmt → List Stmt → Prop
  | [], code => code = []
  | s :: rest, code =>
    ∃ piece others ξ ξ', code = piece ++ others ∧ ξ'.temporaries.next ≤ bound ∧
      S.IsPiece ξ s piece ξ' ∧ S.Unrolls bound rest others

variable {bound : Nat} {body code rest others whole : List Stmt}

section

variable (h : S.Unrolls bound body code)

include h

theorem Unrolls.append {body' code' : List Stmt} (h' : S.Unrolls bound body' code') :
    S.Unrolls bound (body ++ body') (code ++ code') := by
  induction body generalizing code with
  | nil =>
    obtain rfl : code = [] := h
    exact h'
  | cons s rest ih =>
    obtain ⟨piece, others, ξ, ξ', rfl, hbound, hpiece, hothers⟩ := h
    exact ⟨piece, others ++ code', ξ, ξ', append_assoc .., hbound, hpiece, ih hothers⟩

/-- The code has the labels of the body and some to skip to. -/
theorem Unrolls.mem_labels (hl : l ∈ labels code) : l ∈ labels body ∨ S.Skip l := by
  induction body generalizing code with
  | nil =>
    obtain rfl : code = [] := h
    cases hl
  | cons s rest ih =>
    obtain ⟨piece, others, ξ, ξ', rfl, -, hpiece, hothers⟩ := h
    obtain ⟨fresh, hprogress, hlabels⟩ := hpiece.labels
    rw [labels_append, hlabels, mem_append, mem_append] at hl
    rw [labels_cons, mem_append]
    rcases hl with (hl | hl) | hl
    · exact .inl (.inl hl)
    · exact .inr (hprogress.skip l hl)
    · exact (ih hothers hl).imp_left .inr

/-- A label of the body is found in the code, at the piece of the same statement. -/
theorem Unrolls.from? (hl : ¬ S.Skip l) {there : List Stmt} (hthere : from? l body = some there) :
    ∃ there', from? l code = some there' ∧ S.Unrolls bound there there' := by
  induction body generalizing code with
  | nil => cases hthere
  | cons s rest ih =>
    have hunrolls := h
    obtain ⟨piece, others, ξ, ξ', rfl, -, hpiece, hothers⟩ := h
    rw [from?_append]
    rcases hrest : from? l rest with - | found
    · -- the label is that of the first statement, which has become itself
      rw [from?, hrest] at hthere
      split at hthere
      · next hlabel =>
        cases hthere
        obtain rfl := hpiece.label (by rw [hlabel]; rfl)
        have hnone : from? l others = none := by
          refine from?_eq_none_iff.2 fun hmem ↦ ?_
          rcases hothers.mem_labels hmem with hmem | hskip
          · exact from?_eq_none_iff.1 hrest hmem
          · exact hl hskip
        refine ⟨s :: others, ?_, hunrolls⟩
        rw [hnone]
        simp [from?, hlabel]
      · cases hthere
    · rw [from?, hrest] at hthere
      obtain rfl : found = there := Option.some.inj hthere
      obtain ⟨there', hthere', hunrolls'⟩ := ih hothers hrest
      exact ⟨there', by rw [hthere']; rfl, hunrolls'⟩

end

/-- Control gets through a piece of code and goes where the statement says. -/
theorem IsPiece.exists_continues {piece : List Stmt} (h : S.IsPiece ξ s piece ξ')
    (hbound : ξ'.temporaries.next ≤ bound) (hwhole : (piece ++ others) <:+ whole)
    (hcount : ∀ l, S.Skip l → (Stmt.labels whole).count l ≤ 1)
    (hs : s.InTime S.key S.calls S.routine m c m') (hμ : S.Agrees bound m μ) :
    ∃ μ', S.Agrees bound m' μ' ∧
      ∀ M, S.Continues whole others c μ' M → Runs S.step whole (piece ++ others) μ M := by
  rcases hlabel : s.label? with - | l
  · obtain ⟨fresh, hprogress, hlabels⟩ := h.labels
    rw [hlabel, Option.toList_none, nil_append] at hlabels
    have hsub : made ξ ξ' ⊆ Set.Iio bound := fun n hn ↦ lt_of_lt_of_le hn.2 hbound
    obtain ⟨μ', hμ', -, -, -, hrun⟩ := h.simulates bound hsub m c m' μ hs hμ whole others hwhole
      fun l hl ↦ hcount l (hprogress.skip l (hlabels ▸ hl))
    exact ⟨μ', hμ', hrun⟩
  · obtain rfl := h.label (by rw [hlabel]; rfl)
    obtain ⟨span, rfl⟩ : ∃ span, s = .label span l := by
      cases s <;> cases hlabel
      exact ⟨_, rfl⟩
    obtain ⟨rfl, rfl⟩ := hs
    exact ⟨μ, hμ, fun M hM ↦ .next step_label hM⟩

/-- A run of the body, with counts stored late, is a run of the code. -/
theorem Unrolls.exists_runs {M : Memory κ} (hwhole : S.Unrolls bound body whole)
    (hskip : ∀ l ∈ labels body, ¬ S.Skip l)
    (hcount : ∀ l, S.Skip l → (labels whole).count l ≤ 1)
    (h : Runs (InTime S.key S.calls S.routine) body rest m M)
    (hunrolls : S.Unrolls bound rest others) (hothers : others <:+ whole)
    (hμ : S.Agrees bound m μ) :
    ∃ M', M.Agrees (S.Hidden bound) M' ∧ Runs S.step whole others μ M' := by
  induction h generalizing others μ with
  | done m =>
    obtain rfl : others = [] := hunrolls
    exact ⟨μ, hμ, .done μ⟩
  | @next s rest m m₁ M hstep _ ih =>
    obtain ⟨piece, others, ξ, ξ', rfl, hbound, hpiece, hafter⟩ := hunrolls
    obtain ⟨μ₁, hμ₁, hrun⟩ := hpiece.exists_continues hbound hothers hcount hstep hμ
    obtain ⟨M', hM', hruns⟩ := ih hafter (List.IsSuffix.trans ⟨piece, rfl⟩ hothers) hμ₁
    exact ⟨M', hM', hrun M' hruns⟩
  | stop hstep =>
    obtain ⟨piece, others, ξ, ξ', rfl, hbound, hpiece, -⟩ := hunrolls
    obtain ⟨μ₁, hμ₁, hrun⟩ := hpiece.exists_continues hbound hothers hcount hstep hμ
    exact ⟨μ₁, hμ₁, hrun μ₁ rfl⟩
  | @jump s rest there m m₁ M l hstep hthere _ ih =>
    obtain ⟨piece, others, ξ, ξ', rfl, hbound, hpiece, -⟩ := hunrolls
    obtain ⟨μ₁, hμ₁, hrun⟩ := hpiece.exists_continues hbound hothers hcount hstep hμ
    have hmem : l ∈ labels body := by
      by_contra hnot
      rw [from?_eq_none_iff.2 hnot] at hthere
      cases hthere
    obtain ⟨there', hthere', hunrolls'⟩ := hwhole.from? (hskip l hmem) hthere
    obtain ⟨M', hM', hruns⟩ := ih hunrolls' (from?_suffix hthere') hμ₁
    exact ⟨M', hM', hrun M' ⟨there', hthere', hruns⟩⟩

/-- What extraction makes of a list of statements. -/
structure IsBody (S : Frame κ) (ξ : Extractor) (body code : List Stmt) (ξ' : Extractor) : Prop where
  labels : ∃ fresh, S.Progress ξ fresh ξ' ∧ (labels code).Perm (labels body ++ fresh)
  flat : Flat code
  unrolls (bound : Nat) (h : ξ'.temporaries.next ≤ bound) : S.Unrolls bound body code

theorem IsPiece.isBody (h : S.IsPiece ξ s code ξ') : S.IsBody ξ [s] code ξ' where
  labels := by
    obtain ⟨fresh, hprogress, hlabels⟩ := h.labels
    refine ⟨fresh, hprogress, ?_⟩
    rw [hlabels, labels_cons, labels_nil, append_nil]
  flat := h.flat
  unrolls bound hbound := ⟨code, [], ξ, ξ', (append_nil code).symm, hbound, h, rfl⟩

theorem IsBody.append {body' code' : List Stmt} {ξ₁ : Extractor} (h : S.IsBody ξ body code ξ₁)
    (h' : S.IsBody ξ₁ body' code' ξ') : S.IsBody ξ (body ++ body') (code ++ code') ξ' where
  labels := by
    obtain ⟨fresh, hprogress, hperm⟩ := h.labels
    obtain ⟨fresh', hprogress', hperm'⟩ := h'.labels
    refine ⟨fresh ++ fresh', hprogress.trans hprogress', ?_⟩
    rw [labels_append, labels_append]
    refine (hperm.append hperm').trans ?_
    simp only [append_assoc, perm_append_left_iff]
    exact perm_append_comm_assoc ..
  flat := flat_append.2 ⟨h.flat, h'.flat⟩
  unrolls bound hbound := by
    obtain ⟨_, hprogress', -⟩ := h'.labels
    exact (h.unrolls bound (hprogress'.le.trans hbound)).append (h'.unrolls bound hbound)

/-- Extraction ends well, and makes a piece of code of each statement. -/
theorem exists_isBody (hs : ∀ t ∈ s.flatten, t.Separable S) (hξ : S.Serves ξ) :
    ∃ code ξ', Yields (Extract.stmt s) ξ code ξ' ∧ S.IsBody ξ s.flatten code ξ' := by
  induction s using blockInduction generalizing ξ with
  | block span items ih =>
    induction items generalizing ξ with
    | nil => exact ⟨[], ξ, rfl, ⟨[], .refl hξ, .refl _⟩, flat_nil, fun _ _ ↦ rfl⟩
    | cons s rest ihrest =>
      obtain ⟨hfirst, hrest⟩ := forall_mem_append.1 hs
      obtain ⟨ihfirst, ih⟩ := forall_mem_cons.1 ih
      obtain ⟨code, ξ₁, hcode, hbody⟩ := ihfirst hfirst hξ
      obtain ⟨_, hprogress, -⟩ := hbody.labels
      obtain ⟨code', ξ', hcode', hbody'⟩ := ihrest ih hrest hprogress.serves
      exact ⟨code ++ code', ξ', hcode.bind (hcode'.bind rfl), hbody.append hbody'⟩
  | single s hblock =>
    rw [flatten_of_isBlock hblock] at hs ⊢
    obtain ⟨code, ξ', hcode, hpiece⟩ := exists_piece (hs s (mem_singleton_self s)) hξ
    exact ⟨code, ξ', hcode, hpiece.isBody⟩

/-- A label that extraction makes up is defined once, if the body has none of its name. -/
theorem IsBody.count_le (h : S.IsBody ξ body code ξ') (hskip : ∀ l ∈ Stmt.labels body, ¬ S.Skip l)
    (l : Label) (hl : S.Skip l) : (Stmt.labels code).count l ≤ 1 := by
  obtain ⟨fresh, hprogress, hperm⟩ := h.labels
  have hnot : l ∉ Stmt.labels body := fun hmem ↦ hskip l hmem hl
  rw [hperm.count_eq, count_append, count_eq_zero_of_not_mem hnot, Nat.zero_add]
  exact nodup_iff_count_le_one.1 hprogress.fresh.nodup l

end Frame

/-- A run of a body whose counts are stored late is a run of the extracted body, up to temporaries. -/
theorem Extracted.exists_runs_inTime {body : Stmt} (hbody : ∀ s ∈ body.flatten, s.Separable S)
    (hskip : ∀ l ∈ labels body.flatten, ¬ S.Skip l) :
    ∃ x, extract S.routine body = .ok x ∧ ∀ m M,
      Runs (InTime S.key S.calls S.routine) body.flatten body.flatten m M →
        ∃ M', M.Agrees (S.Hidden x.temporaries) M' ∧
          Runs S.step x.body.flatten x.body.flatten m M' := by
  have hserves : S.Serves (.ofRoutine S.routine) := ⟨rfl, rfl, rfl⟩
  obtain ⟨code, ξ', hcode, hisBody⟩ := Frame.exists_isBody hbody hserves
  have hunrolls := hisBody.unrolls _ (Nat.le_refl _)
  refine ⟨⟨body.span, code, ξ'.temporaries.next⟩, ?_, fun m M h ↦ ?_⟩
  · rw [extract, show (Extract.stmt body).run (.ofRoutine S.routine) = (.ok code, ξ') from hcode]
    rfl
  · obtain ⟨M', hM', hruns⟩ := hunrolls.exists_runs hskip (hisBody.count_le hskip) h hunrolls
      (suffix_refl _) (.refl _ m)
    refine ⟨M', hM', ?_⟩
    rw [show flatten (Extracted.body ⟨body.span, code, ξ'.temporaries.next⟩) = code from
      hisBody.flat.flattenAll]
    exact hruns

end Wirescript
