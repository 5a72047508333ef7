import Wirescript.Proofs.Extraction

/-!
# The uses of an expression

Extraction plans three uses of an expression: as an operand, to be stored, and for its effects.
`Frame.IsPlan` says what each of them has to do, and `Frame.isPlan` that the plan of every
expression does it, by induction on the expression.

Not every expression qualifies. `Expr.Splittable` asks that nothing is read that looks like a
temporary of the compiler, that an argument which is passed by reference is followed by arguments
without effects, and that no argument of a call reads the cell of a parameter that is written before
the argument is passed: arguments are written to the parameters one by one. `Expr.Orderly` asks
besides that no old value is asked for after a count, so that nothing is owed.
-/

namespace Wirescript

open Extract (expr slot)
open Wirescript.Expr
open Stmt
open List hiding flatten

variable {op : BinaryOp} {changed : Bool} {callee : Callee} {left operand right : Expr}
  {value : Extract Split} {nodes : List Expr} {plans : List Extract.Plan} {code : List Stmt}
  {values : List Value} {parameters : List Variable} {i : Nat} {n : Note} {o : Operands}
  {result : Option Variable} {span : Span} {x : Variable}

/-! ### Expressions whose effects can be ordered -/

/-- What is passed by reference is followed by expressions without effects. -/
def ReferencesLast : List Modifiers → List Expr → Prop
  | modifiers :: others, _ :: es =>
    (modifiers.byReference = true → allPure es = true) ∧ ReferencesLast others es
  | _, _ => True

section

variable {κ : Type} (key : Slot → κ)

/-- No argument reads the cell of a parameter that is written before the argument is passed. -/
def ReadsFirst : List Variable → List Expr → Prop
  | p :: parameters, _ :: es =>
    (p.modifiers.out = false → ∀ x ∈ allReads es, key x.root ≠ key p.root) ∧
      ReadsFirst parameters es
  | _, _ => True

/-- The arguments can be evaluated one after the other and then be passed. -/
structure Callee.TakesInOrder (callee : Callee) (arguments : List Expr) : Prop where
  references : ReferencesLast callee.parameterModifiers arguments
  apart (r : Routine) (h : callee = .routine r) : ReadsFirst key r.parameters arguments

mutual

/-- Statements that run before the expression can have its effects. -/
def Expr.Orderly : Expr → Prop
  | .literal .. => True
  | .read _ x => x.isTemporary = false
  | .unary _ _ operand | .convert _ operand => operand.Orderly
  | .binary _ _ left right => left.Orderly ∧ right.Orderly
  | .make _ x y z => x.Orderly ∧ y.Orderly ∧ z.Orderly
  | .call _ callee arguments => AllOrderly arguments ∧ callee.TakesInOrder key arguments
  | .step _ x yieldsNew _ => x.isTemporary = false ∧ yieldsNew = true
  | .assign _ x value => x.isTemporary = false ∧ value.Orderly
  | .segment .. | .compound .. | .error _ | .statement .. => False

@[inherit_doc Expr.Orderly]
def Expr.AllOrderly : List Expr → Prop
  | [] => True
  | e :: rest => e.Orderly ∧ AllOrderly rest

end

mutual

/-- Statements around the expression can have its effects. -/
def Expr.Splittable : Expr → Prop
  | .literal .. => True
  | .read _ x | .step _ x _ _ => x.isTemporary = false
  | .unary _ _ operand | .convert _ operand => operand.Splittable
  | .binary _ _ left right => left.Splittable ∧ right.Splittable
  | .make _ x y z => x.Splittable ∧ y.Splittable ∧ z.Splittable
  | .call _ callee arguments => AllSplittable arguments ∧ callee.TakesInOrder key arguments
  | .assign _ x value => x.isTemporary = false ∧ value.Splittable
  | .segment .. | .compound .. | .error _ | .statement .. => False

@[inherit_doc Splittable]
def Expr.AllSplittable : List Expr → Prop
  | [] => True
  | e :: rest => e.Splittable ∧ AllSplittable rest

end

end

namespace Frame

variable {κ : Type} [DecidableEq κ] {S : Frame κ} {bound : Nat} {R R' : Set ℕ}
  {m m' m₁ μ : Memory κ} {e : Expr} {es : List Expr} {ξ ξ' : Extractor}

/-! ### Calls -/

theorem Within.exists_reads (h : Forall₂ (S.Within R) es nodes) (hx : x ∈ allReads nodes)
    : x ∈ allReads es ∨ ∃ n t, n ∈ R ∧ x = .slot (slot S.routine.id n t) := by
  induction h with
  | nil => cases hx
  | cons hnode _ ih =>
    rw [allReads_cons, mem_append] at hx ⊢
    rcases hx with hx | hx
    · exact (hnode x hx).imp_left .inl
    · exact (ih hx).imp_left .inr

/-- What has been evaluated is passed to the parameters. After each write the expressions that are
still to be passed have the same values, because none of them reads the parameter. -/
theorem exists_passes (h : Receives S.key (parameters.zip values) m m')
    (hμ : S.Agrees bound m μ) (hvalues : evalAll S.key μ nodes = .ok values)
    (hreads : Forall₂ (S.Within R) es nodes)
    (hparameters : ∀ p a, (p, a) ∈ parameters.zip es → S.Holds p)
    (hapart : ReadsFirst S.key parameters es) :
    ∃ μ', Passes S.key (parameters.zip nodes) μ μ' ∧ S.Agrees bound m' μ' ∧
      S.Spares bound R' μ μ' := by
  induction parameters generalizing es nodes values m μ with
  | nil =>
    obtain rfl : m' = m := h
    exact ⟨μ, rfl, hμ, .refl bound R' μ⟩
  | cons p parameters ih =>
    cases hreads with
    | nil =>
      obtain rfl : values = [] := (Except.ok.inj hvalues).symm
      obtain rfl : m' = m := h
      exact ⟨μ, rfl, hμ, .refl bound R' μ⟩
    | @cons e node es nodes hnode hnodes =>
      obtain ⟨v, others, hv, hothers, rfl⟩ := evalAll_cons.1 hvalues
      obtain ⟨m₁, hfirst, hrest⟩ := h
      have hp := hparameters p e (.head _)
      have hps := fun q a hmem ↦ hparameters q a (.tail _ hmem)
      by_cases hout : p.modifiers.out = true
      · rw [if_pos hout] at hfirst
        subst hfirst
        obtain ⟨μ', hpasses, hμ', hspares⟩ := ih hrest hμ hothers hnodes hps hapart.2
        exact ⟨μ', ⟨μ, by rw [if_pos hout], hpasses⟩, hμ', hspares⟩
      · rw [if_neg hout] at hfirst
        obtain ⟨μ₁, hstore, hμ₁, -⟩ := hμ.store (not_hidden hp) hfirst
        have hothers' : evalAll S.key μ₁ nodes = .ok others := by
          rw [← hothers]
          refine evalAll_congr fun x hx ↦ Memory.get?_store_of_ne hstore ?_
          rcases Within.exists_reads hnodes hx with hx | ⟨n, t, -, rfl⟩
          · exact (hapart.1 (by simpa using hout) x hx).symm
          · exact cell_ne hp n t
        obtain ⟨μ', hpasses, hμ', hspares⟩ := ih hrest hμ₁ hothers' hnodes hps hapart.2
        refine ⟨μ', ⟨μ₁, ?_, hpasses⟩, hμ', (Spares.store hp hstore).trans hspares⟩
        rw [if_neg hout]
        exact ⟨v, hv, hstore⟩

/-- What is passed by reference is copied back to the same variables. -/
theorem exists_passesBack (h : PassesBack S.key (parameters.zip es) m m')
    (hμ : S.Agrees bound m μ) (hkeeps : KeepsTail es nodes)
    (hlast : ReferencesLast (parameters.map Variable.modifiers) es) (hes : S.AllTyped es)
    (hparameters : ∀ p a, (p, a) ∈ parameters.zip es → S.Holds p) :
    ∃ μ', PassesBack S.key (parameters.zip nodes) μ μ' ∧ S.Agrees bound m' μ' ∧
      S.Spares bound R μ μ' := by
  induction parameters generalizing es nodes m μ with
  | nil =>
    obtain rfl : m' = m := h
    exact ⟨μ, rfl, hμ, .refl bound R μ⟩
  | cons p parameters ih =>
    match es, nodes, hkeeps with
    | [], [], _ =>
      obtain rfl : m' = m := h
      exact ⟨μ, rfl, hμ, .refl bound R μ⟩
    | e :: es, node :: nodes, hkeeps =>
      obtain ⟨m₁, hfirst, hrest⟩ := h
      have hp := hparameters p e (.head _)
      have hps := fun q a hmem ↦ hparameters q a (.tail _ hmem)
      by_cases href : p.modifiers.byReference = true
      · rw [if_pos href] at hfirst
        obtain ⟨target, htarget, hstore⟩ := hfirst
        obtain ⟨n, rfl⟩ : ∃ n, e = .read n target := by
          cases e <;> cases htarget
          exact ⟨_, rfl⟩
        obtain rfl : node = .read n target := hkeeps.1 (by simp [isPure]) (hlast.1 href)
        obtain ⟨μ₁, hstore₁, hμ₁, -⟩ := hμ.store (not_hidden hes.1.2) hstore
        obtain ⟨μ', hback, hμ', hspares⟩ := ih hrest hμ₁ hkeeps.2 hlast.2 hes.2 hps
        refine ⟨μ', ⟨μ₁, ?_, hback⟩, hμ', (Spares.store hes.1.2 hstore₁).trans hspares⟩
        rw [if_pos href]
        refine ⟨target, rfl, ?_⟩
        rwa [hμ.load (not_hidden hp)]
      · rw [if_neg href] at hfirst
        subst hfirst
        obtain ⟨μ', hback, hμ', hspares⟩ := ih hrest hμ hkeeps.2 hlast.2 hes.2 hps
        exact ⟨μ', ⟨μ, by rw [if_neg href], hback⟩, hμ', hspares⟩

/-- A routine is called with expressions that have the values. -/
theorem exists_invokes {r : Routine} (h : Invokes S.key S.calls r es values m m')
    (hμ : S.Agrees bound m μ) (ho : S.IsOperands es R o)
    (hvalues : evalAll S.key μ o.values.node = .ok values) (hes : S.AllTyped es) (hr : S.callable r)
    (hfits : r.Fits S.key S.types es) (horder : (Callee.routine r).TakesInOrder S.key es) :
    ∃ μ₁ μ₂ μ', Passes S.key (r.parameters.zip o.values.node) μ μ₁ ∧ S.calls r μ₁ μ₂ ∧
      PassesBack S.key (r.parameters.zip o.values.node) μ₂ μ' ∧ S.Agrees bound m' μ' ∧
      S.Spares bound R' μ μ' := by
  obtain ⟨m₁, m₂, hreceives, hcalls, hback⟩ := h
  have hparameters := fun p a hmem ↦ (hfits p a hmem).1
  obtain ⟨μ₁, hpasses, hμ₁, hspares₁⟩ :=
    exists_passes hreceives hμ hvalues ho.reads hparameters (horder.apart r rfl)
  have htemporary (k : κ) (hk : S.Hidden bound k) :
      ∃ n t, k = S.key (slot S.routine.id n t) := by
    obtain ⟨n, t, -, hk⟩ := hk
    exact ⟨n, t, hk⟩
  obtain ⟨μ₂, hcalls₂, hμ₂, hsame⟩ := S.unaware _ htemporary r hr m₁ m₂ μ₁ hcalls hμ₁
  have hspares₂ : S.Spares bound R' μ₁ μ₂ := fun n t hn _ ↦ hsame _ ⟨n, t, hn, rfl⟩
  obtain ⟨μ', hback', hμ', hspares'⟩ :=
    exists_passesBack hback hμ₂ ho.keeps horder.references hes hparameters
  exact ⟨μ₁, μ₂, μ', hpasses, hcalls₂, hback', hμ', (hspares₁.trans hspares₂).trans hspares'⟩

/-- A result is stored in a variable of the body. -/
theorem exists_keeps {slot : Option Variable} (h : Keeps S.key result slot m m')
    (hμ : S.Agrees bound m μ) (hresult : ∀ x ∈ result, S.Holds x)
    (hslot : result.isSome = true → ∀ x ∈ slot, S.Holds x) :
    ∃ μ', Keeps S.key result slot μ μ' ∧ S.Agrees bound m' μ' ∧ S.Spares bound R μ μ' := by
  match result, slot with
  | none, _ | some _, none =>
    obtain rfl : m' = m := h
    exact ⟨μ, rfl, hμ, .refl bound R μ⟩
  | some x, some slot =>
    obtain ⟨μ', hstore, hμ', -⟩ := hμ.store (not_hidden (hresult x rfl)) h
    refine ⟨μ', ?_, hμ', .store (hresult x rfl) hstore⟩
    rwa [← hμ.load (not_hidden (hslot rfl slot rfl))] at hstore

/-- The call can be made in the frame: its arguments in order, and its result kept. -/
structure CanCall (S : Frame κ) (callee : Callee) (es : List Expr) (result : Option Variable) :
    Prop where
  typed : AllWellTyped S.key S.types S.callable es
  admits : callee.Admits S.key S.types S.callable es
  inOrder : callee.TakesInOrder S.key es
  kept (x : Variable) (hx : x ∈ result) : x.Typed S.key S.types
  returns (h : result.isSome = true) : callee.Returns S.key S.types

/-- A call is made with expressions that have the values. -/
theorem exists_calls (h : callee.Applies S.key S.calls es values result m m')
    (hμ : S.Agrees bound m μ) (ho : S.IsOperands es R o)
    (hvalues : evalAll S.key μ o.values.node = .ok values) (hcan : S.CanCall callee es result) :
    ∃ μ', Calls S.key S.calls callee o.values.node result μ μ' ∧ S.Agrees bound m' μ' ∧
      S.Spares bound R' μ μ' := by
  cases callee with
  | routine r =>
    obtain ⟨m₁, hinvokes, hkeeps⟩ := h
    obtain ⟨μ₁, μ₂, μ₃, hpasses, hcalls, hback, hμ₃, hspares⟩ :=
      exists_invokes hinvokes hμ ho hvalues hcan.typed hcan.admits.1 hcan.admits.2 hcan.inOrder
    have hslot (hsome : result.isSome = true) (x : Variable) (hx : x ∈ r.returnSlot) :
        S.Holds x := by
      obtain ⟨slot, hslot, htyped, -⟩ := hcan.returns hsome
      obtain rfl : slot = x := Option.some.inj (hslot.symm.trans hx)
      exact htyped
    obtain ⟨μ', hkeeps', hμ', hspares'⟩ := exists_keeps hkeeps hμ₃ hcan.kept hslot
    exact ⟨μ', ⟨μ₁, μ₂, μ₃, hpasses, hcalls, hback, hkeeps'⟩, hμ', hspares.trans hspares'⟩
  | builtin b t =>
    obtain ⟨evaluator, value, hevaluator, hcompute, h⟩ := h
    cases result with
    | none =>
      obtain rfl : m' = m := h
      exact ⟨μ, ⟨evaluator, values, value, hevaluator, hvalues, hcompute, rfl⟩, hμ, .refl bound R' μ⟩
    | some x =>
      have hx := hcan.kept x rfl
      obtain ⟨μ', hstore, hμ', -⟩ := hμ.store (not_hidden hx) h
      exact ⟨μ', ⟨evaluator, values, value, hevaluator, hvalues, hcompute, hstore⟩, hμ',
        .store hx hstore⟩

/-! ### Expressions made of operands -/

variable {s : Split}

/-- The expression is split, and the split shows it. -/
abbrev IsOperand (S : Frame κ) (e : Expr) (R : Set ℕ) (s : Split) : Prop :=
  S.IsSplit false e R s ∧ Shows e s

/-- An expression whose parts have been split, built anew if one of them has changed. -/
theorem IsOperands.build {node : Expr} (ho : S.IsOperands es R o)
    (hnode : o.values.changed = false → node = e) (hderived : node.Derived)
    (hvalue : ∀ m v m', e.Produces S.key S.calls m v m' →
      ∃ values, ProducesAll S.key S.calls es m values m' ∧
        ∀ μ, evalAll S.key μ o.values.node = .ok values → node.eval S.key μ = .ok v)
    (hfirst : e.isEager = anyEager es := by simp [isEager, anyEager])
    (hpending : e.pending = allPending es := by
      simp [pending, allPending, anyEager])
    (hhasty : e.hasty = [] := by rfl) (hread : node.read? = none := by rfl)
    (hreads : node.reads = allReads o.values.node := by simp)
    (hreads' : e.reads = allReads es := by simp) :
    S.IsOperand e R ⟨o.before, ⟨node, o.values.changed⟩, o.after⟩ := by
  refine ⟨⟨?_, ho.flat, hnode, hderived, fun h ↦ .inl ?_, fun x hx ↦ ?_, ?_⟩, ?_, fun hpure ↦ ?_⟩
  · rw [hpending]
    exact ho.after
  · simpa [isStable, hread] using h
  · rw [hreads']
    exact Within.exists_reads ho.reads (hreads ▸ hx)
  · intro bound hbound m v m₁ m' μ hv hdue hμ
    obtain rfl : m' = m₁ := by simpa [due, hhasty] using hdue
    obtain ⟨values, hvalues, heval⟩ := hvalue m v m' hv
    exact (ho.reaches bound hbound m values m' μ hvalues hμ).mono subset_rfl
      fun μ' _ _ _ hQ ↦ heval μ' hQ
  · rw [hfirst, Split.hasBefore, Bool.eq_iff_iff, ← not_iff_not]
    simpa using ho.before
  · refine ho.kept ((allPure_iff es).2 ?_)
    rw [← hfirst, ← hpending]
    exact (isPure_iff e).1 hpure

/-- The same for an expression that is built anew with a note of its own. -/
theorem IsOperand.choose {built : Expr} {before after : List Stmt} (make : Note → Expr)
    (P : Note → Prop) (hkept : changed = false → make n = e ∧ P n)
    (hnew : ∃ n', built = make n' ∧ P n') (hbuild : ∀ n', P n' → (changed = false → make n' = e) →
      S.IsOperand e R ⟨before, ⟨make n', changed⟩, after⟩) :
    S.IsOperand e R ⟨before, .choose changed (make n) built, after⟩ := by
  obtain ⟨n', rfl, hn'⟩ := hnew
  cases changed
  · exact hbuild n (hkept rfl).2 fun _ ↦ (hkept rfl).1
  · exact hbuild n' hn' fun h ↦ (nomatch h)

/-! ### Plans -/

/-- The code does what the relation says, with temporaries of the set. -/
def IsCode (S : Frame κ) (R : Set ℕ) (code : List Stmt) (P : Memory κ → Memory κ → Prop) : Prop :=
  ∀ bound, R ⊆ Set.Iio bound → ∀ m m' μ, P m m' →
    m.Agrees (S.Hidden bound) μ → S.Reaches bound R code μ .next m' fun _ ↦ True

/-- The computation splits the expression. -/
def IsValue (S : Frame κ) (e : Expr) (value : Extract Split) : Prop :=
  ∀ ξ, S.Serves ξ → ∃ s ξ', Yields value ξ s ξ' ∧ S.Progress ξ (labels s.before) ξ' ∧
    S.IsSplit false e (made ξ ξ') s ∧ Shows e s

/-- The computation makes code that does what the relation says. -/
def Makes (S : Frame κ) (effects : Extract (List Stmt)) (P : Memory κ → Memory κ → Prop) : Prop :=
  ∀ ξ, S.Serves ξ → ∃ code ξ', Yields effects ξ code ξ' ∧ S.Progress ξ (labels code) ξ' ∧
    Flat code ∧ S.IsCode (made ξ ξ') code P

/-- The three uses of an expression do what they are for. -/
structure IsPlan (S : Frame κ) (e : Expr) (p : Extract.Plan) : Prop where
  items : p.items?.isNone = true
  value : S.IsValue e p.value
  store (x : Variable) (span : Span) (hx : x.Typed S.key S.types) :
    S.Makes (p.store x span) (e.StoresTo S.key S.calls x)
  filled (x : Variable) (span : Span) (ξ : Extractor) (code : List Stmt) (ξ' : Extractor)
    (h : Yields (p.store x span) ξ code ξ') : code ≠ []
  discard : S.Makes p.discard (e.ActsLate S.key S.calls)

section

variable (h : S.IsSplit false e R s) (he : S.Typed e)

include h he

/-- The counts of an expression are stored. -/
theorem IsSplit.settles (hpending : Settles S.key e.pending m m') (hμ : S.Agrees bound m μ) :
    S.Reaches bound R s.after μ .next m' fun _ ↦ True := by
  rw [h.after]
  exact .settle (fun c hc ↦ he.reads (mem_reads_of_pending hc)) hpending hμ

/-- What runs before, then a statement that stores the value, and then the counts. -/
theorem IsSplit.isCode_around {use : Expr → Stmt} (hhasty : e.hasty = []) (hx : S.Holds x)
    (huse : ∀ node μ μ', Assigns S.key x node μ μ' → S.step (use node) μ .next μ') :
    S.IsCode R (s.around use) (e.StoresTo S.key S.calls x) := by
  rintro bound hbound m m' μ ⟨v, m₁, m₂, hv, hstore, howed⟩ hμ
  rw [owed, hhasty] at howed
  have hdue : Settles S.key (e.due false) m₁ m₁ := by simp [due, hhasty]
  refine (h.reaches bound hbound m v m₁ m₁ μ hv hdue hμ).append fun μ₁ hμ₁ _ _ hvalue ↦ ?_
  obtain ⟨μ₂, hstore', hμ₂, -⟩ := hμ₁.store (not_hidden hx) hstore
  have hassign : S.Reaches bound R [use s.value.node] μ₁ .next m₂ fun _ ↦ True :=
    .statement (huse _ _ _ ⟨v, hvalue, hstore'⟩) hμ₂ (.store hx hstore') trivial
  exact hassign.append fun μ₃ hμ₃ _ _ _ ↦ h.settles he howed hμ₃

theorem IsSplit.isCode_effects :
    S.IsCode R s.effects fun m m' ↦ ∃ v, e.Completes S.key S.calls m v m' := by
  rintro bound hbound m m' μ ⟨v, m₁, hv, howed⟩ hμ
  obtain ⟨m₂, hhasty, hpending⟩ := settles_append.1 howed
  refine (h.reaches bound hbound m v m₁ m₂ μ hv hhasty hμ).append fun μ₁ hμ₁ _ _ _ ↦ ?_
  exact h.settles he hpending hμ₁

end

/-- Storing reads the value, and the counts come after it. -/
theorem IsValue.store (h : S.IsValue e value) (he : S.Typed e)
    (hhasty : e.hasty = []) (span : Span) (hx : S.Holds x) :
    S.Makes ((Extract.Plan.ofValue value).store x span) (e.StoresTo S.key S.calls x) := by
  intro ξ hξ
  obtain ⟨s, ξ', hs, hprogress, hsplit, -⟩ := h ξ hξ
  refine ⟨_, ξ', hs.bind rfl, ?_, hsplit.flat_around fun _ ↦ rfl,
    hsplit.isCode_around he hhasty hx fun _ _ _ hassigns ↦ ⟨rfl, hassigns⟩⟩
  rwa [hsplit.labels_around fun _ ↦ rfl]

theorem filled_ofValue (h : Yields ((Extract.Plan.ofValue value).store x span) ξ code ξ') :
    code ≠ [] := by
  obtain ⟨s, ξ₁, -, h⟩ := yields_bind.1 h
  obtain ⟨rfl, -⟩ := yields_pure.1 h
  simp [Split.around]

/-- A plan that comes from the use as an operand. -/
theorem IsValue.isPlan (h : S.IsValue e value) (he : S.Typed e) (hhasty : e.hasty = [])
    (hacts : ∀ m m', e.ActsLate S.key S.calls m m' → ∃ v, e.Completes S.key S.calls m v m') :
    S.IsPlan e (Extract.Plan.ofValue value) := by
  refine ⟨rfl, h, fun x span hx ↦ h.store he hhasty span hx, fun _ _ _ _ _ ↦ filled_ofValue,
    fun ξ hξ ↦ ?_⟩
  obtain ⟨s, ξ', hs, hprogress, hsplit, -⟩ := h ξ hξ
  refine ⟨s.effects, ξ', hs.bind rfl, ?_,
    flat_append.2 ⟨hsplit.flat, hsplit.flat_after⟩, fun bound hbound m m' μ hact hμ ↦
      hsplit.isCode_effects he bound hbound m m' μ (hacts m m' hact) hμ⟩
  rwa [Split.effects, labels_append, hsplit.labels_after, append_nil]

/-- The operands of plans, one after the other. -/
theorem exists_splits (hξ : S.Serves ξ) (h : Forall₂ S.IsPlan es plans) :
    ∃ splits ξ', Yields (plans.mapM Extract.Plan.value) ξ splits ξ' ∧
      S.Progress ξ (splits.flatMap fun s ↦ labels s.before) ξ' ∧
      S.Splits es ξ.temporaries.next ξ'.temporaries.next splits := by
  induction h generalizing ξ with
  | nil => exact ⟨[], ξ, rfl, .refl hξ, Nat.le_refl _, rfl⟩
  | cons hplan _ ih =>
    obtain ⟨s, ξ₁, hs, hprogress₁, hsplit, hshows⟩ := hplan.value ξ hξ
    obtain ⟨rest, ξ', hrest, hprogress, hsplits⟩ := ih hprogress₁.serves
    rw [mapM_cons]
    exact ⟨s :: rest, ξ', hs.bind (hrest.bind rfl), hprogress₁.trans hprogress,
      s, rest, _, rfl, hprogress₁.le, hsplit, hshows, hsplits⟩

theorem exists_operands (hξ : S.Serves ξ) (h : Forall₂ S.IsPlan es plans)
    (hes : S.AllTyped es) : ∃ o ξ', Yields (Extract.Plan.operands plans) ξ o ξ' ∧
      S.Progress ξ (labels o.before) ξ' ∧ S.IsOperands es (made ξ ξ') o := by
  obtain ⟨splits, ξ₁, hsplits, hprogress₁, hall⟩ := exists_splits hξ h
  obtain ⟨o, ξ', ho, hprogress, hoperands, hlabels⟩ :=
    exists_gather hprogress₁.serves hall hes (Nat.le_refl _)
  have hmade : Set.Ico ξ.temporaries.next ξ₁.temporaries.next ∪ made ξ₁ ξ' = made ξ ξ' :=
    Set.Ico_union_Ico_eq_Ico hprogress₁.le hprogress.le
  refine ⟨o, ξ', hsplits.bind ho, ?_, hmade ▸ hoperands⟩
  rw [hlabels]
  simpa using hprogress₁.trans hprogress

/-! ### Operators -/

theorem isOperand_unary {op : UnaryOp} (hd : (Expr.unary n op operand).Derived)
    (h : S.IsOperands [operand] R o) :
    S.IsOperand (.unary n op operand) R (Extract.remade (.unary n op operand) o) := by
  obtain ⟨before, ⟨nodes, changed⟩, after⟩ := o
  obtain ⟨a, rfl⟩ := length_eq_one_iff.1 h.reads.length_eq.symm
  refine .choose (.unary · op a) (fun n' ↦ n'.constant = (Build.unary op a n'.span).constant)
    (fun hc ↦ by cases h.same hc; exact ⟨rfl, hd.1⟩) ⟨_, rfl, rfl⟩ fun n' hn' hsame ↦ ?_
  refine h.build hsame ⟨hn', h.derived.1⟩ fun m v m' hv ↦ ?_
  obtain ⟨b, m₁, hb, hhasty, hcompute⟩ := hv
  refine ⟨[b], ⟨b, m₁, m', [], hb, hhasty, ⟨rfl, rfl⟩, rfl⟩, fun μ hμ ↦ ?_⟩
  exact eval_unary_of_derived hn' (evalAll_cons_cons.1 hμ).1 hcompute

theorem isOperand_convert (hd : (Expr.convert n operand).Derived)
    (h : S.IsOperands [operand] R o) :
    S.IsOperand (.convert n operand) R (Extract.remade (.convert n operand) o) := by
  obtain ⟨before, ⟨nodes, changed⟩, after⟩ := o
  obtain ⟨a, rfl⟩ := length_eq_one_iff.1 h.reads.length_eq.symm
  refine .choose (.convert · a)
    (fun n' ↦ n'.type = n.type ∧ n'.constant = (Build.convert a n'.type n'.span).constant)
    (fun hc ↦ by cases h.same hc; exact ⟨rfl, rfl, hd.1⟩) ⟨_, rfl, rfl, rfl⟩ fun n' hn' hsame ↦ ?_
  obtain ⟨htype, hn'⟩ := hn'
  refine h.build hsame ⟨hn', h.derived.1⟩ fun m v m' hv ↦ ?_
  obtain ⟨b, m₁, hb, hhasty, rfl⟩ := hv
  refine ⟨[b], ⟨b, m₁, m', [], hb, hhasty, ⟨rfl, rfl⟩, rfl⟩, fun μ hμ ↦ ?_⟩
  rw [← htype]
  exact eval_convert_of_derived hn' (evalAll_cons_cons.1 hμ).1

/-- Both operands of an operator are evaluated. -/
theorem isOperand_binary (hd : (Expr.binary n op left right).Derived)
    (h : S.IsOperands [left, right] R o)
    (hshort : (op.isShortCircuit && !right.isPure) = false) :
    S.IsOperand (.binary n op left right) R (Extract.remade (.binary n op left right) o) := by
  obtain ⟨before, ⟨nodes, changed⟩, after⟩ := o
  obtain ⟨l, r, rfl⟩ := length_eq_two.1 h.reads.length_eq.symm
  refine .choose (.binary · op l r)
    (fun n' ↦ n'.constant = (Build.binary op l r n'.span).constant)
    (fun hc ↦ by cases h.same hc; exact ⟨rfl, hd.1⟩) ⟨_, rfl, rfl⟩ fun n' hn' hsame ↦ ?_
  refine h.build hsame ⟨hn', h.derived.1, h.derived.2.1⟩ (fun m v m' hv ↦ ?_)
    (by simp [isEager, anyEager, hshort])
    (by simp [pending, allPending, anyEager, hshort])
  obtain ⟨a, b, hvalues, hcompute⟩ := (produces_binary hshort).1 hv
  refine ⟨[a, b], hvalues, fun μ hμ ↦ ?_⟩
  obtain ⟨ha, hrest⟩ := evalAll_cons_cons.1 hμ
  exact eval_binary_of_derived hn' ha (evalAll_cons_cons.1 hrest).1 hcompute

theorem isOperand_make {x y z : Expr} (hd : (Expr.make n x y z).Derived)
    (h : S.IsOperands [x, y, z] R o) :
    S.IsOperand (.make n x y z) R (Extract.remade (.make n x y z) o) := by
  obtain ⟨before, ⟨nodes, changed⟩, after⟩ := o
  obtain ⟨x', y', z', rfl⟩ := length_eq_three.1 h.reads.length_eq.symm
  refine .choose (.make · x' y' z')
    (fun n' ↦ n'.type = n.type ∧ n'.constant = (Build.make n'.type x' y' z' n'.span).constant)
    (fun hc ↦ by cases h.same hc; exact ⟨rfl, rfl, hd.1⟩) ⟨_, rfl, rfl, rfl⟩ fun n' hn' hsame ↦ ?_
  obtain ⟨htype, hn'⟩ := hn'
  obtain ⟨hx', hy', hz', -⟩ := h.derived
  refine h.build hsame ⟨hn', hx', hy', hz'⟩ fun m v m' hv ↦ ?_
  obtain ⟨a, b, c, hvalues, rfl⟩ := produces_make.1 hv
  refine ⟨[a, b, c], hvalues, fun μ hμ ↦ ?_⟩
  obtain ⟨ha, hrest⟩ := evalAll_cons_cons.1 hμ
  obtain ⟨hb, hrest'⟩ := evalAll_cons_cons.1 hrest
  rw [← htype]
  exact eval_make_of_derived hn' ha hb (evalAll_cons_cons.1 hrest').1

/-- An operator whose operands are all evaluated. -/
theorem isValue_remade
    (hvalue : value = (do let o ← Extract.Plan.operands plans; return Extract.remade e o))
    (h : Forall₂ S.IsPlan es plans) (hes : S.AllTyped es)
    (hremade : ∀ R o, S.IsOperands es R o → S.IsOperand e R (Extract.remade e o)) :
    S.IsValue e value := by
  subst hvalue
  intro ξ hξ
  obtain ⟨o, ξ', ho, hprogress, hoperands⟩ := exists_operands hξ h hes
  exact ⟨_, ξ', ho.bind rfl, hprogress, hremade _ o hoperands⟩

/-- A short-circuit operator that is not decided has the value of its right operand. -/
theorem eq_of_undecided {a b v : Value} (hop : op.isShortCircuit = true)
    (hundecided : a.bool?.any op.decidedBy ≠ true) (h : op.compute? a b = some v) : v = b := by
  cases op <;> cases hop <;> cases a <;> cases b <;>
    simp_all [BinaryOp.compute?, Value.bool?, BinaryOp.decidedBy, BinaryOp.onBools,
      BinaryOp.onFloats, BinaryOp.onFloatAndVector, BinaryOp.onVectorAndFloat, BinaryOp.onVectors,
      BinaryOp.onRotations, BinaryOp.onNulls, BinaryOp.arithmetic?]

theorem decided_iff_sense {a : Value} (hop : op.isShortCircuit = true) :
    a.bool? = some (decide (op = .or)) ↔ a.bool?.any op.decidedBy = true := by
  cases op <;> cases hop <;> cases a <;> simp [Value.bool?, BinaryOp.decidedBy]

/-- A jump goes past code to the label after it. -/
theorem Reaches.skip {s : Stmt} {l : Label} {Q : Memory κ → Prop} (hstep : S.step s μ (.jump l) μ)
    (hm : S.Agrees bound m μ) (hQ : Q μ) :
    S.Reaches bound R (s :: (code ++ [.label span l])) μ .next m Q := by
  intro whole rest hwhole hlabels
  refine ⟨μ, hm, .refl bound R μ, fun _ ↦ rfl, hQ, fun M hM ↦ ?_⟩
  have hcount : (labels whole).count l ≤ 1 := hlabels l (by
    rw [labels_cons]
    simp)
  have hsuffix : (.label span l :: rest) <:+ whole := by
    refine List.IsSuffix.trans ⟨s :: code, ?_⟩ hwhole
    simp
  exact .jump hstep (from?_of_count hcount hsuffix rfl) (.next step_label hM)

theorem isSplit_shortCircuit {l r : Split} (skip : Label) (span : Span)
    (hop : op.isShortCircuit = true) (hpure : right.isPure = false)
    (ht : S.Typed (Expr.binary n op left right))
    (hl : S.IsSplit false left R l) (hr : S.IsSplit false right R r) (hi : i ∈ R') (hR : R ⊆ R') :
    let x : Variable := .slot (slot S.routine.id i .bool)
    S.IsSplit false (.binary n op left right) R' {
      before := l.around (.assign span x) ++
        .gotoIf span skip (Build.read x span) (decide (op = .or)) ::
          (r.around (.assign span x) ++ [.label span skip])
      value := .new (Build.read x span) } := by
  intro x
  refine ⟨by simp [pending, hop, hpure], ?_, fun h ↦ (nomatch h), rfl,
    fun _ ↦ .inr ⟨_, _, _, hi, rfl⟩, fun y hy ↦ .inr ⟨i, .bool, hi, ?_⟩, ?_⟩
  · have hflatL : Flat (l.around (.assign span x)) := hl.flat_around fun _ ↦ rfl
    have hflatR : Flat (r.around (.assign span x)) := hr.flat_around fun _ ↦ rfl
    simpa [flatten] using ⟨hflatL, hflatR⟩
  · simpa [Revised.new, Build.read] using hy
  rintro bound hbound m v _ m' μ ⟨a, m₁, m₂, ha, hv⟩ rfl hμ
  simp only [hop, hpure] at hv
  obtain ⟨howed, hv⟩ := hv
  have hleft : S.Reaches bound R' (l.around (.assign span x)) μ .next m₂ fun μ' ↦
      (Build.read x span).eval S.key μ' = .ok a :=
    (hl.captureAround ht.1 hR hi).reaches bound hbound m a m₁ m₂ μ ha howed hμ
  refine hleft.append fun μ₁ hμ₁ _ _ hread ↦ ?_
  split at hv
  · next hdecided =>
    obtain ⟨rfl, rfl⟩ := hv
    refine .skip ⟨_, hread, ?_, rfl⟩ hμ₁ hread
    rw [if_pos ((decided_iff_sense hop).2 hdecided)]
  · next hundecided =>
    obtain ⟨b, m₃, hb, howed', hcompute⟩ := hv
    obtain rfl := eq_of_undecided hop hundecided hcompute
    have hright : S.Reaches bound R' (r.around (.assign span x)) μ₁ .next m' fun μ' ↦
        (Build.read x span).eval S.key μ' = .ok v :=
      (hr.captureAround ht.2.1 hR hi).reaches bound hbound m₂ v m₃ m' μ₁ hb howed' hμ₁
    have hnext : S.step (.gotoIf span skip (Build.read x span) (decide (op = .or))) μ₁ .next μ₁ := by
      refine ⟨_, hread, ?_, rfl⟩
      rw [if_neg fun hsense ↦ hundecided ((decided_iff_sense hop).1 hsense)]
    have htest : S.Reaches bound R' [.gotoIf span skip (Build.read x span) (decide (op = .or))] μ₁
        .next m₂ fun μ' ↦ μ' = μ₁ := .statement hnext hμ₁ (.refl bound R' μ₁) rfl
    refine htest.append fun μ₂ _ _ _ heq ↦ ?_
    subst heq
    refine hright.append fun μ₃ hμ₃ _ _ hread' ↦ ?_
    exact .statement step_label hμ₃ (.refl bound R' μ₃) hread'

/-! ### Calls as operands and as statements -/

theorem Returns.isVoid (h : callee.Returns S.key S.types) : callee.returnType.isVoid = false := by
  cases callee with
  | routine r =>
    obtain ⟨slot, -, htyped, htype⟩ := h
    show r.returnType.isVoid = false
    rw [← htype]
    cases slot with
    | slot s =>
      obtain ⟨-, hdefault⟩ := htyped
      show s.type.isVoid = false
      cases hs : s.type <;> simp [hs, Ty.default?] at hdefault <;> rfl
    | component base axis origin => rfl
  | builtin b t => exact h

/-- The counts among the arguments of a call are stored. -/
theorem IsOperands.settles (ho : S.IsOperands es R o) (hes : S.AllTyped es)
    (hpending : Settles S.key (allPending es) m m') (hμ : S.Agrees bound m μ) :
    S.Reaches bound R' o.after μ .next m' fun _ ↦ True := by
  rw [ho.after]
  exact .settle (fun c hc ↦ hes.reads (mem_allReads_of_allPending hc)) hpending hμ

/-- A call that is a statement, between what its arguments run first and what they owe. -/
theorem IsOperands.isCode_call (span : Span) (ho : S.IsOperands es R o)
    (hcan : S.CanCall callee es result) :
    S.IsCode R (o.before ++ .call span callee o.values.node result :: o.after)
      (callee.CallsLate S.key S.calls es result) := by
  rintro bound hbound m m' μ ⟨values, m₁, m₂, hvalues, happlies, hpending⟩ hμ
  refine (ho.reaches bound hbound m values m₁ μ hvalues hμ).append fun μ₁ hμ₁ _ _ hnodes ↦ ?_
  obtain ⟨μ₂, hcalls, hμ₂, hspares⟩ := exists_calls happlies hμ₁ ho hnodes hcan
  have hcall : S.Reaches bound R [.call span callee o.values.node result] μ₁ .next m₂ fun _ ↦ True :=
    .statement ⟨rfl, hcalls⟩ hμ₂ hspares trivial
  exact hcall.append fun μ₃ hμ₃ _ _ _ ↦ ho.settles hcan.typed hpending hμ₃

/-- A call whose result is stored. -/
theorem callsLate_of_storesTo (hneeds : callee.needsStatement = true)
    (h : (Expr.call n callee es).StoresTo S.key S.calls x m m') :
    callee.CallsLate S.key S.calls es (some x) m m' := by
  obtain ⟨v, m₁, m₂, hv, hstore, howed⟩ := h
  simp only [owed, hasty, pending, hneeds, if_true, append_nil] at howed
  cases callee with
  | routine r =>
    obtain ⟨values, m₃, slot, hvalues, hinvokes, hslot, rfl⟩ := hv
    refine ⟨values, m₃, m₂, hvalues, ⟨m₁, hinvokes, ?_⟩, howed⟩
    rw [hslot]
    exact hstore
  | builtin b t =>
    obtain ⟨evaluator, values, hevaluator, hvalues, hv⟩ := hv
    exact ⟨values, m₁, m₂, hvalues, ⟨evaluator, v, hevaluator, hv, hstore⟩, howed⟩

/-- A call that leaves its result in a temporary. -/
theorem isSplit_call (span : Span) (hneeds : callee.needsStatement = true)
    (ht : S.Typed (Expr.call n callee es))
    (horder : callee.TakesInOrder S.key es) (ho : S.IsOperands es R o) (hi : i ∈ R') (hR : R ⊆ R') :
    let x : Variable := .slot (slot S.routine.id i callee.returnType)
    S.IsSplit false (.call n callee es) R' {
      before := o.before ++ .call span callee o.values.node (some x) :: o.after
      value := .new (Build.read x span) } := by
  intro x
  obtain ⟨hes, -, hadmits, hreturns⟩ := ht
  have hheld : S.Held R' (Build.read x span) := .inr ⟨_, _, _, hi, rfl⟩
  have hflat : Flat o.after := by
    rw [ho.after]
    exact flat_counts _
  refine ⟨by simp [pending, hneeds], ?_, fun h ↦ (nomatch h), rfl, fun _ ↦ hheld,
    fun y hy ↦ .inr ⟨i, _, hi, by simpa [Revised.new, Build.read] using hy⟩, ?_⟩
  · simpa [flatten, ho.flat] using hflat
  intro bound hbound m v m₁ m' μ hv hdue hμ
  have hpending : Settles S.key (allPending es) m₁ m' := by
    simpa [due, hasty, hneeds] using hdue
  have hstore (μ : Memory κ) :
      μ.store S.key x v = .ok (Table.insert μ (S.cell i callee.returnType) v) := rfl
  have hhidden : S.Hidden bound (S.cell i callee.returnType) := ⟨i, _, hbound hi, rfl⟩
  obtain ⟨values, m₀, hvalues, hcall⟩ : ∃ values m₀, ProducesAll S.key S.calls es m values m₀ ∧
      ∀ μ₁, S.Agrees bound m₀ μ₁ → evalAll S.key μ₁ o.values.node = .ok values →
        S.Reaches bound R' [.call span callee o.values.node (some x)] μ₁ .next m₁ fun μ₂ ↦
          (Build.read x span).eval S.key μ₂ = .ok v := by
    cases callee with
    | routine r =>
      obtain ⟨values, m₀, slot, hvalues, hinvokes, hslot, rfl⟩ := hv
      refine ⟨values, m₀, hvalues, fun μ₁ hμ₁ hnodes ↦ ?_⟩
      obtain ⟨_, _, μ₂, hpasses, hcalls, hback, hμ₂, (hspares : S.Spares bound R' μ₁ μ₂)⟩ :=
        exists_invokes hinvokes hμ₁ ho hnodes hes hadmits.1 hadmits.2 horder
      obtain ⟨slot', hslot', hslotTyped, -⟩ := hreturns
      obtain rfl : slot' = slot := Option.some.inj (hslot'.symm.trans hslot)
      have hload := hμ₂.load (not_hidden hslotTyped)
      have hkeeps : Keeps S.key (some x) r.returnSlot μ₂
          (Table.insert μ₂ (S.cell i r.returnType) (m₁.load S.key slot')) := by
        rw [hslot]
        show μ₂.store S.key x (μ₂.load S.key slot') = _
        rw [hload]
        exact hstore μ₂
      refine .statement ⟨rfl, _, _, μ₂, hpasses, hcalls, hback, hkeeps⟩ (hμ₂.insert hhidden _)
        (hspares.trans (.insert hi)) ?_
      exact (eval_read rfl).trans (congrArg _ (Memory.load_store_self (hstore μ₂)))
    | builtin b t =>
      obtain ⟨evaluator, values, hevaluator, hvalues, hcompute⟩ := hv
      refine ⟨values, m₁, hvalues, fun μ₁ hμ₁ hnodes ↦ ?_⟩
      refine .statement ⟨rfl, evaluator, values, v, hevaluator, hnodes, hcompute, hstore μ₁⟩
        (hμ₁.insert hhidden v) (.insert hi) ?_
      exact (eval_read rfl).trans (congrArg _ (Memory.load_store_self (hstore μ₁)))
  have hoperands := ho.reaches bound (hR.trans hbound) m values m₀ μ hvalues hμ
  refine (hoperands.mono hR fun _ _ _ _ hQ ↦ hQ).append fun μ₁ hμ₁ _ _ hnodes ↦ ?_
  refine (hcall μ₁ hμ₁ hnodes).append fun μ₂ hμ₂ _ _ hread ↦ ?_
  have hafter : S.Reaches bound ∅ o.after μ₂ .next m' fun _ ↦ True := ho.settles hes hpending hμ₂
  refine hafter.mono (Set.empty_subset R') fun μ₃ _ hspares _ _ ↦ ?_
  exact (hheld.eval hspares (Set.disjoint_empty R') hbound).trans hread

/-- A call of a built-in function that is part of an expression. -/
theorem isSplit_builtin (hneeds : callee.needsStatement = false)
    (hd : (Expr.call n callee es).Derived) (ho : S.IsOperands es R o) :
    S.IsOperand (.call n callee es) R ⟨o.before, .choose o.values.changed
      (.call n callee o.values.node) (Build.call callee o.values.node n.span), o.after⟩ := by
  refine .choose (.call · callee o.values.node) (fun n' ↦ n'.constant = none)
    (fun hc ↦ by rw [ho.same hc]; exact ⟨rfl, hd.1⟩) ⟨_, rfl, rfl⟩ fun n' hn' hsame ↦ ?_
  refine ho.build hsame ⟨hn', ho.derived⟩ (fun m v m' hv ↦ ?_) (by simp [isEager, hneeds])
    (by simp [pending, hneeds]) (by simp [hasty, hneeds])
  cases callee with
  | routine r => cases hneeds
  | builtin b t =>
    obtain ⟨evaluator, values, hevaluator, hvalues, hcompute⟩ := hv
    exact ⟨values, hvalues, fun μ hμ ↦
      (eval_call hn').2 ⟨evaluator, values, hevaluator, hμ, hcompute⟩⟩

/-! ### Every expression has a plan -/

/-- Code that leaves the value of an expression in a variable that the expression mentions. -/
theorem isSplit_read {P : Memory κ → Memory κ → Prop} (hcode : S.IsCode R code P)
    (hflat : Flat code) (hpending : e.pending = []) (hhasty : e.hasty = [])
    (hx : S.Holds x) (htemporary : x.isTemporary = false) (hreads : x ∈ e.reads)
    (he : ∀ m v m', e.Produces S.key S.calls m v m' → P m m' ∧ m'.load S.key x = v) :
    S.IsSplit false e R { before := code, value := .new (Build.read x span) } where
  after := by simp [hpending]
  flat := hflat
  same h := (nomatch h)
  derived := rfl
  stable h := by simp [Revised.new, Build.read, isStable, constant, note,
    read?, htemporary] at h
  reads y hy := by
    simp only [Revised.new, Build.read, reads_read, mem_singleton] at hy
    exact .inl (hy ▸ hreads)
  reaches bound hbound m v m₁ m' μ hv hdue hμ := by
    obtain rfl : m' = m₁ := by simpa [due, hhasty] using hdue
    obtain ⟨hP, hload⟩ := he m v m' hv
    refine (hcode bound hbound m m' μ hP hμ).mono subset_rfl fun μ' hμ' _ _ _ ↦ ?_
    rw [← hload, ← hμ'.load (not_hidden hx)]
    exact eval_read rfl

/-- An expression that is its own value. -/
theorem isSplit_plain (hpure : e.isPure = true) (hd : e.Derived)
    (hstable : e.isStable = true → e.constant.isSome = true)
    (he : ∀ bound m v m' μ, e.Produces S.key S.calls m v m' → S.Agrees bound m μ →
      m' = m ∧ e.eval S.key μ = .ok v) : S.IsOperand e R { value := .same e } := by
  obtain ⟨hfirst, hpending⟩ := (isPure_iff e).1 hpure
  refine ⟨⟨by simp [hpending], flat_nil, fun _ ↦ rfl, hd, fun h ↦ .inl (hstable h),
    fun _ hx ↦ .inl hx, ?_⟩, hfirst.symm, fun _ ↦ rfl⟩
  intro bound _ m v m₁ m' μ hv hdue hμ
  obtain rfl : m' = m₁ := by simpa [due, hasty_eq_nil hfirst] using hdue
  obtain ⟨rfl, hvalue⟩ := he bound m v m' μ hv hμ
  exact .nil hμ hvalue

/-- A count that yields the old value is stored after the variable has been read. -/
theorem isSplit_step {down : Bool} (hx : S.Holds x) (htemporary : x.isTemporary = false)
    : S.IsSplit false (.step n x false down) R
      { value := .new (Build.read x n.span), after := [Extract.step x down n.span] } where
  after := rfl
  flat := flat_nil
  same h := (nomatch h)
  derived := rfl
  stable h := by simp [Revised.new, Build.read, isStable, constant, note,
    read?, htemporary] at h
  reads y hy := .inl (by simpa [Revised.new, Build.read] using hy)
  reaches := by
    rintro bound - m v _ m' μ ⟨rfl, rfl⟩ rfl hμ
    refine .nil hμ ?_
    rw [← hμ.load (not_hidden hx)]
    exact eval_read rfl

/-- Nothing is stored element by element, because no plan is that of a literal list. -/
theorem range?_eq_none (h : Forall₂ S.IsPlan es plans) :
    Extract.Plan.range? callee es plans = none := by
  unfold Extract.Plan.range?
  split
  · next array start _ _ _ values =>
    cases h with
    | cons _ h =>
      cases h with
      | cons _ h =>
        cases h with
        | cons hplan _ =>
          have hitems : values.items? = none := Option.isNone_iff_eq_none.1 hplan.items
          split
          · simp only [hitems]
            split <;> simp_all
          · rfl
  · rfl

theorem filled_callStatement (hplans : Forall₂ S.IsPlan es plans)
    (h : Yields (Extract.Plan.callStatement callee es plans result span) ξ code ξ') :
    code ≠ [] := by
  rw [Extract.Plan.callStatement, range?_eq_none hplans] at h
  obtain ⟨o, ξ₁, -, h⟩ := yields_bind.1 h
  obtain ⟨rfl, -⟩ := yields_pure.1 h
  simp

/-- Only what the arguments run first has labels. -/
theorem IsOperands.labels_call (ho : S.IsOperands es R o) (span : Span) (callee : Callee)
    (result : Option Variable) :
    labels (o.before ++ .call span callee o.values.node result :: o.after) =
      labels o.before := by
  rw [labels_append, labels_cons_of_none rfl, ho.after, labels_counts, append_nil]

theorem makes_callStatement (result : Option Variable) (span : Span)
    (h : Forall₂ S.IsPlan es plans) (hcan : S.CanCall callee es result) :
    S.Makes (Extract.Plan.callStatement callee es plans result span)
      (callee.CallsLate S.key S.calls es result) := by
  intro ξ hξ
  obtain ⟨o, ξ', ho, hprogress, hoperands⟩ := exists_operands hξ h hcan.typed
  refine ⟨_, ξ', ?_, ?_, ?_, hoperands.isCode_call span hcan⟩
  · rw [Extract.Plan.callStatement, range?_eq_none h]
    exact ho.bind rfl
  · rwa [hoperands.labels_call]
  · simp [flatten, hoperands.after, hoperands.flat]

theorem isValue_call (ht : S.Typed (Expr.call n callee es))
    (hd : (Expr.call n callee es).Derived) (horder : callee.TakesInOrder S.key es)
    (h : Forall₂ S.IsPlan es plans) :
    S.IsValue (.call n callee es) (Extract.Plan.callValue n callee plans) := by
  intro ξ hξ
  obtain ⟨o, ξ₁, ho, hprogress, hoperands⟩ := exists_operands hξ h ht.1
  rcases hneeds : callee.needsStatement with - | -
  · refine ⟨_, ξ₁, ?_, ?_, isSplit_builtin hneeds hd hoperands⟩
    · refine ho.bind ?_
      simp only [hneeds]
      exact rfl
    · exact hprogress
  · obtain ⟨ξ', hx, hprogress', hnext⟩ := yields_temporary hprogress.serves callee.returnType
    have hle := hprogress.le
    have hmem : ξ₁.temporaries.next ∈ made ξ ξ' := ⟨hle, by omega⟩
    have hsub : made ξ ξ₁ ⊆ made ξ ξ' := Set.Ico_subset_Ico_right hprogress'.le
    refine ⟨_, ξ', ?_, ?_, isSplit_call n.span hneeds ht horder hoperands hmem hsub, ?_, ?_⟩
    · refine ho.bind ?_
      simp only [hneeds, Returns.isVoid ht.2.2.2]
      exact hx.bind rfl
    · rw [hoperands.labels_call]
      simpa using hprogress.trans hprogress'
    · simp [Split.hasBefore, isEager, hneeds]
    · simp [isPure, hneeds]

theorem isPlan_call (ht : S.Typed (Expr.call n callee es))
    (hd : (Expr.call n callee es).Derived) (horder : callee.TakesInOrder S.key es)
    (h : Forall₂ S.IsPlan es (Extract.exprs es)) :
    S.IsPlan (.call n callee es) (expr (.call n callee es)) := by
  have hvalue := isValue_call ht hd horder h
  have ht' := ht
  obtain ⟨hes, -, hadmits, hreturns⟩ := ht
  refine ⟨rfl, hvalue, fun x span hx ↦ ?_, fun x span ξ code ξ' hcode ↦ ?_,
    makes_callStatement none n.span h
      ⟨hes, hadmits, horder, fun _ hy ↦ (nomatch hy), fun hsome ↦ (nomatch hsome)⟩⟩
  · show S.Makes (if _ then _ else _) _
    split
    · next hneeds =>
      intro ξ hξ
      obtain ⟨code, ξ', hcode, hprogress, hflat, hdoes⟩ := makes_callStatement (some x) span h
        ⟨hes, hadmits, horder, fun y hy ↦ Option.some.inj hy ▸ hx, fun _ ↦ hreturns⟩ ξ hξ
      refine ⟨code, ξ', hcode, hprogress, hflat, fun bound hbound m m' μ hstores hμ ↦ ?_⟩
      have hneeds := (Bool.and_eq_true_iff.1 hneeds).1
      exact hdoes bound hbound m m' μ (callsLate_of_storesTo hneeds hstores) hμ
    · next hneeds =>
      have hneeds : callee.needsStatement = false := by simpa [Returns.isVoid hreturns] using hneeds
      exact hvalue.store ht' (by simp [hasty, hneeds]) span hx
  · have hcode' : Yields (if _ then _ else _) ξ code ξ' := hcode
    split at hcode'
    · exact filled_callStatement h hcode'
    · exact filled_ofValue hcode'

theorem isValue_binary (ht : S.Typed (Expr.binary n op left right))
    (hd : (Expr.binary n op left right).Derived) (hl : S.IsValue left (expr left).value)
    (hr : S.IsValue right (expr right).value) :
    S.IsValue (.binary n op left right) (expr (.binary n op left right)).value := by
  rw [Extract.value_binary]
  intro ξ hξ
  obtain ⟨s, ξ₁, hs, hprogress₁, hsplit, hshows⟩ := hl ξ hξ
  obtain ⟨s', ξ₂, hs', hprogress₂, hsplit', hshows'⟩ := hr ξ₁ hprogress₁.serves
  have hle₁ := hprogress₁.le
  have hle₂ := hprogress₂.le
  have heffects := hsplit'.hasEffects hshows'
  by_cases hshort : (op.isShortCircuit && s'.hasEffects) = true
  · obtain ⟨hop, hright⟩ := Bool.and_eq_true_iff.1 hshort
    have hpure : right.isPure = false := by simpa [heffects] using hright
    obtain ⟨ξ₃, hx, hprogress₃, hnext⟩ := yields_temporary hprogress₂.serves .bool
    obtain ⟨skip, ξ', hskip, hprogress, hnext'⟩ := yields_label hprogress₃.serves
    have hmem : ξ₂.temporaries.next ∈ made ξ ξ' := ⟨by omega, by omega⟩
    have hsub : made ξ ξ₂ ⊆ made ξ ξ' := Set.Ico_subset_Ico_right (by omega)
    have hsplitL := hsplit.mono (Set.Ico_subset_Ico_right hle₂ : made ξ ξ₁ ⊆ made ξ ξ₂)
    have hsplitR := hsplit'.mono (Set.Ico_subset_Ico_left hle₁ : made ξ₁ ξ₂ ⊆ made ξ ξ₂)
    refine ⟨_, ξ', hs.bind (hs'.bind ?_), ?_,
      isSplit_shortCircuit skip n.span hop hpure ht hsplitL hsplitR hmem hsub, ?_, ?_⟩
    · rw [if_pos hshort]
      exact hx.bind (hskip.bind rfl)
    · rw [labels_append, labels_cons_of_none rfl, labels_append,
        hsplit.labels_around fun _ ↦ rfl, hsplit'.labels_around fun _ ↦ rfl]
      exact hprogress₁.trans (hprogress₂.trans (hprogress₃.trans hprogress))
    · simp [Split.hasBefore, isEager, hop, hpure]
    · simp [isPure, hpure]
  · have hall : S.Splits [left, right] ξ.temporaries.next ξ₂.temporaries.next [s, s'] :=
      ⟨s, [s'], _, rfl, hle₁, hsplit, hshows, s', [], _, rfl, hle₂, hsplit', hshows', Nat.le_refl _,
        rfl⟩
    obtain ⟨o, ξ', hgather, hprogress, ho, hlabels⟩ :=
      exists_gather hprogress₂.serves hall ⟨ht.1, ht.2.1, trivial⟩ (Nat.le_refl _)
    rw [Set.Ico_union_Ico_eq_Ico (by omega) hprogress.le] at ho
    have hboth : (op.isShortCircuit && !right.isPure) = false := by simpa [heffects] using hshort
    refine ⟨_, ξ', hs.bind (hs'.bind ?_), ?_, isOperand_binary hd ho hboth⟩
    · rw [if_neg hshort]
      exact hgather.bind rfl
    · rw [show labels (Extract.remade _ o).before = _ from hlabels]
      simpa using (hprogress₁.trans hprogress₂).trans hprogress

mutual

/-- The plan of an expression does what it is for. -/
theorem isPlan {e : Expr} (ht : S.Typed e) (hd : e.Derived)
    (ho : e.Splittable S.key) : S.IsPlan e (expr e) := by
  match e with
  | .literal n value =>
    refine IsValue.isPlan (fun ξ hξ ↦ ⟨_, ξ, rfl, .refl hξ, ?_⟩) ht rfl fun _ _ h ↦ h
    refine isSplit_plain (by simp [isPure]) hd (fun _ ↦ ?_) fun bound m v m' μ hv _ ↦ ?_
    · exact Option.isSome_iff_exists.2 ⟨value, hd⟩
    · obtain ⟨rfl, rfl⟩ := hv
      exact ⟨rfl, eval_of_constant hd⟩
  | .read n x =>
    refine IsValue.isPlan (fun ξ hξ ↦ ⟨_, ξ, rfl, .refl hξ, ?_⟩) ht rfl fun _ _ h ↦ h
    have htemporary : x.isTemporary = false := ho
    refine isSplit_plain (by simp [isPure]) hd (fun hs ↦ ?_) fun bound m v m' μ hv hμ ↦ ?_
    · simpa [isStable, read?, htemporary] using hs
    · obtain ⟨rfl, rfl⟩ := hv
      refine ⟨rfl, ?_⟩
      rw [eval_read hd, hμ.load (not_hidden ht.2)]
  | .unary n op operand =>
    exact (isValue_remade Extract.value_unary (.cons (isPlan ht.1 hd.2 ho) .nil) ⟨ht.1, trivial⟩
      fun _ _ ↦ isOperand_unary hd).isPlan ht rfl fun _ _ h ↦ h
  | .convert n operand =>
    exact (isValue_remade Extract.value_convert (.cons (isPlan ht.1 hd.2 ho) .nil) ⟨ht.1, trivial⟩
      fun _ _ ↦ isOperand_convert hd).isPlan ht rfl fun _ _ h ↦ h
  | .binary n op left right =>
    exact (isValue_binary ht hd (isPlan ht.1 hd.2.1 ho.1).value
      (isPlan ht.2.1 hd.2.2 ho.2).value).isPlan ht rfl fun _ _ h ↦ h
  | .make n x y z =>
    exact (isValue_remade Extract.value_make (.cons (isPlan ht.1 hd.2.1 ho.1)
      (.cons (isPlan ht.2.1 hd.2.2.1 ho.2.1) (.cons (isPlan ht.2.2.1 hd.2.2.2 ho.2.2) .nil)))
      ⟨ht.1, ht.2.1, ht.2.2.1, trivial⟩ fun _ _ ↦ isOperand_make hd).isPlan ht rfl fun _ _ h ↦ h
  | .call n callee arguments => exact isPlan_call ht hd ho.2 (isPlans ht.1 hd.2 ho.1)
  | .step n x yieldsNew down =>
    have htemporary : x.isTemporary = false := ho
    have hstepFlat : Flat [Extract.step x down n.span] := by simp [Extract.step, flatten]
    have hstep {R : Set ℕ} : S.IsCode R [Extract.step x down n.span] fun m m' ↦
        ∃ w, Steps S.key x down m w m' := by
      rintro bound - m m' μ ⟨w, hw⟩ hμ
      exact .step ht.2.1 hw hμ
    have hvalue : S.IsValue (.step n x yieldsNew down)
        (expr (.step n x yieldsNew down)).value := by
      refine fun ξ hξ ↦ ⟨_, ξ, rfl, ?_⟩
      cases yieldsNew with
      | true =>
        refine ⟨.refl hξ, isSplit_read hstep hstepFlat (by simp [pending]) rfl ht.2.1 htemporary
          (by simp) fun m v m' hv ↦ ⟨⟨v, hv⟩, Memory.load_store_self hv.2⟩, ?_, ?_⟩
        · simp [Split.hasBefore, isEager]
        · simp [isPure]
      | false =>
        refine ⟨.refl hξ, isSplit_step ht.2.1 htemporary, ?_, ?_⟩
        · simp [Split.hasBefore, isEager]
        · simp [isPure]
    refine ⟨rfl, hvalue, fun x span hx ↦ hvalue.store ht rfl span hx, fun _ _ _ _ _ ↦ filled_ofValue,
      fun ξ hξ ↦ ⟨_, ξ, rfl, .refl hξ, hstepFlat, ?_⟩⟩
    intro bound hbound m m' μ hacts hμ
    exact hstep bound hbound m m' μ (actsLate_step.1 hacts) hμ
  | .assign n x value =>
    have htemporary : x.isTemporary = false := ho.1
    have htx := ht.2.1
    have hplan := isPlan ht.1 hd.2 ho.2
    have hstore := hplan.store x n.span htx
    have hvalue : S.IsValue (.assign n x value) (expr (.assign n x value)).value := by
      intro ξ hξ
      obtain ⟨code, ξ', hcode, hprogress, hflat, hdoes⟩ := hstore ξ hξ
      have hfilled := hplan.filled x n.span ξ code ξ' hcode
      refine ⟨_, ξ', hcode.bind rfl, hprogress, ?_, ?_, ?_⟩
      · refine isSplit_read hdoes hflat (by simp [pending]) rfl htx htemporary (by simp)
          fun m v m' hv ↦ ?_
        obtain ⟨w, m₁, m₂, hw, hstored, howed, rfl⟩ := hv
        exact ⟨⟨w, m₁, m₂, hw, hstored, howed⟩, rfl⟩
      · simpa [Split.hasBefore, isEager] using hfilled
      · simp [isPure]
    refine ⟨rfl, hvalue, fun x span hx ↦ hvalue.store ht rfl span hx, fun _ _ _ _ _ ↦ filled_ofValue,
      fun ξ hξ ↦ ?_⟩
    obtain ⟨code, ξ', hcode, hprogress, hflat, hdoes⟩ := hstore ξ hξ
    refine ⟨code, ξ', hcode, hprogress, hflat, fun bound hbound m m' μ hacts hμ ↦ ?_⟩
    obtain ⟨v, m₃, ⟨w, m₁, m₂, hw, hstored, howed, -⟩, rfl⟩ := hacts
    exact hdoes bound hbound m m' μ ⟨w, m₁, m₂, hw, hstored, howed⟩ hμ
  | .segment .. | .compound .. | .error _ | .statement .. => simp [Splittable] at ho

theorem isPlans {es : List Expr} (ht : S.AllTyped es)
    (hd : AllDerived es) (ho : AllSplittable S.key es) :
    Forall₂ S.IsPlan es (Extract.exprs es) := by
  match es with
  | [] => exact .nil
  | e :: rest => exact .cons (isPlan ht.1 hd.1 ho.1) (isPlans ht.2 hd.2 ho.2)

end

end Frame

end Wirescript
