import Wirescript.Proofs.Pieces

/-!
# Counts that nothing looks at

A count that is stored late makes no difference as long as nothing looks at the variable in the
meantime. `Expr.Unobserved` says what this takes: operands to the right of the count do not read the
variable, unless something runs first there; the callee of the enclosing call leaves the variable
alone; and the enclosing assignment stores elsewhere. Main statement: evaluation from left to right
then has the same values, and the same effects once all counts have been settled
(`Expr.Evaluates.completes`).

The key is that counts are local. They can be settled in any memory that has the same values in the
cells of the counted variables, and they change no other cell (`Settles.exists_alongside`), so what
happens elsewhere can be put before them (`Settles.exists_later`).
-/

namespace Wirescript

open Wirescript.Expr
open List

variable {callee : Callee} {e : Expr} {arguments rest : List Expr} {parameters : List Variable}
  {result : Option Variable} {v : Value} {x : Variable}

variable {κ : Type} [DecidableEq κ]

/-! ### Settling is local -/

/-- The cell of a variable that is counted. -/
def Counted (key : Slot → κ) (cs : List Count) (k : κ) : Prop := ∃ c ∈ cs, key c.x.root = k

/-- The variables share no cell with the counted ones. -/
def Apart (key : Slot → κ) (cs : List Count) (xs : List Variable) : Prop :=
  ∀ x ∈ xs, ¬ Counted key cs (key x.root)

/-- Every cell holds the same. -/
abbrev Memory.Same (m μ : Memory κ) : Prop := m.Agrees (fun _ ↦ False) μ

section

variable {key : Slot → κ} {calls : Routine → Memory κ → Memory κ → Prop} {hidden : κ → Prop}
  {cs : List Count} {m m' m₁ μ μ' μ₁ μ₂ μ₃ : Memory κ}

omit [DecidableEq κ] in
@[simp] theorem counted_nil (k : κ) : ¬ Counted key [] k := by
  rintro ⟨c, hc, -⟩
  cases hc

omit [DecidableEq κ] in
theorem apart_nil (xs : List Variable) : Apart key [] xs := fun _ _ ↦ counted_nil _

/-- The same is done to two memories, and hidden cells are left alone in both. -/
structure Alongside (hidden : κ → Prop) (m μ m' μ' : Memory κ) : Prop where
  agrees : m'.Agrees hidden μ'
  kept (k : κ) (hk : hidden k) : m'.get? k = m.get? k ∧ μ'.get? k = μ.get? k

theorem Alongside.refl (h : m.Agrees hidden μ) : Alongside hidden m μ m μ :=
  ⟨h, fun _ _ ↦ ⟨rfl, rfl⟩⟩

theorem Alongside.trans (h : Alongside hidden m μ m₁ μ₁) (h' : Alongside hidden m₁ μ₁ m' μ') :
    Alongside hidden m μ m' μ' where
  agrees := h'.agrees
  kept k hk := ⟨(h'.kept k hk).1.trans (h.kept k hk).1, (h'.kept k hk).2.trans (h.kept k hk).2⟩

theorem Alongside.store (hμ : m.Agrees hidden μ) (hx : ¬ hidden (key x.root))
    (h : m.store key x v = .ok m') :
    ∃ μ', μ.store key x v = .ok μ' ∧ Alongside hidden m μ m' μ' := by
  obtain ⟨μ', hstore, hμ', hrest⟩ := hμ.store hx h
  refine ⟨μ', hstore, hμ', fun k hk ↦ ⟨?_, hrest k hk⟩⟩
  exact Memory.get?_store_of_ne h fun heq ↦ hx (heq ▸ hk)

theorem Steps.exists_alongside {down : Bool} {w : Value} (h : Steps key x down m w m')
    (hx : ¬ hidden (key x.root)) (hμ : m.Agrees hidden μ) :
    ∃ μ', Steps key x down μ w μ' ∧ Alongside hidden m μ m' μ' := by
  obtain ⟨hw, hstore⟩ := h
  obtain ⟨μ', hstore', halong⟩ := Alongside.store hμ hx hstore
  exact ⟨μ', ⟨by rwa [hμ.load hx], hstore'⟩, halong⟩

/-- Counts can be settled in every memory that agrees on the counted variables. -/
theorem Settles.exists_alongside (h : Settles key cs m m')
    (hcs : ∀ c ∈ cs, ¬ hidden (key c.x.root)) (hμ : m.Agrees hidden μ) :
    ∃ μ', Settles key cs μ μ' ∧ Alongside hidden m μ m' μ' := by
  induction cs generalizing m μ with
  | nil =>
    obtain rfl : m' = m := h
    exact ⟨μ, rfl, .refl hμ⟩
  | cons c rest ih =>
    obtain ⟨w, m₁, hstep, hrest⟩ := h
    obtain ⟨hc, hcs⟩ := forall_mem_cons.1 hcs
    obtain ⟨μ₁, hstep', halong₁⟩ := hstep.exists_alongside hc hμ
    obtain ⟨μ', hrest', halong⟩ := ih hrest hcs halong₁.agrees
    exact ⟨μ', ⟨w, μ₁, hstep', hrest'⟩, halong₁.trans halong⟩

/-- Only the counted variables change. -/
theorem Settles.agrees (h : Settles key cs m m') : m.Agrees (Counted key cs) m' := by
  have hsame : m.Agrees (fun k ↦ ¬ Counted key cs k) m := .refl _ m
  obtain ⟨_, -, halong⟩ := h.exists_alongside (fun c hc hnot ↦ hnot ⟨c, hc, rfl⟩) hsame
  exact fun k hk ↦ (halong.kept k hk).1

/-- Where counts are owed, the counted variables differ. -/
theorem Settles.owing (h : Settles key cs μ₁ μ₂) (hm : m.Same μ₂) : m.Agrees (Counted key cs) μ₁ :=
  fun k hk ↦ (h.agrees k hk).symm.trans (hm k id)

/-- What leaves the counted variables alone can be done before they are settled: from `μ₁` to `μ₃`
instead of from `m`, where all is settled, to `m'`. -/
theorem Settles.exists_later (h : Settles key cs μ₁ μ₂) (hm : m.Same μ₂)
    (halong : Alongside (Counted key cs) m μ₁ m' μ₃) : ∃ μ', Settles key cs μ₃ μ' ∧ m'.Same μ' := by
  have hμ₃ : μ₁.Agrees (fun k ↦ ¬ Counted key cs k) μ₃ :=
    fun k hk ↦ (halong.kept k (not_not.1 hk)).2
  obtain ⟨μ', hsettles, hlate⟩ := h.exists_alongside (fun c hc hnot ↦ hnot ⟨c, hc, rfl⟩) hμ₃
  refine ⟨μ', hsettles, fun k _ ↦ ?_⟩
  by_cases hk : Counted key cs k
  · calc
      μ'.get? k = μ₂.get? k := hlate.agrees k (not_not.2 hk)
      _ = m.get? k := hm k id
      _ = m'.get? k := (halong.kept k hk).1.symm
  · rw [(hlate.kept k hk).2, halong.agrees k hk]

/-! ### Expressions that run nothing first -/

/-- Values that are produced without changing anything are produced in the other memory, too. -/
theorem Expr.ProducesAll.congr_cons (hfirst : e.isEager = false) (hrests : anyEager rest = false)
    (he : ∀ v m', e.Produces key calls m v m' → m' = m ∧ e.Produces key calls μ v μ)
    (hrest : ∀ values m', ProducesAll key calls rest m values m' →
      m' = m ∧ ProducesAll key calls rest μ values μ) (values : List Value) (m' : Memory κ)
    (h : ProducesAll key calls (e :: rest) m values m') :
    m' = m ∧ ProducesAll key calls (e :: rest) μ values μ := by
  have hdue : e.due (anyEager rest) = [] := by
    rw [hrests, due, if_neg Bool.false_ne_true, hasty_eq_nil hfirst]
  obtain ⟨v, m₁, m₂, others, hv, hsettles, hothers, rfl⟩ := h
  rw [hdue] at hsettles
  subst hsettles
  obtain ⟨rfl, hv'⟩ := he v m₂ hv
  obtain ⟨rfl, hothers'⟩ := hrest others m' hothers
  exact ⟨rfl, v, μ, μ, others, hv', by rw [hdue]; rfl, hothers', rfl⟩

theorem Expr.ProducesAll.congr_nil (values : List Value) (m' : Memory κ)
    (h : ProducesAll key calls [] m values m') :
    m' = m ∧ ProducesAll key calls [] μ values μ := by
  obtain ⟨rfl, rfl⟩ := h
  exact ⟨rfl, rfl, rfl⟩

mutual

/-- An expression that runs nothing first changes nothing, and its value depends on what it reads. -/
theorem Expr.Produces.congr {e : Expr} (hfirst : e.isEager = false)
    (hreads : ∀ x ∈ e.reads, ¬ hidden (key x.root)) (hμ : m.Agrees hidden μ) (v : Value)
    (m' : Memory κ) (h : e.Produces key calls m v m') : m' = m ∧ e.Produces key calls μ v μ := by
  match e with
  | .literal n value =>
    obtain ⟨rfl, rfl⟩ := h
    exact ⟨rfl, rfl, rfl⟩
  | .read n x =>
    obtain ⟨rfl, rfl⟩ := h
    exact ⟨rfl, (hμ.load (hreads x (by simp))).symm, rfl⟩
  | .unary n op operand | .convert n operand =>
    rw [isEager] at hfirst
    obtain ⟨a, m₁, ha, hhasty, hcompute⟩ := h
    rw [hasty_eq_nil hfirst] at hhasty
    obtain ⟨rfl, ha'⟩ := Produces.congr hfirst hreads hμ a m₁ ha
    exact ⟨hhasty, a, μ, ha', by rw [hasty_eq_nil hfirst]; rfl, hcompute⟩
  | .binary n op left right =>
    simp only [isEager, Bool.or_eq_false_iff] at hfirst
    obtain ⟨hshort, hleft, hright⟩ := hfirst
    simp only [reads_binary, mem_append] at hreads
    obtain ⟨a, b, hvalues, hcompute⟩ := (produces_binary hshort).1 h
    obtain ⟨rfl, hvalues'⟩ := ProducesAll.congr_cons hleft (by simp [anyEager, hright])
      (Produces.congr hleft (fun x hx ↦ hreads x (.inl hx)) hμ)
      (ProducesAll.congr_cons hright rfl
        (Produces.congr hright (fun x hx ↦ hreads x (.inr hx)) hμ) ProducesAll.congr_nil)
      [a, b] m' hvalues
    exact ⟨rfl, (produces_binary hshort).2 ⟨a, b, hvalues', hcompute⟩⟩
  | .make n x y z =>
    simp only [isEager, Bool.or_eq_false_iff] at hfirst
    obtain ⟨hx, hy, hz⟩ := hfirst
    simp only [reads_make, mem_append] at hreads
    obtain ⟨a, b, c, hvalues, hv⟩ := produces_make.1 h
    obtain ⟨rfl, hvalues'⟩ := ProducesAll.congr_cons hx (by simp [anyEager, hy, hz])
      (Produces.congr hx (fun w hw ↦ hreads w (.inl (.inl hw))) hμ)
      (ProducesAll.congr_cons hy (by simp [anyEager, hz])
        (Produces.congr hy (fun w hw ↦ hreads w (.inl (.inr hw))) hμ)
        (ProducesAll.congr_cons hz rfl
          (Produces.congr hz (fun w hw ↦ hreads w (.inr hw)) hμ) ProducesAll.congr_nil))
      [a, b, c] m' hvalues
    exact ⟨rfl, produces_make.2 ⟨a, b, c, hvalues', hv⟩⟩
  | .call n (.routine r) arguments => simp [isEager, Callee.needsStatement] at hfirst
  | .call n (.builtin b t) arguments =>
    rw [isEager, Bool.or_eq_false_iff] at hfirst
    obtain ⟨evaluator, values, hevaluator, hvalues, hv⟩ := h
    obtain ⟨rfl, hvalues'⟩ := ProducesAll.congr hfirst.2 hreads hμ values m' hvalues
    exact ⟨rfl, evaluator, values, hevaluator, hvalues', hv⟩
  | .step n x yieldsNew down =>
    subst hfirst
    obtain ⟨rfl, rfl⟩ := h
    exact ⟨rfl, (hμ.load (hreads x (by simp))).symm, rfl⟩
  | .assign .. => simp [isEager] at hfirst
  | .segment .. | .compound .. | .error _ | .statement .. => exact h.elim

theorem Expr.ProducesAll.congr {es : List Expr} (hfirst : anyEager es = false)
    (hreads : ∀ x ∈ allReads es, ¬ hidden (key x.root)) (hμ : m.Agrees hidden μ)
    (values : List Value) (m' : Memory κ) (h : ProducesAll key calls es m values m') :
    m' = m ∧ ProducesAll key calls es μ values μ := by
  match es with
  | [] => exact ProducesAll.congr_nil values m' h
  | e :: rest =>
    rw [anyEager, Bool.or_eq_false_iff] at hfirst
    simp only [allReads_cons, mem_append] at hreads
    exact ProducesAll.congr_cons hfirst.1 hfirst.2
      (Produces.congr hfirst.1 (fun x hx ↦ hreads x (.inl hx)) hμ)
      (ProducesAll.congr hfirst.2 (fun x hx ↦ hreads x (.inr hx)) hμ) values m' h

end

/-! ### One expression after the other -/

/-- The values are produced, and then all counts are settled. -/
def Expr.CompletesAll (key : Slot → κ) (calls : Routine → Memory κ → Memory κ → Prop)
    (es : List Expr) (m : Memory κ) (values : List Value) (m' : Memory κ) : Prop :=
  ∃ m₁, ProducesAll key calls es m values m₁ ∧ Settles key (allPending es) m₁ m'

theorem Expr.completesAll_nil (m : Memory κ) : CompletesAll key calls [] m [] m :=
  ⟨m, ⟨rfl, rfl⟩, rfl⟩

/-- An expression may owe its counts until those after it are there, if those do not read what is
counted. -/
theorem Expr.Completes.cons {others : List Value} (h : e.Completes key calls m v m₁)
    (hrest : CompletesAll key calls rest m₁ others m')
    (hapart : anyEager rest = false → Apart key e.pending (allReads rest)) :
    CompletesAll key calls (e :: rest) m (v :: others) m' := by
  obtain ⟨m₂, hv, howed⟩ := h
  obtain ⟨m₃, hothers, hpending⟩ := hrest
  rcases hfirst : anyEager rest with - | -
  · obtain ⟨m₄, hhasty, hlater⟩ := settles_append.1 howed
    have hagrees : m₁.Agrees (Counted key e.pending) m₄ := fun k hk ↦ (hlater.agrees k hk).symm
    obtain ⟨rfl, hothers'⟩ :=
      ProducesAll.congr hfirst (hapart hfirst) hagrees others m₃ hothers
    refine ⟨m₄, ⟨v, m₂, m₄, others, hv, ?_, hothers', rfl⟩, ?_⟩
    · rwa [hfirst]
    · rw [allPending, hfirst]
      exact settles_append.2 ⟨m₃, hlater, hpending⟩
  · refine ⟨m₃, ⟨v, m₂, m₁, others, hv, ?_, hothers, rfl⟩, ?_⟩
    · rwa [hfirst]
    · rwa [allPending, hfirst]

/-- An operand that nothing follows. -/
theorem Expr.Completes.single (h : e.Completes key calls m v m') :
    CompletesAll key calls [e] m [v] m' :=
  h.cons (completesAll_nil m') fun _ ↦ fun _ hx ↦ (nomatch hx)

/-- A node that is computed from the values of its parts. -/
theorem Expr.CompletesAll.node {es : List Expr} {values : List Value}
    (h : CompletesAll key calls es m values m') (howed : e.owed = allPending es)
    (hproduces : ∀ m₁, ProducesAll key calls es m values m₁ → e.Produces key calls m v m₁) :
    e.Completes key calls m v m' := by
  obtain ⟨m₁, hvalues, hpending⟩ := h
  exact ⟨m₁, hproduces m₁ hvalues, by rwa [howed]⟩

end

/-! ### Calls that leave variables alone -/

/-- A call of the routine neither looks at the counted variables nor changes them. -/
structure Routine.LeavesAlone (S : Frame κ) (r : Routine) (arguments : List Expr) (cs : List Count) :
    Prop where
  parameters : Apart S.key cs r.parameters
  result : Apart S.key cs r.returnSlot.toList
  references (p : Variable) (a : Expr) (hp : (p, a) ∈ r.parameters.zip arguments)
    (href : p.modifiers.byReference = true) : Apart S.key cs a.read?.toList
  kept (m m' : Memory κ) (h : S.calls r m m') (k : κ) (hk : Counted S.key cs k) :
    m'.get? k = m.get? k
  blind (m m' μ : Memory κ) (h : S.calls r m m') (hμ : m.Agrees (Counted S.key cs) μ) :
    ∃ μ', S.calls r μ μ' ∧ m'.Agrees (Counted S.key cs) μ'

/-- A built-in function looks at its arguments only. -/
def Callee.LeavesAlone (S : Frame κ) (callee : Callee) (arguments : List Expr) (cs : List Count) :
    Prop :=
  ∀ r, callee = .routine r → r.LeavesAlone S arguments cs

section

variable {S : Frame κ} {hidden : κ → Prop} {cs : List Count} {values : List Value}
  {m m' μ : Memory κ} {r : Routine}

theorem Receives.exists_alongside {key : Slot → κ} {entries : List (Variable × Value)}
    (h : Receives key entries m m') (hparameters : ∀ e ∈ entries, ¬ hidden (key e.1.root))
    (hμ : m.Agrees hidden μ) : ∃ μ', Receives key entries μ μ' ∧ Alongside hidden m μ m' μ' := by
  induction entries generalizing m μ with
  | nil =>
    obtain rfl : m' = m := h
    exact ⟨μ, rfl, .refl hμ⟩
  | cons e entries ih =>
    obtain ⟨m₁, hfirst, hrest⟩ := h
    obtain ⟨hp, hparameters⟩ := forall_mem_cons.1 hparameters
    by_cases hout : e.1.modifiers.out = true
    · rw [if_pos hout] at hfirst
      subst hfirst
      obtain ⟨μ', hrest', halong⟩ := ih hrest hparameters hμ
      exact ⟨μ', ⟨μ, by rw [if_pos hout], hrest'⟩, halong⟩
    · rw [if_neg hout] at hfirst
      obtain ⟨μ₁, hstore, halong₁⟩ := Alongside.store hμ hp hfirst
      obtain ⟨μ', hrest', halong⟩ := ih hrest hparameters halong₁.agrees
      exact ⟨μ', ⟨μ₁, by rwa [if_neg hout], hrest'⟩, halong₁.trans halong⟩

theorem PassesBack.exists_alongside {key : Slot → κ} {entries : List (Variable × Expr)}
    (h : PassesBack key entries m m') (hentries : ∀ e ∈ entries, ¬ hidden (key e.1.root) ∧
      (e.1.modifiers.byReference = true → ∀ x ∈ e.2.read?.toList, ¬ hidden (key x.root)))
    (hμ : m.Agrees hidden μ) : ∃ μ', PassesBack key entries μ μ' ∧ Alongside hidden m μ m' μ' := by
  induction entries generalizing m μ with
  | nil =>
    obtain rfl : m' = m := h
    exact ⟨μ, rfl, .refl hμ⟩
  | cons e entries ih =>
    obtain ⟨m₁, hfirst, hrest⟩ := h
    obtain ⟨⟨hp, hreference⟩, hentries⟩ := forall_mem_cons.1 hentries
    by_cases href : e.1.modifiers.byReference = true
    · rw [if_pos href] at hfirst
      obtain ⟨x, hx, hstore⟩ := hfirst
      obtain ⟨μ₁, hstore', halong₁⟩ := Alongside.store hμ (hreference href x (by simp [hx])) hstore
      obtain ⟨μ', hrest', halong⟩ := ih hrest hentries halong₁.agrees
      refine ⟨μ', ⟨μ₁, ?_, hrest'⟩, halong₁.trans halong⟩
      rw [if_pos href, hμ.load hp]
      exact ⟨x, hx, hstore'⟩
    · rw [if_neg href] at hfirst
      subst hfirst
      obtain ⟨μ', hrest', halong⟩ := ih hrest hentries hμ
      exact ⟨μ', ⟨μ, by rw [if_neg href], hrest'⟩, halong⟩

/-- A call can be made while counts are owed that it leaves alone. -/
theorem Invokes.exists_alongside (h : Invokes S.key S.calls r arguments values m m')
    (hleaves : r.LeavesAlone S arguments cs) (hμ : m.Agrees (Counted S.key cs) μ) :
    ∃ μ', Invokes S.key S.calls r arguments values μ μ' ∧
      Alongside (Counted S.key cs) m μ m' μ' := by
  obtain ⟨m₁, m₂, hreceives, hcalls, hback⟩ := h
  obtain ⟨μ₁, hreceives', halong₁⟩ := hreceives.exists_alongside
    (fun e he ↦ hleaves.parameters e.1 (of_mem_zip he).1) hμ
  obtain ⟨μ₂, hcalls', hμ₂⟩ := hleaves.blind m₁ m₂ μ₁ hcalls halong₁.agrees
  have halong₂ : Alongside (Counted S.key cs) m₁ μ₁ m₂ μ₂ :=
    ⟨hμ₂, fun k hk ↦ ⟨hleaves.kept m₁ m₂ hcalls k hk, hleaves.kept μ₁ μ₂ hcalls' k hk⟩⟩
  obtain ⟨μ', hback', halong₃⟩ := hback.exists_alongside (fun e he ↦
    ⟨hleaves.parameters e.1 (of_mem_zip he).1, hleaves.references e.1 e.2 he⟩) hμ₂
  exact ⟨μ', ⟨μ₁, μ₂, hreceives', hcalls', hback'⟩, (halong₁.trans halong₂).trans halong₃⟩

theorem Callee.Applies.exists_alongside
    (h : callee.Applies S.key S.calls arguments values result m m')
    (hleaves : callee.LeavesAlone S arguments cs) (hresult : Apart S.key cs result.toList)
    (hμ : m.Agrees (Counted S.key cs) μ) :
    ∃ μ', callee.Applies S.key S.calls arguments values result μ μ' ∧
      Alongside (Counted S.key cs) m μ m' μ' := by
  cases callee with
  | routine r =>
    obtain ⟨m₁, hinvokes, hkeeps⟩ := h
    obtain ⟨μ₁, hinvokes', halong₁⟩ := hinvokes.exists_alongside (hleaves r rfl) hμ
    match result, hslot : r.returnSlot with
    | none, _ | some _, none =>
      rw [hslot] at hkeeps
      obtain rfl : m' = m₁ := hkeeps
      exact ⟨μ₁, ⟨μ₁, hinvokes', by rw [hslot]; rfl⟩, halong₁⟩
    | some x, some slot =>
      rw [hslot] at hkeeps
      obtain ⟨μ', hstore, halong⟩ := Alongside.store halong₁.agrees (hresult x (by simp)) hkeeps
      refine ⟨μ', ⟨μ₁, hinvokes', ?_⟩, halong₁.trans halong⟩
      rw [hslot]
      show μ₁.store S.key x (μ₁.load S.key slot) = .ok μ'
      rwa [halong₁.agrees.load ((hleaves r rfl).result slot (by simp [hslot]))]
  | builtin b t =>
    obtain ⟨evaluator, value, hevaluator, hcompute, h⟩ := h
    cases result with
    | none =>
      obtain rfl : m' = m := h
      exact ⟨μ, ⟨evaluator, value, hevaluator, hcompute, rfl⟩, .refl hμ⟩
    | some x =>
      obtain ⟨μ', hstore, halong⟩ := Alongside.store hμ (hresult x (by simp)) h
      exact ⟨μ', ⟨evaluator, value, hevaluator, hcompute, hstore⟩, halong⟩

end

/-! ### Unobserved counts -/

section

variable (S : Frame κ)

mutual

/-- Nothing looks at a variable that is counted until the count is stored. -/
def Expr.Unobserved : Expr → Prop
  | .unary _ _ operand | .convert _ operand => operand.Unobserved
  | .binary _ op left right =>
    left.Unobserved ∧ right.Unobserved ∧
      ((op.isShortCircuit && !right.isPure) = false → right.isEager = false →
        Apart S.key left.pending right.reads)
  | .make _ x y z =>
    x.Unobserved ∧ y.Unobserved ∧ z.Unobserved ∧
      ((y.isEager || z.isEager) = false → Apart S.key x.pending (y.reads ++ z.reads)) ∧
      (z.isEager = false → Apart S.key y.pending z.reads)
  | .call _ callee arguments =>
    AllUnobserved arguments ∧ callee.LeavesAlone S arguments (allPending arguments)
  | .assign _ x value => value.Unobserved ∧ Apart S.key value.owed [x]
  | _ => True

@[inherit_doc Expr.Unobserved]
def Expr.AllUnobserved : List Expr → Prop
  | [] => True
  | e :: rest =>
    e.Unobserved ∧ AllUnobserved rest ∧
      (anyEager rest = false → Apart S.key e.pending (allReads rest))

end

/-- Nothing looks at a variable that the statement counts until the count is stored. -/
def Stmt.Unobserved : Stmt → Prop
  | .define _ _ x value | .assign _ x value => value.Unobserved S ∧ Apart S.key value.owed [x]
  | .gotoIf _ _ value _ | .retValue _ value | .expression _ value => value.Unobserved S
  | .call _ callee arguments result =>
    AllUnobserved S arguments ∧
      callee.LeavesAlone S arguments (allPending arguments) ∧
      Apart S.key (allPending arguments) result.toList
  | _ => True

end

section

variable {S : Frame κ}

mutual

/-- If nothing looks at what is counted, then an expression has the same value when counts are stored
late, and the same effects once they are stored. -/
theorem Expr.Evaluates.completes {e : Expr} {v : Value} {m m' μ : Memory κ}
    (he : e.WellTyped S.key S.types S.callable) (hu : e.Unobserved S)
    (h : e.Evaluates S.key S.calls m v m') (hm : m.Typed S.types) (hμ : m.Same μ) :
    ∃ μ', e.Completes S.key S.calls μ v μ' ∧ m'.Same μ' := by
  match e with
  | .literal n value =>
    obtain ⟨rfl, rfl⟩ := h
    exact ⟨μ, ⟨μ, ⟨rfl, rfl⟩, rfl⟩, hμ⟩
  | .read n x =>
    obtain ⟨rfl, rfl⟩ := h
    exact ⟨μ, ⟨μ, ⟨(hμ.load id).symm, rfl⟩, rfl⟩, hμ⟩
  | .unary n op operand | .convert n operand =>
    obtain ⟨a, ha, hv⟩ := h
    obtain ⟨μ', ⟨μ₁, ha', howed⟩, hμ'⟩ := Evaluates.completes he.1 hu ha hm hμ
    obtain ⟨μ₂, hhasty, hpending⟩ := settles_append.1 howed
    exact ⟨μ', ⟨μ₂, ⟨a, μ₁, ha', hhasty, hv⟩, hpending⟩, hμ'⟩
  | .binary n op left right =>
    obtain ⟨hleft, hright, hapart⟩ := hu
    rcases hshort : op.isShortCircuit && !right.isPure with - | -
    · have hpure (hop : op.isShortCircuit = true) : right.isPure = true := by simpa [hop] using hshort
      obtain ⟨a, b, ⟨_, m₁, _, ha, ⟨_, m₂, _, hb, ⟨rfl, rfl⟩, rfl⟩, heq⟩, hcompute⟩ :=
        Evaluates.operands S.typed he h hm hpure
      obtain ⟨rfl, rfl⟩ : a = _ ∧ b = _ := by simpa using heq
      have hm₁ := (Evaluates.typed S.typed he.1 ha hm).2
      obtain ⟨μ₁, ha', hμ₁⟩ := Evaluates.completes he.1 hleft ha hm hμ
      obtain ⟨μ', hb', hμ'⟩ := Evaluates.completes he.2.1 hright hb hm₁ hμ₁
      have hall := ha'.cons hb'.single fun hfirst ↦ by
        simpa using hapart hshort (by simpa [anyEager] using hfirst)
      refine ⟨μ', hall.node ?_ fun _ hvalues ↦ ?_, hμ'⟩
      · simp [owed, hasty, pending, allPending, anyEager, hshort]
      · exact (produces_binary hshort).2 ⟨a, b, hvalues, hcompute⟩
    · have howed : (Expr.binary n op left right).owed = [] := by
        simp [owed, hasty, pending, hshort]
      obtain ⟨a, m₁, ha, h⟩ := h
      have hm₁ := (Evaluates.typed S.typed he.1 ha hm).2
      obtain ⟨μ₂, ⟨μ₁, ha', hleftOwed⟩, hμ₂⟩ := Evaluates.completes he.1 hleft ha hm hμ
      split at h
      · next hdecided =>
        obtain ⟨rfl, rfl⟩ := h
        refine ⟨μ₂, ⟨μ₂, ⟨v, μ₁, μ₂, ha', ?_⟩, by rw [howed]; rfl⟩, hμ₂⟩
        rw [if_pos hshort, if_pos hdecided]
        exact ⟨hleftOwed, rfl, rfl⟩
      · next hundecided =>
        obtain ⟨b, hb, hcompute⟩ := h
        obtain ⟨μ', ⟨μ₃, hb', hrightOwed⟩, hμ'⟩ := Evaluates.completes he.2.1 hright hb hm₁ hμ₂
        refine ⟨μ', ⟨μ', ⟨a, μ₁, μ₂, ha', ?_⟩, by rw [howed]; rfl⟩, hμ'⟩
        rw [if_pos hshort, if_neg hundecided]
        exact ⟨hleftOwed, b, μ₃, hb', hrightOwed, hcompute⟩
  | .make n x y z =>
    obtain ⟨hx, hy, hz, hapart, hapart'⟩ := hu
    obtain ⟨a, m₁, b, m₂, c, ha, hb, hc, rfl⟩ := h
    have hm₁ := (Evaluates.typed S.typed he.1 ha hm).2
    have hm₂ := (Evaluates.typed S.typed he.2.1 hb hm₁).2
    obtain ⟨μ₁, ha', hμ₁⟩ := Evaluates.completes he.1 hx ha hm hμ
    obtain ⟨μ₂, hb', hμ₂⟩ := Evaluates.completes he.2.1 hy hb hm₁ hμ₁
    obtain ⟨μ', hc', hμ'⟩ := Evaluates.completes he.2.2.1 hz hc hm₂ hμ₂
    have hrest := hb'.cons hc'.single fun hfirst ↦ by
      simpa using hapart' (by simpa [anyEager] using hfirst)
    have hall := ha'.cons hrest fun hfirst ↦ by
      simpa using hapart (by simpa [anyEager] using hfirst)
    refine ⟨μ', hall.node ?_ fun _ hvalues ↦ ?_, hμ'⟩
    · simp [owed, hasty, pending, allPending, anyEager]
    · exact produces_make.2 ⟨a, b, c, hvalues, rfl⟩
  | .call n (.routine r) arguments =>
    obtain ⟨values, m₁, slot, hvalues, hinvokes, hslot, rfl⟩ := h
    have hleaves := hu.2 r rfl
    obtain ⟨μ₂, ⟨μ₁, hvalues', hpending⟩, hμ₂⟩ :=
      EvaluatesAll.completesAll he.1 hu.1 hvalues hm hμ
    obtain ⟨μ₃, hinvokes', halong⟩ := hinvokes.exists_alongside hleaves (hpending.owing hμ₂)
    obtain ⟨μ', hsettles, hμ'⟩ := hpending.exists_later hμ₂ halong
    refine ⟨μ', ⟨μ₃, ⟨values, μ₁, slot, hvalues', hinvokes', hslot, ?_⟩, ?_⟩, hμ'⟩
    · exact (halong.agrees.load (hleaves.result slot (by simp [hslot]))).symm
    · simpa [owed, hasty, pending, Callee.needsStatement] using hsettles
  | .call n (.builtin b t) arguments =>
    obtain ⟨evaluator, values, hevaluator, hvalues, hv⟩ := h
    obtain ⟨μ', hall, hμ'⟩ := EvaluatesAll.completesAll he.1 hu.1 hvalues hm hμ
    refine ⟨μ', hall.node ?_ fun _ hvalues' ↦ ⟨evaluator, values, hevaluator, hvalues', hv⟩, hμ'⟩
    cases hneeds : (Callee.builtin b t).needsStatement <;>
      simp [owed, hasty, pending, hneeds]
  | .step n x yieldsNew down =>
    obtain ⟨w, hstep, hv⟩ := h
    obtain ⟨μ', hstep', ⟨hμ', -⟩⟩ := hstep.exists_alongside id hμ
    cases yieldsNew with
    | true =>
      obtain rfl : v = w := hv
      exact ⟨μ', ⟨μ', hstep', rfl⟩, hμ'⟩
    | false => exact ⟨μ', ⟨μ, ⟨hv.trans (hμ.load id).symm, rfl⟩, w, μ', hstep', rfl⟩, hμ'⟩
  | .assign n x value =>
    obtain ⟨m₁, hv, hstore⟩ := h
    obtain ⟨μ₂, ⟨μ₁, hv', howed⟩, hμ₂⟩ := Evaluates.completes he.1 hu.1 hv hm hμ
    obtain ⟨μ₃, hstore', halong⟩ := Alongside.store (howed.owing hμ₂) (hu.2 x (by simp)) hstore
    obtain ⟨μ', hsettles, hμ'⟩ := howed.exists_later hμ₂ halong
    refine ⟨μ', ⟨μ', ⟨v, μ₁, μ₃, hv', hstore', hsettles, ?_⟩, rfl⟩, hμ'⟩
    rw [hμ'.load id, Memory.load_store_self hstore]
  | .segment .. | .compound .. | .error _ | .statement .. => exact h.elim

@[inherit_doc Evaluates.completes]
theorem Expr.EvaluatesAll.completesAll {es : List Expr} {values : List Value} {m m' μ : Memory κ}
    (hes : S.AllTyped es) (hu : AllUnobserved S es)
    (h : EvaluatesAll S.key S.calls es m values m') (hm : m.Typed S.types) (hμ : m.Same μ) :
    ∃ μ', CompletesAll S.key S.calls es μ values μ' ∧ m'.Same μ' := by
  match es, hes, hu, h with
  | [], _, _, h =>
    obtain ⟨rfl, rfl⟩ := h
    exact ⟨μ, completesAll_nil μ, hμ⟩
  | e :: rest, hes, hu, h =>
    obtain ⟨v, m₁, others, hv, hothers, rfl⟩ := h
    have hm₁ := (Evaluates.typed S.typed hes.1 hv hm).2
    obtain ⟨μ₁, hv', hμ₁⟩ := Evaluates.completes hes.1 hu.1 hv hm hμ
    obtain ⟨μ', hothers', hμ'⟩ := EvaluatesAll.completesAll hes.2 hu.2.1 hothers hm₁ hμ₁
    exact ⟨μ', hv'.cons hothers' hu.2.2, hμ'⟩

end

variable {m m' μ : Memory κ} {s : Stmt} {c : Control}

/-! ### Statements keep memories typed -/

theorem Callee.Calls.typed (h : callee.Calls S.key S.calls arguments result m m')
    (hcallee : callee.Separable S arguments)
    (hresult : ∀ x ∈ result, S.Holds x ∧ x.type = callee.returnType ∧
      callee.Returns S.key S.types) (hm : m.Typed S.types) : m'.Typed S.types := by
  obtain ⟨values, m₁, hvalues, h⟩ := h
  obtain ⟨hvtypes, hm₁⟩ := EvaluatesAll.typed S.typed hcallee.typed hvalues hm
  cases callee with
  | routine r =>
    obtain ⟨m₂, hinvokes, hkeeps⟩ := h
    obtain ⟨hr, hfits⟩ := hcallee.admits
    have hm₂ := Invokes.typed S.typed hinvokes hm₁ hr hfits hcallee.typed hvtypes
    match result, hslot : r.returnSlot with
    | none, _ | some _, none =>
      rw [hslot] at hkeeps
      obtain rfl : m' = m₂ := hkeeps
      exact hm₂
    | some x, some slot =>
      rw [hslot] at hkeeps
      obtain ⟨hx, hxtype, slot', hslot', htyped, htype⟩ := hresult x rfl
      cases hslot'.symm.trans hslot
      have hload := hm₂.load htyped
      exact hm₂.store hx (hload.trans (htype.trans hxtype.symm)) hkeeps
  | builtin b t =>
    obtain ⟨evaluator, value, hevaluator, hcompute, h⟩ := h
    match result with
    | none =>
      obtain rfl : m' = m₁ := h
      exact hm₁
    | some x =>
      obtain ⟨evaluator', hevaluator', hall⟩ := hcallee.admits
      cases hevaluator'.symm.trans hevaluator
      obtain ⟨v, hv, hvtype⟩ := hall values hvtypes
      cases hv.symm.trans hcompute
      obtain ⟨hx, hxtype, -⟩ := hresult x rfl
      exact hm₁.store hx (hvtype.trans hxtype.symm) h

/-- Storing the value of an expression keeps a memory typed. -/
theorem Expr.Separable.store_typed {m₁ : Memory κ} (he : e.Separable S) (hx : S.Holds x)
    (htype : e.type = x.type) (hv : e.Evaluates S.key S.calls m v m₁)
    (hstore : m₁.store S.key x v = .ok m') (hm : m.Typed S.types) : m'.Typed S.types := by
  obtain ⟨hvtype, hm₁⟩ := Evaluates.typed S.typed he.typed hv hm
  exact hm₁.store hx (hvtype.trans htype) hstore

/-! ### Statements and bodies -/

theorem Callee.Calls.callsLate (h : callee.Calls S.key S.calls arguments result m m')
    (harguments : S.AllTyped arguments) (hu : AllUnobserved S arguments)
    (hleaves : callee.LeavesAlone S arguments (allPending arguments))
    (hresult : Apart S.key (allPending arguments) result.toList) (hm : m.Typed S.types)
    (hμ : m.Same μ) : ∃ μ', callee.CallsLate S.key S.calls arguments result μ μ' ∧ m'.Same μ' := by
  obtain ⟨values, m₁, hvalues, happlies⟩ := h
  obtain ⟨μ₂, ⟨μ₁, hvalues', hpending⟩, hμ₂⟩ :=
    EvaluatesAll.completesAll harguments hu hvalues hm hμ
  obtain ⟨μ₃, happlies', halong⟩ := happlies.exists_alongside hleaves hresult (hpending.owing hμ₂)
  obtain ⟨μ', hsettles, hμ'⟩ := hpending.exists_later hμ₂ halong
  exact ⟨μ', ⟨values, μ₁, μ₃, hvalues', happlies', hsettles⟩, hμ'⟩

/-- A value is stored before the counts. -/
theorem Expr.Evaluates.storesTo {m₁ : Memory κ} (h : e.Evaluates S.key S.calls m v m₁)
    (hstore : m₁.store S.key x v = .ok m') (he : S.Typed e)
    (hu : e.Unobserved S) (hx : Apart S.key e.owed [x]) (hm : m.Typed S.types) (hμ : m.Same μ) :
    ∃ μ', e.StoresTo S.key S.calls x μ μ' ∧ m'.Same μ' := by
  obtain ⟨μ₂, ⟨μ₁, hv, howed⟩, hμ₂⟩ := h.completes he hu hm hμ
  obtain ⟨μ₃, hstore', halong⟩ := Alongside.store (howed.owing hμ₂) (hx x (by simp)) hstore
  obtain ⟨μ', hsettles, hμ'⟩ := howed.exists_later hμ₂ halong
  exact ⟨μ', ⟨v, μ₁, μ₃, hv, hstore', hsettles⟩, hμ'⟩

/-- A statement whose counts nothing looks at does the same when they are stored late, and keeps a
memory typed. -/
theorem Stmt.InOrder.inTime (h : s.InOrder S.key S.calls S.routine m c m') (hs : s.Separable S)
    (hu : s.Unobserved S) (hm : m.Typed S.types) (hμ : m.Same μ) : m'.Typed S.types ∧
      ∃ μ', s.InTime S.key S.calls S.routine μ c μ' ∧ m'.Same μ' := by
  match s with
  | .define _ _ x value | .assign _ x value =>
    obtain ⟨rfl, v, m₁, hv, hstore⟩ := h
    obtain ⟨μ', hstores, hμ'⟩ := hv.storesTo hstore hs.2.2.typed hu.1 hu.2 hm hμ
    exact ⟨hs.2.2.store_typed hs.1 hs.2.1 hv hstore hm, μ', ⟨rfl, hstores⟩, hμ'⟩
  | .expression _ e =>
    obtain ⟨rfl, h⟩ := h
    match e with
    | .step _ x _ _ =>
      obtain ⟨v, w, hstep, -⟩ := h
      obtain ⟨μ', hstep', ⟨hμ', -⟩⟩ := hstep.exists_alongside id hμ
      have hstepped := Value.type_of_stepped ((hm.load hs.1).trans hs.2) hstep.1
      exact ⟨hm.store hs.1 (hstepped.trans hs.2.symm) hstep.2, μ',
        ⟨rfl, actsLate_step.2 ⟨w, hstep'⟩⟩, hμ'⟩
    | .call _ callee arguments =>
      obtain ⟨μ', hcalls, hμ'⟩ := Callee.Calls.callsLate h (Callee.Separable.typed hs) hu.1 hu.2
        (fun _ hx ↦ (nomatch hx)) hm hμ
      exact ⟨h.typed hs (fun _ hx ↦ (nomatch hx)) hm, μ', ⟨rfl, hcalls⟩, hμ'⟩
    | .literal .. | .read .. | .unary .. | .binary .. | .make .. | .convert .. | .assign ..
    | .segment .. | .compound .. | .error _ | .statement .. =>
      obtain ⟨v, hv⟩ := h
      obtain ⟨μ', hcompletes, hμ'⟩ := hv.completes (Expr.Separable.typed hs) hu hm hμ
      exact ⟨(Evaluates.typed S.typed (Expr.Separable.typed hs) hv hm).2, μ',
        ⟨rfl, v, hcompletes⟩, hμ'⟩
  | .call _ callee arguments result =>
    obtain ⟨rfl, h⟩ := h
    obtain ⟨μ', hcalls, hμ'⟩ := h.callsLate hs.1.typed hu.1 hu.2.1 hu.2.2 hm hμ
    exact ⟨h.typed hs.1 hs.2 hm, μ', ⟨rfl, hcalls⟩, hμ'⟩
  | .gotoIf _ target condition sense =>
    obtain ⟨v, hv, rfl⟩ := h
    obtain ⟨μ', hcompletes, hμ'⟩ := hv.completes (Expr.Separable.typed hs) hu hm hμ
    exact ⟨(Evaluates.typed S.typed (Expr.Separable.typed hs) hv hm).2, μ',
      ⟨v, hcompletes, rfl⟩, hμ'⟩
  | .retValue _ value =>
    obtain ⟨rfl, v, m₁, hv, h⟩ := h
    obtain ⟨μ₁, hcompletes, hμ₁⟩ := hv.completes hs.1.typed hu hm hμ
    rcases hslot : S.routine.returnSlot with - | slot
    · rw [hslot] at h
      obtain rfl : m' = m₁ := h
      exact ⟨(Evaluates.typed S.typed hs.1.typed hv hm).2, μ₁,
        ⟨rfl, v, μ₁, hcompletes, by rw [hslot]⟩, hμ₁⟩
    · rw [hslot] at h
      obtain ⟨htyped, htype⟩ := hs.2 slot hslot
      obtain ⟨μ', hstore, hμ', -⟩ := hμ₁.store id h
      refine ⟨hs.1.store_typed htyped htype hv h hm, μ', ⟨rfl, v, μ₁, hcompletes, ?_⟩, hμ'⟩
      rw [hslot]
      exact hstore
  | .declare .. | .label .. | .goto .. | .rollback .. | .ret _ | .hint .. | .nop _ =>
    obtain ⟨rfl, rfl⟩ := h
    exact ⟨hm, μ, ⟨rfl, rfl⟩, hμ⟩

/-- So does a body, step by step. -/
theorem Runs.inTime {body rest : List Stmt} {M : Memory κ}
    (hbody : ∀ s ∈ body, s.Separable S ∧ s.Unobserved S)
    (h : Runs (Stmt.InOrder S.key S.calls S.routine) body rest m M) (hrest : rest <:+ body)
    (hm : m.Typed S.types) (hμ : m.Same μ) :
    ∃ M', Runs (Stmt.InTime S.key S.calls S.routine) body rest μ M' ∧ M.Same M' := by
  induction h generalizing μ with
  | done m => exact ⟨μ, .done μ, hμ⟩
  | @next s rest m m₁ M hstep _ ih =>
    obtain ⟨hs, hu⟩ := hbody s (hrest.subset (.head _))
    obtain ⟨hm₁, μ₁, hstep', hμ₁⟩ := hstep.inTime hs hu hm hμ
    obtain ⟨M', hruns, hM'⟩ := ih (List.IsSuffix.trans (suffix_cons s rest) hrest) hm₁ hμ₁
    exact ⟨M', .next hstep' hruns, hM'⟩
  | @stop s rest m m₁ hstep =>
    obtain ⟨hs, hu⟩ := hbody s (hrest.subset (.head _))
    obtain ⟨-, μ₁, hstep', hμ₁⟩ := hstep.inTime hs hu hm hμ
    exact ⟨μ₁, .stop hstep', hμ₁⟩
  | @jump s rest there m m₁ M l hstep hthere _ ih =>
    obtain ⟨hs, hu⟩ := hbody s (hrest.subset (.head _))
    obtain ⟨hm₁, μ₁, hstep', hμ₁⟩ := hstep.inTime hs hu hm hμ
    obtain ⟨M', hruns, hM'⟩ := ih (Stmt.from?_suffix hthere) hm₁ hμ₁
    exact ⟨M', .jump hstep' hthere hruns, hM'⟩

/-- A run of a body that evaluates expressions from left to right is a run of the extracted body, up
to temporaries, if nothing looks at what is counted before it is stored. -/
theorem Extracted.exists_runs_of_unobserved {body : Stmt}
    (hbody : ∀ s ∈ body.flatten, s.Separable S)
    (hskip : ∀ l ∈ Stmt.labels body.flatten, ¬ S.Skip l) :
    ∃ x, extract S.routine body = .ok x ∧ ∀ m M,
      (Runs (Stmt.InTime S.key S.calls S.routine) body.flatten body.flatten m M ∨
        (∀ s ∈ body.flatten, s.Unobserved S) ∧ m.Typed S.types ∧
          Runs (Stmt.InOrder S.key S.calls S.routine) body.flatten body.flatten m M) →
        ∃ M', M.Agrees (S.Hidden x.temporaries) M' ∧
          Runs S.step x.body.flatten x.body.flatten m M' := by
  obtain ⟨x, hx, hruns⟩ := Extracted.exists_runs_inTime hbody hskip
  refine ⟨x, hx, fun m M h ↦ ?_⟩
  rcases h with h | ⟨hu, hm, h⟩
  · exact hruns m M h
  · obtain ⟨M₁, hlate, hM₁⟩ := h.inTime (fun s hs ↦ ⟨hbody s hs, hu s hs⟩) (suffix_refl _) hm
      (.refl _ m)
    obtain ⟨M', hM', hextracted⟩ := hruns m M₁ hlate
    exact ⟨M', fun k hk ↦ (hM' k hk).trans (hM₁ k id), hextracted⟩

/-- The machine runs the extracted body of the routine from the memory `m`, unless it is stopped for
having taken too many steps, and leaves what `M` holds in all cells but those of temporaries. -/
def Frame.Ends (S : Frame κ) (bodies : Bodies) (x : Extracted) (m M : Memory κ) : Prop :=
  ∃ least, ∀ limit ≥ least, ∃ M' steps,
    (Exec.invoke S.key limit bodies (limit + 1) S.routine).run { memory := m } =
      (.ok (), { memory := M', steps := steps }) ∧
    ∀ k, (∀ n < x.temporaries, ∀ t, k ≠ S.key (Extract.slot S.routine.id n t)) →
      M'.get? k = M.get? k

theorem Runs.ends {x : Extracted} {M M' : Memory κ} {bodies : Bodies}
    (h : Runs S.step x.body.flatten x.body.flatten m M') (hM' : M.Agrees (S.Hidden x.temporaries) M')
    (hbodies : bodies.get? S.routine = some x.body)
    (hcalls : ∀ r m m', S.calls r m m' → ∃ depth, Performs S.key bodies depth r m m') :
    S.Ends bodies x m M := by
  obtain ⟨count, hloop⟩ := h.exists_loop fun r m m' hcall ↦ by
    obtain ⟨depth, hperforms⟩ := hcalls r m m' hcall
    exact hperforms.takes
  refine ⟨count, fun limit hlimit ↦ ⟨M', 0 + count, ?_, fun k hk ↦ hM' k ?_⟩⟩
  · rw [Exec.invoke]
    simp only [hbodies]
    exact hloop limit limit (limit + 1) 0 (by omega) (by omega) hlimit
  · rintro ⟨n, t, hn, hkn⟩
    exact hk n hn t hkn

end

end Wirescript
