import Mathlib.Data.Set.Lattice
import Mathlib.Order.CompletePartialOrder
import Mathlib.Order.Interval.Set.LinearOrder
import Wirescript.Proofs.Deferred
import Wirescript.Proofs.Vocabulary

/-!
# Extraction keeps the order of effects

Extraction turns an expression into statements that run before it, a value without effects and the
counts that are stored after it. The statements use two kinds of things that the body does not have:
temporaries, whose cells are hidden when memories are compared, and labels to skip to. `Frame.Reaches`
says what the statements of one expression do, wherever they stand: from every memory that agrees with
the one the expression is evaluated in, up to hidden cells, control gets past them to a memory that
agrees with the one after the evaluation, and of the temporaries only those of a set have changed.

The heart of the matter is which operands are read ahead. A value that is kept aside is a constant
or sits in a temporary of its own (`Frame.Held`), so the effects of later operands leave it as it
is; an operand that is not kept aside is followed by nothing that runs first.
-/

namespace Wirescript

open Extract (slot ahead)
open Wirescript.Expr
open Stmt
open List hiding flatten

variable {use : Expr → Stmt} {n : Nat} {span span' : Span} {t : Ty} {v : Value} {x : Variable}

/-- The statement that stores a count. -/
def Count.code (c : Count) : Stmt := Extract.step c.x c.down c.span

/-- Statements that store counts have no labels. -/
@[simp] theorem labels_counts (cs : List Count) : labels (cs.map Count.code) = [] := by
  induction cs with
  | nil => rfl
  | cons c rest ih => exact (labels_cons_of_none (s := c.code) rfl _).trans ih

@[simp] theorem flat_counts (cs : List Count) : Flat (cs.map Count.code) := by
  induction cs with
  | nil => exact flat_nil
  | cons c rest ih => exact flat_cons.2 ⟨rfl, ih⟩

/-! ### The frame of an extraction -/

/-- What a body runs in: where cells are found and which values they hold, the routine that the body
belongs to, and what the calls in it do. Each temporary has a cell of its own, which no variable of
the body is in. The routines that may be called keep memories typed, look at no temporary and change
none. -/
structure Frame (κ : Type) [DecidableEq κ] where
  key : Slot → κ
  types : κ → Option Ty
  routine : Routine
  calls : Routine → Memory κ → Memory κ → Prop
  callable : Routine → Prop
  distinct (n n' : Nat) (t t' : Ty)
    (h : key (slot routine.id n t) = key (slot routine.id n' t')) : n = n'
  untyped (n : Nat) (t : Ty) : types (key (slot routine.id n t)) = none
  typed : CallsTyped types callable calls
  unaware (hidden : κ → Prop)
    (hhidden : ∀ k, hidden k → ∃ n t, k = key (slot routine.id n t)) (r : Routine)
    (hr : callable r) (m m' μ : Memory κ) (h : calls r m m') (hμ : m.Agrees hidden μ) :
    ∃ μ', calls r μ μ' ∧ m'.Agrees hidden μ' ∧ ∀ k, hidden k → μ'.get? k = μ.get? k

namespace Frame

variable {κ : Type} [DecidableEq κ] (S : Frame κ)

/-- The cell of a temporary. -/
def cell (n : Nat) (t : Ty) : κ := S.key (slot S.routine.id n t)

/-- The cells of the first temporaries. -/
def Hidden (bound : Nat) (k : κ) : Prop := ∃ n t, n < bound ∧ k = S.cell n t

/-- The memories hold the same, but for the first temporaries. -/
abbrev Agrees (bound : Nat) (m μ : Memory κ) : Prop := m.Agrees (S.Hidden bound) μ

/-- The variable has a cell of its type. -/
abbrev Holds (x : Variable) : Prop := x.Typed S.key S.types

abbrev Typed (e : Expr) : Prop := e.WellTyped S.key S.types S.callable

abbrev AllTyped (es : List Expr) : Prop := AllWellTyped S.key S.types S.callable es

/-- One statement of the extracted body. -/
abbrev step : Stmt → Memory κ → Control → Memory κ → Prop :=
  Step S.key S.calls S.routine

/-- Of the first temporaries all but those of a set are left alone. -/
def Spares (bound : Nat) (R : Set ℕ) (μ μ' : Memory κ) : Prop :=
  ∀ n t, n < bound → n ∉ R → μ'.get? (S.cell n t) = μ.get? (S.cell n t)

/-- Where a run goes on after a piece of code. -/
def Continues (whole rest : List Stmt) (c : Control) (μ M : Memory κ) : Prop :=
  match c with
  | .next => Runs S.step whole rest μ M
  | .stop => M = μ
  | .jump l => ∃ there, from? l whole = some there ∧ Runs S.step whole there μ M

/-- Wherever the code stands, control gets from its start to `c`, in a memory that agrees with `m'`.
Labels that the code defines are defined once. -/
def Reaches (bound : Nat) (R : Set ℕ) (code : List Stmt) (μ : Memory κ) (c : Control)
    (m' : Memory κ) (Q : Memory κ → Prop) : Prop :=
  ∀ whole rest, (code ++ rest) <:+ whole →
    (∀ l ∈ labels code, (labels whole).count l ≤ 1) →
    ∃ μ', m'.Agrees (S.Hidden bound) μ' ∧ S.Spares bound R μ μ' ∧ (code = [] → μ' = μ) ∧ Q μ' ∧
      ∀ M, S.Continues whole rest c μ' M → Runs S.step whole (code ++ rest) μ M

variable {S} {bound : Nat} {R R' : Set ℕ} {code code' : List Stmt} {m m' μ μ' μ₁ : Memory κ}
  {c : Control} {P Q : Memory κ → Prop}

theorem cell_ne (h : S.Holds x) (n : Nat) (t : Ty) : S.key x.root ≠ S.cell n t := by
  intro heq
  have htype := h.types_root
  rw [heq, cell, S.untyped] at htype
  cases htype

theorem not_hidden (h : S.Holds x) : ¬ S.Hidden bound (S.key x.root) := by
  rintro ⟨n, t, -, heq⟩
  exact cell_ne h n t heq

namespace Spares

theorem refl (bound : Nat) (R : Set ℕ) (μ : Memory κ) : S.Spares bound R μ μ := fun _ _ _ _ ↦ rfl

theorem trans (h : S.Spares bound R μ μ₁) (h' : S.Spares bound R μ₁ μ') : S.Spares bound R μ μ' :=
  fun n t hbound hn ↦ (h' n t hbound hn).trans (h n t hbound hn)

theorem mono (h : S.Spares bound R μ μ') (hR : R ⊆ R') : S.Spares bound R' μ μ' :=
  fun n t hbound hn ↦ h n t hbound fun hmem ↦ hn (hR hmem)

/-- A write to a variable of the body spares all temporaries. -/
theorem store (hx : S.Holds x) (h : μ.store S.key x v = .ok μ') :
    S.Spares bound R μ μ' := fun n t _ _ ↦
  Memory.get?_store_of_ne h (cell_ne hx n t)

/-- A write to a temporary spares the others. -/
theorem insert (hn : n ∈ R) : S.Spares bound R μ (Table.insert μ (S.cell n t) v) := by
  intro n' t' _ hn'
  refine Table.get?_insert_of_ne μ v fun heq ↦ hn' ?_
  rwa [← S.distinct _ _ _ _ heq]

end Spares

namespace Reaches

theorem nil (hm : S.Agrees bound m μ) (hQ : Q μ) : S.Reaches bound R [] μ .next m Q := fun _ _ _ _ ↦
  ⟨μ, hm, Spares.refl bound R μ, fun _ ↦ rfl, hQ, fun _ h ↦ h⟩

theorem mono (h : S.Reaches bound R code μ c m' P) (hR : R ⊆ R')
    (hQ : ∀ μ', S.Agrees bound m' μ' → S.Spares bound R μ μ' → (code = [] → μ' = μ) → P μ' →
      Q μ') : S.Reaches bound R' code μ c m' Q := by
  intro whole rest hwhole hlabels
  obtain ⟨μ', hagrees, hspares, hnil, hP, hrun⟩ := h whole rest hwhole hlabels
  exact ⟨μ', hagrees, hspares.mono hR, hnil, hQ μ' hagrees hspares hnil hP, hrun⟩

/-- Code runs after other code. -/
theorem append {m₁ : Memory κ} (h : S.Reaches bound R code μ .next m₁ P)
    (h' : ∀ μ₁, S.Agrees bound m₁ μ₁ → S.Spares bound R μ μ₁ → (code = [] → μ₁ = μ) → P μ₁ →
      S.Reaches bound R code' μ₁ c m' Q) : S.Reaches bound R (code ++ code') μ c m' Q := by
  intro whole rest hwhole hlabels
  rw [append_assoc] at hwhole
  rw [labels_append] at hlabels
  obtain ⟨μ₁, hagrees₁, hspares₁, hnil₁, hP, hrun₁⟩ :=
    h whole (code' ++ rest) hwhole fun l hl ↦ hlabels l (mem_append_left _ hl)
  obtain ⟨μ', hagrees, hspares, hnil, hQ, hrun⟩ :=
    h' μ₁ hagrees₁ hspares₁ hnil₁ hP whole rest (List.IsSuffix.trans ⟨code, rfl⟩ hwhole)
      fun l hl ↦ hlabels l (mem_append_right _ hl)
  refine ⟨μ', hagrees, hspares₁.trans hspares, fun heq ↦ ?_, hQ, fun M hM ↦ ?_⟩
  · obtain ⟨hcode, hcode'⟩ := append_eq_nil_iff.1 heq
    rw [hnil hcode', hnil₁ hcode]
  · rw [append_assoc]
    exact hrun₁ M (hrun M hM)

/-- A single statement takes one step. -/
theorem statement {s : Stmt} (hstep : S.step s μ c μ') (hm : S.Agrees bound m' μ')
    (hspares : S.Spares bound R μ μ') (hQ : Q μ') : S.Reaches bound R [s] μ c m' Q := by
  intro whole rest _ _
  refine ⟨μ', hm, hspares, fun heq ↦ (nomatch heq), hQ, fun M hM ↦ ?_⟩
  cases c with
  | next => exact .next hstep hM
  | stop =>
    obtain rfl : M = μ' := hM
    exact .stop hstep
  | jump l =>
    obtain ⟨there, hthere, hM⟩ := hM
    exact .jump hstep hthere hM

end Reaches

/-! ### What has been made up -/

/-- The extractor works for the routine of the frame. -/
structure Serves (S : Frame κ) (ξ : Extractor) : Prop where
  routine : ξ.routine = S.routine.id
  stem : ξ.temporaries.stem = "#tmp"
  scope : ξ.labels.scope = S.routine.name

/-- Extraction goes from one state to another and makes up labels. All of them are for skipping. -/
structure Progress (S : Frame κ) (ξ : Extractor) (labels : List Label) (ξ' : Extractor) :
    Prop where
  serves : S.Serves ξ'
  le : ξ.temporaries.next ≤ ξ'.temporaries.next
  fresh : ξ.labels.Fresh labels ξ'.labels
  skip (l : Label) (h : l ∈ labels) : ∃ n, l = .numbered S.routine.name "skip" n

/-- The temporaries that are made up from one state to another. -/
abbrev made (ξ ξ' : Extractor) : Set ℕ := Set.Ico ξ.temporaries.next ξ'.temporaries.next

variable {ξ ξ₁ ξ₂ : Extractor} {labels labels' : List Label}

theorem Progress.refl (h : S.Serves ξ) : S.Progress ξ [] ξ :=
  ⟨h, Nat.le_refl _, .nil _, fun _ hl ↦ (nomatch hl)⟩

theorem Progress.trans (h : S.Progress ξ labels ξ₁) (h' : S.Progress ξ₁ labels' ξ₂) :
    S.Progress ξ (labels ++ labels') ξ₂ where
  serves := h'.serves
  le := Nat.le_trans h.le h'.le
  fresh := h.fresh.append h'.fresh
  skip l hl := (mem_append.1 hl).elim (h.skip l) (h'.skip l)

/-- A temporary gets the next number. -/
theorem yields_temporary (h : S.Serves ξ) (t : Ty) : ∃ ξ', Yields (Extract.temporary t) ξ
        (.slot (slot S.routine.id ξ.temporaries.next t)) ξ' ∧
      S.Progress ξ [] ξ' ∧ ξ'.temporaries.next = ξ.temporaries.next + 1 := by
  refine ⟨{ ξ with temporaries := ξ.temporaries.fresh.2 }, ?_,
    ⟨⟨h.routine, h.stem, h.scope⟩, Nat.le_succ _, .nil _, fun _ hl ↦ (nomatch hl)⟩, rfl⟩
  obtain ⟨routine, ⟨stem, next⟩, labels⟩ := ξ
  obtain ⟨rfl, rfl, -⟩ := h
  rfl

/-- A label to skip to. -/
theorem yields_label (h : S.Serves ξ) :
    ∃ l ξ', Yields (Extract.label "skip") ξ l ξ' ∧ S.Progress ξ [l] ξ' ∧
      ξ'.temporaries.next = ξ.temporaries.next := by
  refine ⟨_, _, rfl, ⟨⟨h.routine, h.stem, h.scope⟩, Nat.le_refl _, .single _ _ (by decide),
    fun l hl ↦ ?_⟩, rfl⟩
  obtain rfl := mem_singleton.1 hl
  rw [← h.scope]
  exact ⟨_, rfl⟩

/-! ### Values that are kept aside -/

/-- The value is known, or in a temporary of the set. -/
def Held (S : Frame κ) (R : Set ℕ) (e : Expr) : Prop :=
  e.constant.isSome = true ∨
    ∃ n t span, n ∈ R ∧ e = Build.read (.slot (slot S.routine.id n t)) span

/-- The value depends on what the expression reads, and on temporaries of the set. -/
def Within (S : Frame κ) (R : Set ℕ) (e value : Expr) : Prop :=
  ∀ x ∈ value.reads, x ∈ e.reads ∨ ∃ n t, n ∈ R ∧ x = .slot (slot S.routine.id n t)

variable {e : Expr}

theorem Held.mono (h : S.Held R e) (hR : R ⊆ R') : S.Held R' e := by
  rcases h with h | ⟨n, t, span, hn, he⟩
  · exact .inl h
  · exact .inr ⟨n, t, span, hR hn, he⟩

/-- Writes to other temporaries leave a value that is kept aside as it is. -/
theorem Held.eval (h : S.Held R e) (hspares : S.Spares bound R' μ μ') (hR : Disjoint R R')
    (hbound : R ⊆ Set.Iio bound) : e.eval S.key μ' = e.eval S.key μ := by
  rcases h with h | ⟨n, t, span, hn, rfl⟩
  · obtain ⟨v, hv⟩ := Option.isSome_iff_exists.1 h
    rw [eval_of_constant hv, eval_of_constant hv]
  · refine eval_congr fun x hx ↦ ?_
    obtain rfl : x = .slot (slot S.routine.id n t) := by simpa [Build.read] using hx
    exact hspares n t (hbound hn) (Set.disjoint_left.1 hR hn)

theorem Within.mono {value : Expr} (h : S.Within R e value) (hR : R ⊆ R') :
    S.Within R' e value := by
  intro x hx
  rcases h x hx with hx | ⟨n, t, hn, hx⟩
  · exact .inl hx
  · exact .inr ⟨n, t, hR hn, hx⟩

/-! ### Splitting an expression -/

/-- A count is stored. -/
theorem Reaches.step {down : Bool} {w : Value} (hx : S.Holds x)
    (h : Steps S.key x down m w m') (hμ : S.Agrees bound m μ) :
    S.Reaches bound R [Extract.step x down span] μ .next m' fun _ ↦ True := by
  obtain ⟨hcompute, hstore⟩ := h
  obtain ⟨μ', hstore', hμ', -⟩ := hμ.store (not_hidden hx) hstore
  rw [← hμ.load (not_hidden hx)] at hcompute
  have heval : (Build.stepped x down span).eval S.key μ = .ok w :=
    eval_binary_of_derived rfl (eval_read rfl) eval_literal hcompute
  exact .statement ⟨rfl, w, heval, hstore'⟩ hμ' (.store hx hstore') trivial

/-- Counts are stored one after the other. -/
theorem Reaches.settle {cs : List Count} (hcs : ∀ c ∈ cs, S.Holds c.x)
    (h : Settles S.key cs m m') (hμ : S.Agrees bound m μ) :
    S.Reaches bound R (cs.map Count.code) μ .next m' fun _ ↦ True := by
  induction cs generalizing m μ with
  | nil =>
    obtain rfl : m' = m := h
    exact .nil hμ trivial
  | cons c rest ih =>
    obtain ⟨w, m₁, hstep, hrest⟩ := h
    obtain ⟨hc, hcs⟩ := forall_mem_cons.1 hcs
    have hfirst : S.Reaches bound R [c.code] μ .next m₁ fun _ ↦ True := .step hc hstep hμ
    exact hfirst.append fun μ₁ hμ₁ _ _ _ ↦ ih hcs hrest hμ₁

/-- The expression is split into what runs before, a value and the counts that are stored after, with
temporaries of the set. If something else runs first, then nothing is left to be stored. -/
structure IsSplit (S : Frame κ) (first : Bool) (e : Expr) (R : Set ℕ) (s : Split) : Prop where
  after : s.after = if first then [] else e.pending.map Count.code
  flat : Flat s.before
  same (h : s.value.changed = false) : s.value.node = e
  derived : s.value.node.Derived
  stable (h : s.value.node.isStable = true) : S.Held R s.value.node
  reads : S.Within R e s.value.node
  reaches (bound : Nat) (hR : R ⊆ Set.Iio bound) (m : Memory κ) (v : Value) (m₁ m' μ : Memory κ)
    (h : e.Produces S.key S.calls m v m₁) (hdue : Settles S.key (e.due first) m₁ m')
    (hμ : m.Agrees (S.Hidden bound) μ) :
    S.Reaches bound R s.before μ .next m' fun μ' ↦ s.value.node.eval S.key μ' = .ok v

/-- One can tell from the split whether something runs first, and an expression without effects is
left as it is. -/
structure Shows (e : Expr) (s : Split) : Prop where
  before : s.hasBefore = e.isEager
  kept (h : e.isPure = true) : s.value.changed = false

variable {first : Bool} {s : Split}

section

variable (h : S.IsSplit first e R s)

include h

theorem IsSplit.mono (hR : R ⊆ R') : S.IsSplit first e R' s where
  after := h.after
  flat := h.flat
  same := h.same
  derived := h.derived
  stable hs := (h.stable hs).mono hR
  reads := h.reads.mono hR
  reaches bound hbound m v m₁ m' μ hv hdue hμ :=
    (h.reaches bound (hR.trans hbound) m v m₁ m' μ hv hdue hμ).mono hR fun _ _ _ _ hQ ↦ hQ

theorem IsSplit.labels_after : Stmt.labels s.after = [] := by
  rw [h.after]
  split <;> simp

theorem IsSplit.labels_around (huse : ∀ node, (use node).label? = none) :
    Stmt.labels (s.around use) = Stmt.labels s.before := by
  rw [Split.around, Stmt.labels_append, Stmt.labels_cons_of_none (huse _), h.labels_after,
    append_nil]

theorem IsSplit.flat_after : Flat s.after := by
  rw [h.after]
  split <;> simp

theorem IsSplit.flat_around (huse : ∀ node, (use node).flatten = [use node]) :
    Flat (s.around use) :=
  flat_append.2 ⟨h.flat, flat_cons.2 ⟨huse _, h.flat_after⟩⟩

end

/-- An expression has effects if its split has any. -/
theorem IsSplit.hasEffects (h : S.IsSplit false e R s) (hshows : Shows e s) :
    s.hasEffects = !e.isPure := by
  have hbefore : s.before.isEmpty = !e.isEager := by
    rw [← hshows.before, Split.hasBefore, Bool.not_not]
  have hafter : s.after.isEmpty = e.pending.isEmpty := by
    rw [h.after]
    simp
  rw [Split.hasEffects, hbefore, hafter, Bool.eq_iff_iff, ← not_iff_not]
  simpa using (isPure_iff e).symm

/-- A value that is kept aside stays what it is when the counts are stored. -/
theorem IsSplit.settle (h : S.IsSplit false e R s) (hheld : S.Held R s.value.node)
    (he : S.Typed e) : S.IsSplit true e R ⟨s.before ++ s.after, s.value, []⟩ where
  after := rfl
  flat := flat_append.2 ⟨h.flat, h.flat_after⟩
  same := h.same
  derived := h.derived
  stable := h.stable
  reads := h.reads
  reaches bound hbound m v m₁ m' μ hv hdue hμ := by
    obtain ⟨m₂, hhasty, hpending⟩ := settles_append.1 hdue
    refine (h.reaches bound hbound m v m₁ m₂ μ hv hhasty hμ).append fun μ₁ hμ₁ _ _ hvalue ↦ ?_
    have hafter : S.Reaches bound ∅ s.after μ₁ .next m' fun _ ↦ True := by
      rw [h.after]
      exact .settle (fun c hc ↦ he.reads (mem_reads_of_pending hc)) hpending hμ₁
    refine hafter.mono (Set.empty_subset R) fun μ₂ _ hspares _ _ ↦ ?_
    rwa [hheld.eval hspares (Set.disjoint_empty R) hbound]

/-- A value is stored in a temporary. -/
theorem Reaches.capture (hn : n ∈ R) (hbound : n < bound) (hv : e.eval S.key μ = .ok v)
    (hm : S.Agrees bound m μ) :
    S.Reaches bound R [.assign span (.slot (slot S.routine.id n t)) e] μ .next m fun μ' ↦
      (Build.read (.slot (slot S.routine.id n t)) span').eval S.key μ' = .ok v := by
  have hhidden : S.Hidden bound (S.cell n t) := ⟨n, t, hbound, rfl⟩
  have hstore : μ.store S.key (.slot (slot S.routine.id n t)) v =
      .ok (Table.insert μ (S.cell n t) v) := rfl
  refine .statement ⟨rfl, v, hv, hstore⟩ (hm.insert hhidden v) (.insert hn) ?_
  exact (eval_read rfl).trans (congrArg _ (Memory.load_store_self hstore))

/-- A value that is read into a temporary. -/
theorem IsSplit.capture (h : S.IsSplit first e R s) (hR : R ⊆ R') (hn : n ∈ R') :
    S.IsSplit first e R'
      ⟨s.before ++ [.assign span (.slot (slot S.routine.id n t)) s.value.node],
        .new (Build.read (.slot (slot S.routine.id n t)) span'), s.after⟩ where
  after := h.after
  flat := by simpa [flatten] using h.flat
  same h := (nomatch h)
  derived := rfl
  stable _ := .inr ⟨_, _, _, hn, rfl⟩
  reads x hx := by
    simp only [Revised.new, Build.read, reads_read, mem_singleton] at hx
    exact .inr ⟨_, _, hn, hx⟩
  reaches bound hbound m v m₁ m' μ hv hdue hμ := by
    have hreaches := h.reaches bound (hR.trans hbound) m v m₁ m' μ hv hdue hμ
    refine Reaches.append (hreaches.mono hR fun _ _ _ _ hQ ↦ hQ) fun μ₁ hμ₁ _ _ hvalue ↦ ?_
    exact .capture hn (hbound hn) hvalue hμ₁

/-- A value that is read into a temporary before the counts are stored. -/
theorem IsSplit.captureAround (h : S.IsSplit false e R s)
    (he : S.Typed e) (hR : R ⊆ R') (hn : n ∈ R') :
    S.IsSplit true e R' ⟨s.around (.assign span (.slot (slot S.routine.id n t))),
      .new (Build.read (.slot (slot S.routine.id n t)) span'), []⟩ := by
  let x : Variable := .slot (slot S.routine.id n t)
  have hcapture : S.IsSplit false e R'
      ⟨s.before ++ [.assign span x s.value.node], .new (Build.read x span'), s.after⟩ :=
    h.capture hR hn
  simpa [Split.around] using hcapture.settle (.inr ⟨n, t, span', hn, rfl⟩) he

/-- An operand is read ahead, if that is needed. -/
theorem exists_ahead (h : S.IsSplit false e R s) (he : S.Typed e)
    (hξ : S.Serves ξ) (needed : Bool) :
    ∃ s' ξ', Yields (ahead needed s) ξ s' ξ' ∧ S.Progress ξ [] ξ' ∧
      S.IsSplit needed e (R ∪ made ξ ξ') s' ∧
      (needed = true → S.Held (R ∪ made ξ ξ') s'.value.node) ∧
      (needed = false → s' = s) ∧ Stmt.labels s'.before = Stmt.labels s.before := by
  have hunion (ξ' : Extractor) : R ⊆ R ∪ made ξ ξ' := Set.subset_union_left
  cases needed with
  | false =>
    exact ⟨s, ξ, rfl, .refl hξ, h.mono (hunion ξ), fun h ↦ (nomatch h), fun _ ↦ rfl, rfl⟩
  | true =>
    by_cases hstable : s.value.node.isStable = true
    · have hheld := (h.stable hstable).mono (hunion ξ)
      refine ⟨⟨s.before ++ s.after, s.value, []⟩, ξ, ?_, .refl hξ, (h.mono (hunion ξ)).settle hheld he,
        fun _ ↦ hheld, fun h ↦ (nomatch h), by simp [h.labels_after]⟩
      simp [ahead, hstable]
    · obtain ⟨ξ', hx, hprogress, hnext⟩ := yields_temporary hξ s.value.node.type
      have hn : ξ.temporaries.next ∈ R ∪ made ξ ξ' := .inr ⟨Nat.le_refl _, by omega⟩
      let x : Variable := .slot (slot S.routine.id ξ.temporaries.next s.value.node.type)
      have hyields : Yields (ahead true s) ξ
          ⟨s.around (.assign s.value.node.span x), .new (Build.read x s.value.node.span), []⟩ ξ' := by
        simp only [ahead, hstable]
        exact hx.bind rfl
      exact ⟨_, ξ', hyields, hprogress, h.captureAround he (hunion ξ') hn,
        fun _ ↦ .inr ⟨_, _, _, hn, rfl⟩, fun h ↦ (nomatch h), h.labels_around fun _ ↦ rfl⟩

/-! ### Gathering operands -/

/-- The expressions are split one after the other, each with temporaries of its own. -/
def Splits (S : Frame κ) : List Expr → Nat → Nat → List Split → Prop
  | [], low, high, splits => low ≤ high ∧ splits = []
  | e :: es, low, high, splits =>
    ∃ s rest mid, splits = s :: rest ∧ low ≤ mid ∧ S.IsSplit false e (Set.Ico low mid) s ∧
      Shows e s ∧ S.Splits es mid high rest

/-- An expression stays if it has no effects and nothing after it has any. -/
def KeepsTail : List Expr → List Expr → Prop
  | e :: es, value :: values =>
    (e.isPure = true → allPure es = true → value = e) ∧ KeepsTail es values
  | es, values => es = [] ∧ values = []

/-- The expressions are split into what runs before, values and counts that are stored after, with
temporaries of the set. -/
structure IsOperands (S : Frame κ) (es : List Expr) (R : Set ℕ) (o : Operands) : Prop where
  after : o.after = (allPending es).map Count.code
  flat : Flat o.before
  before : o.before = [] ↔ anyEager es = false
  kept (h : allPure es = true) : o.values.changed = false
  same (h : o.values.changed = false) : o.values.node = es
  derived : AllDerived o.values.node
  reads : Forall₂ (S.Within R) es o.values.node
  keeps : KeepsTail es o.values.node
  reaches (bound : Nat) (hR : R ⊆ Set.Iio bound) (m : Memory κ) (values : List Value)
    (m' μ : Memory κ) (h : ProducesAll S.key S.calls es m values m')
    (hμ : m.Agrees (S.Hidden bound) μ) :
    S.Reaches bound R o.before μ .next m' fun μ' ↦
      evalAll S.key μ' o.values.node = .ok values

variable {es : List Expr} {low high : Nat} {splits : List Split}

theorem Splits.le (h : S.Splits es low high splits) : low ≤ high := by
  induction es generalizing low splits with
  | nil => exact h.1
  | cons e es ih =>
    obtain ⟨s, rest, mid, -, hmid, -, -, hrest⟩ := h
    exact hmid.trans (ih hrest)

theorem Splits.any_hasBefore (h : S.Splits es low high splits) :
    splits.any Split.hasBefore = anyEager es := by
  induction es generalizing low splits with
  | nil =>
    rw [h.2]
    rfl
  | cons e es ih =>
    obtain ⟨s, rest, mid, rfl, -, -, hshows, hrest⟩ := h
    rw [any_cons, ih hrest, hshows.before, anyEager]

/-- The first of the operands is put before the others. Either it is kept aside, or nothing runs
before the others. -/
theorem IsOperands.cons {o : Operands} (h : S.IsSplit (anyEager es) e R s)
    (ho : S.IsOperands es R' o) (hR : Disjoint R R')
    (hheld : anyEager es = true → S.Held R s.value.node)
    (hshows : anyEager es = false → Shows e s) : S.IsOperands (e :: es) (R ∪ R')
      ⟨s.before ++ o.before, .map₂ List.cons s.value o.values, s.after ++ o.after⟩ where
  after := by
    rw [h.after, ho.after, allPending, map_append]
    split <;> rfl
  flat := flat_append.2 ⟨h.flat, ho.flat⟩
  before := by
    rw [append_eq_nil_iff, ho.before, anyEager, Bool.or_eq_false_iff]
    refine and_congr_left fun hfirst ↦ ?_
    rw [← (hshows hfirst).before, Split.hasBefore, Bool.not_eq_false', List.isEmpty_iff]
  kept hpure := by
    rw [allPure, Bool.and_eq_true] at hpure
    rw [Revised.map₂, (hshows ((allPure_iff es).1 hpure.2).1).kept hpure.1, ho.kept hpure.2]
    rfl
  same hchanged := by
    obtain ⟨hvalue, hvalues⟩ := Bool.or_eq_false_iff.1 hchanged
    rw [Revised.map₂, h.same hvalue, ho.same hvalues]
  derived := ⟨h.derived, ho.derived⟩
  reads := by
    refine .cons (h.reads.mono Set.subset_union_left) (ho.reads.imp fun _ _ hreads ↦ ?_)
    exact hreads.mono Set.subset_union_right
  keeps := ⟨fun hpure hpures ↦ h.same ((hshows ((allPure_iff es).1 hpures).1).kept hpure),
    ho.keeps⟩
  reaches bound hbound m values m' μ hvalues hμ := by
    obtain ⟨hboundR, hboundR'⟩ := Set.union_subset_iff.1 hbound
    obtain ⟨v, m₁, m₂, others, hv, hdue, hothers, rfl⟩ := hvalues
    have hfirst := h.reaches bound hboundR m v m₁ m₂ μ hv hdue hμ
    refine Reaches.append (hfirst.mono Set.subset_union_left fun _ _ _ _ hQ ↦ hQ)
      fun μ₁ hμ₁ _ _ hvalue ↦ ?_
    refine (ho.reaches bound hboundR' m₂ others m' μ₁ hothers hμ₁).mono
      Set.subset_union_right fun μ' _ hspares hnil hrest ↦ ?_
    -- the value of the first operand is still what it was when the others have run
    have hvalue' : s.value.node.eval S.key μ' = .ok v := by
      rcases hfirst : anyEager es with - | -
      · rwa [hnil (ho.before.2 hfirst)]
      · rwa [(hheld hfirst).eval hspares hR hboundR]
    exact evalAll_cons.2 ⟨v, others, hvalue', hrest, rfl⟩

theorem IsOperands.nil (S : Frame κ) (R : Set ℕ) : S.IsOperands [] R { values := .same [] } where
  after := rfl
  flat := flat_nil
  before := ⟨fun _ ↦ rfl, fun _ ↦ rfl⟩
  kept _ := rfl
  same _ := rfl
  derived := trivial
  reads := .nil
  keeps := ⟨rfl, rfl⟩
  reaches := by
    rintro bound - m values m' μ ⟨rfl, rfl⟩ hμ
    exact .nil hμ rfl

/-- Operands are gathered. -/
theorem exists_gather (hξ : S.Serves ξ) (h : S.Splits es low high splits)
    (hes : S.AllTyped es) (hhigh : high ≤ ξ.temporaries.next) :
    ∃ o ξ', Yields (Extract.gather splits) ξ o ξ' ∧ S.Progress ξ [] ξ' ∧
      S.IsOperands es (Set.Ico low high ∪ made ξ ξ') o ∧
      Stmt.labels o.before = splits.flatMap fun s ↦ Stmt.labels s.before := by
  induction es generalizing low splits ξ with
  | nil =>
    obtain ⟨-, rfl⟩ := h
    exact ⟨{ values := .same [] }, ξ, rfl, .refl hξ, .nil S _, rfl⟩
  | cons e es ih =>
    obtain ⟨s, rest, mid, rfl, hmid, hs, hshows, hrest⟩ := h
    have hle := hrest.le
    obtain ⟨s', ξ₁, hahead, hprogress, hs', hheld, hsame, hlabels⟩ :=
      exists_ahead hs hes.1 hξ (rest.any Split.hasBefore)
    obtain ⟨o, ξ', hgather, hprogress', ho, hlabels'⟩ :=
      ih hprogress.serves hrest hes.2 (hhigh.trans hprogress.le)
    have hle₁ := hprogress.le
    have hle' := hprogress'.le
    have hdisjoint : Disjoint (Set.Ico low mid ∪ made ξ ξ₁) (Set.Ico mid high ∪ made ξ₁ ξ') := by
      rw [Set.disjoint_left]
      simp only [Set.mem_union, Set.mem_Ico]
      omega
    have hunion : Set.Ico low mid ∪ made ξ ξ₁ ∪ (Set.Ico mid high ∪ made ξ₁ ξ') =
        Set.Ico low high ∪ made ξ ξ' := by
      ext n
      simp only [Set.mem_union, Set.mem_Ico]
      omega
    refine ⟨_, ξ', hahead.bind (hgather.bind rfl), hprogress.trans hprogress', ?_, ?_⟩
    · rw [hrest.any_hasBefore] at hs' hheld hsame
      rw [← hunion]
      exact .cons hs' ho hdisjoint hheld fun hfirst ↦ hsame hfirst ▸ hshows
    · rw [labels_append, hlabels, hlabels', flatMap_cons]

end Frame

end Wirescript
