import Mathlib.Data.List.Forall2

/-!
# Outcomes of computations

Passes and machines are programs in one of two monads: those that keep their state when they stop
with a fault, and those that do not. For both, a computation that ends well falls apart into parts
that end well, and proofs about a pass read its text in that way, once for each form.
-/

namespace Wirescript

variable {ε σ α β : Type}

/-- Two computations one after the other end well if both do. -/
theorem bind_eq_ok {x : Except ε α} {f : α → Except ε β} {b : β} :
    x >>= f = .ok b ↔ ∃ a, x = .ok a ∧ f a = .ok b := by
  cases x with
  | error e | ok a => simp [bind, Except.bind]

theorem mapError_bind {f : ε → ε} {x : Except ε α} {g : α → Except ε β} :
    (x >>= g).mapError f = x.mapError f >>= fun a ↦ (g a).mapError f := by
  cases x <;> rfl

/-- Started in one state, the computation ends well in another one. -/
def Yields (x : ExceptT ε (StateM σ) α) (s : σ) (a : α) (s' : σ) : Prop :=
  x.run s = (.ok a, s')

variable {x : ExceptT ε (StateM σ) α} {f : α → ExceptT ε (StateM σ) β} {s s' s'' : σ} {a : α} {b : β}
  {e : ε}

theorem run_bind_of_ok (h : x.run s = (.ok a, s')) : (x >>= f).run s = (f a).run s' := by
  have h' : x s = (.ok a, s') := h
  simp only [bind, ExceptT.bind, ExceptT.mk, ExceptT.run, StateT.bind, h', ExceptT.bindCont]

theorem run_bind_of_error (h : x.run s = (.error e, s')) : (x >>= f).run s = (.error e, s') := by
  have h' : x s = (.error e, s') := h
  simp only [bind, ExceptT.bind, ExceptT.mk, ExceptT.run, StateT.bind, h']
  rfl

theorem run_get_bind {f : σ → ExceptT ε (StateM σ) α} : (get >>= f).run s = (f s).run s := rfl

theorem yields_bind :
    Yields (x >>= f) s b s'' ↔ ∃ a s', Yields x s a s' ∧ Yields (f a) s' b s'' := by
  rcases hx : x.run s with ⟨e | a, s'⟩
  · rw [Yields, run_bind_of_error hx]
    refine ⟨fun h ↦ (nomatch h), ?_⟩
    rintro ⟨a, s₁, h, -⟩
    cases hx.symm.trans h
  · rw [Yields, run_bind_of_ok hx]
    refine ⟨fun h ↦ ⟨a, s', hx, h⟩, ?_⟩
    rintro ⟨a', s₁, h, h'⟩
    cases hx.symm.trans h
    exact h'

theorem Yields.bind (h : Yields x s a s') (h' : Yields (f a) s' b s'') : Yields (x >>= f) s b s'' :=
  yields_bind.2 ⟨a, s', h, h'⟩

@[simp] theorem yields_pure {b : α} :
    Yields (pure a : ExceptT ε (StateM σ) α) s b s' ↔ b = a ∧ s' = s := by
  constructor
  · intro h
    cases h
    exact ⟨rfl, rfl⟩
  · rintro ⟨rfl, rfl⟩
    rfl

@[simp] theorem not_yields_throw : ¬ Yields (throw e : ExceptT ε (StateM σ) α) s a s' := by
  intro h
  cases h

theorem yields_get_bind {f : σ → ExceptT ε (StateM σ) α} :
    Yields (get >>= f) s a s' ↔ Yields (f s) s a s' := by
  rw [Yields, run_get_bind, Yields]

theorem yields_modify {f : σ → σ} {u : Unit} :
    Yields (modify f : ExceptT ε (StateM σ) Unit) s u s' ↔ s' = f s := by
  constructor
  · intro h
    cases h
    rfl
  · rintro rfl
    rfl

theorem yields_lift {x : Except ε α} :
    Yields (liftM x : ExceptT ε (StateM σ) α) s a s' ↔ x = .ok a ∧ s' = s := by
  cases x with
  | error e => exact ⟨fun h ↦ (nomatch h), fun h ↦ (nomatch h.1)⟩
  | ok b =>
    constructor
    · intro h
      cases h
      exact ⟨rfl, rfl⟩
    · rintro ⟨h, rfl⟩
      cases h
      rfl

theorem yields_of_toOption (h : (x.run s).1.toOption = some a) : ∃ s', Yields x s a s' := by
  rcases hrun : x.run s with ⟨e | b, s'⟩
  · rw [hrun] at h
    cases h
  · rw [hrun] at h
    cases h
    exact ⟨s', hrun⟩

/-! ### Conditions before and after -/

/-- The outcome is a value of one kind, or a fault of another. -/
def Outcome (F : ε → Prop) (P : α → Prop) : Except ε α → Prop
  | .ok a => P a
  | .error e => F e

section Outcome

variable {F F' : ε → Prop} {P P' : α → Prop} {Q : β → Prop} {x : Except ε α}

theorem Outcome.bind {f : α → Except ε β} (hx : Outcome F P x)
    (hf : ∀ a, P a → Outcome F Q (f a)) : Outcome F Q (x >>= f) := by
  cases x with
  | error e => exact hx
  | ok a => exact hf a hx

theorem Outcome.mono (hx : Outcome F P x) (hF : ∀ e, F e → F' e) (hP : ∀ a, P a → P' a) :
    Outcome F' P' x := by
  cases x with
  | error e => exact hF e hx
  | ok a => exact hP a hx

end Outcome

/-- Started where the first condition holds, the computation ends where the second one does, or it
stops with a fault of some kind. -/
def Meets (F : ε → Prop) (P : σ → Prop) (x : ExceptT ε (StateM σ) α) (Q : α → σ → Prop) : Prop :=
  ∀ s, P s → Outcome F (fun a ↦ Q a (x.run s).2) (x.run s).1

/-- From every state, the computation ends with a value of one kind, or with a fault of another. -/
def Ensures (F : ε → Prop) (P : α → Prop) (x : ExceptT ε (StateM σ) α) : Prop :=
  ∀ s, Outcome F P (x.run s).1

namespace Meets

variable {F : ε → Prop} {P P' : σ → Prop} {Q Q' : α → σ → Prop} {R : β → σ → Prop}

theorem pure (h : ∀ s, P s → Q a s) : Meets F P (pure a : ExceptT ε (StateM σ) α) Q :=
  fun s hs ↦ h s hs

theorem throw (h : F e) : Meets F P (throw e : ExceptT ε (StateM σ) α) Q := fun _ _ ↦ h

theorem bind (hx : Meets F P x Q) (hf : ∀ a, Meets F (Q a) (f a) R) : Meets F P (x >>= f) R := by
  intro s hs
  have hrun := hx s hs
  rcases hx' : x.run s with ⟨e | a, s'⟩
  · rw [run_bind_of_error hx']
    rw [hx'] at hrun
    exact hrun
  · rw [run_bind_of_ok hx']
    rw [hx'] at hrun
    exact hf a s' hrun

theorem modify {f : σ → σ} {Q : PUnit → σ → Prop} (h : ∀ s, P s → Q ⟨⟩ (f s)) :
    Meets F P (modify f : ExceptT ε (StateM σ) PUnit) Q := fun s hs ↦ h s hs

theorem before (hx : Meets F P x Q) (h : ∀ s, P' s → P s) : Meets F P' x Q :=
  fun s hs ↦ hx s (h s hs)

theorem after (hx : Meets F P x Q) (h : ∀ a s, Q a s → Q' a s) : Meets F P x Q' :=
  fun s hs ↦ (hx s hs).mono (fun _ ↦ id) fun a ↦ h a _

theorem ensures {Q : σ → α → σ → Prop} (h : ∀ s, Meets F (· = s) x (Q s)) :
    Ensures F (fun _ ↦ True) x :=
  fun s ↦ (h s s rfl).mono (fun _ ↦ id) fun _ _ ↦ trivial

end Meets

/-! ### Values of one kind or faults of another -/

section Ensures

variable {F F' : ε → Prop} {P : α → Prop} {Q : β → Prop} {R : α → β → Prop} {xs : List α}

theorem Ensures.pure (h : P a) : Ensures F P (pure a : ExceptT ε (StateM σ) α) := fun _ ↦ h

theorem Ensures.throw (h : F e) : Ensures F P (throw e : ExceptT ε (StateM σ) α) := fun _ ↦ h

theorem Ensures.modify {f : σ → σ} {P : PUnit → Prop} (h : P ⟨⟩) :
    Ensures F P (modify f : ExceptT ε (StateM σ) PUnit) := fun _ ↦ h

theorem Ensures.get_bind {f : σ → ExceptT ε (StateM σ) α}
    (h : ∀ s, Outcome F P ((f s).run s).1) : Ensures F P (get >>= f) := h

theorem Ensures.lift {x : Except ε α} (h : Outcome F P x) :
    Ensures F P (liftM x : ExceptT ε (StateM σ) α) := by
  intro s
  cases x with
  | error e | ok a => exact h

theorem Ensures.bind (hx : Ensures F P x) (hf : ∀ a, P a → Ensures F Q (f a)) :
    Ensures F Q (x >>= f) := by
  have hx' : Meets F (fun _ ↦ True) x (fun a _ ↦ P a) := fun s _ ↦ hx s
  exact fun s ↦ hx'.bind (R := fun b _ ↦ Q b) (fun a s ha ↦ hf a ha s) s trivial

theorem Ensures.mapM {f : α → ExceptT ε (StateM σ) β} (h : ∀ x ∈ xs, Ensures F (R x) (f x)) :
    Ensures F (List.Forall₂ R xs) (xs.mapM f) := by
  induction xs with
  | nil => exact .pure .nil
  | cons x xs ih =>
    rw [List.mapM_cons]
    obtain ⟨hx, hxs⟩ := List.forall_mem_cons.1 h
    exact hx.bind fun y hy ↦ (ih hxs).bind fun ys hys ↦ .pure (.cons hy hys)

theorem Ensures.mono (h : Ensures F P x) (hF : ∀ e, F e → F' e) : Ensures F' P x :=
  fun s ↦ (h s).mono hF fun _ ↦ id

theorem forall_mem_of_forall₂ {ys : List β} (h : List.Forall₂ (fun _ y ↦ Q y) xs ys) :
    ∀ y ∈ ys, Q y := by
  induction h with
  | nil => simp
  | cons hy _ ih => exact List.forall_mem_cons.2 ⟨hy, ih⟩

end Ensures

end Wirescript
