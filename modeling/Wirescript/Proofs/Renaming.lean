import Wirescript.Proofs.Course
import Wirescript.Proofs.Definite

/-!
# Running renamed code

Code in which variables have been replaced by others runs as the original does, each with a trail of
its own, as long as the cells that correspond hold the same values. Which cells correspond is a
relation `R` between slots, and `Linked` says that they hold the same values. The relation need not
be an injection: two parameters may stand for one variable of a caller, and a variable that has not
been assigned yet corresponds to nothing. So reads ask for `R`, and a write is made to both memories
where it meets corresponding cells in both or in neither (`Joint`).

A statement that assigns variables makes them correspond. `Pairs R image D` is `R` with the variables
of a list `D`, each with its image. Routines have the same names on both sides; what a call asks of a
routine is that its runs can be followed from the parameters that were filled to the cells that the
call consults afterwards (`Steady`).
-/

namespace Wirescript

open Variable (whole eq_of_mem_whole)
open Stmt
open Wirescript.Expr
open List
open Memory

variable {κ κ' : Type} [DecidableEq κ] [DecidableEq κ'] {S : Scene κ} {S' : Scene κ'}
  {m m' : Memory κ} {μ : Memory κ'} {t t' : Trail κ} {u u' : Trail κ'}
  {calls : Routine → Trail κ → Trail κ → Prop} {calls' : Routine → Trail κ' → Trail κ' → Prop}
  {key : Slot → κ} {key' : Slot → κ'} {R R' Top : Slot → Slot → Prop} {image image' : Slot → Slot}
  {σ : Substitution} {e : Expr} {es : List Expr} {v w : Value} {values : List Value}
  {x y p : Variable} {ps : List Variable} {result : Option Variable} {a b s : Slot}
  {D D' given : List Slot} {r : Routine} {code start mid rest rest' : List Stmt} {l : Label}
  {c : Turn} {V : Vocabulary}

/-! ### Variables of one shape -/

/-- Both variables are cells, or both are components on the same axes. -/
def Variable.Like : Variable → Variable → Prop
  | .slot _, .slot _ => True
  | .component base axis _, .component base' axis' _ => axis = axis' ∧ base.Like base'
  | _, _ => False

theorem Variable.Like.refl (x : Variable) : x.Like x := by
  induction x with
  | slot s => trivial
  | component base axis origin ih => exact ⟨rfl, ih⟩

/-- Replaces variables by variables of the same shape, where the cell becomes its image. -/
def Substitution.Moves (σ : Substitution) (image : Slot → Slot) : Prop :=
  ∀ x, (σ.var x).Like x ∧ (σ.var x).root = image x.root

theorem Memory.load_like (h : x.Like y)
    (hroot : m.load key (.slot x.root) = μ.load key' (.slot y.root)) :
    m.load key x = μ.load key' y := by
  induction x generalizing y with
  | slot s =>
    cases y with
    | slot s' => exact hroot
    | component base axis origin => exact h.elim
  | component base axis origin ih =>
    cases y with
    | slot s' => exact h.elim
    | component base' axis' origin' =>
      obtain ⟨rfl, hbase⟩ := h
      rw [Memory.load, Memory.load, ih hbase hroot]

/-- A write changes the cell of the variable, and a write to a variable of the same shape puts the
same value into its cell. -/
theorem Memory.store_like (h : x.Like y)
    (hroot : y.isComponent = true → m.load key (.slot x.root) = μ.load key' (.slot y.root))
    (hm' : m.store key x v = .ok m') :
    ∃ w, m' = m.insert (key x.root) w ∧ μ.store key' y v = .ok (μ.insert (key' y.root) w) := by
  induction x generalizing y v with
  | slot s =>
    cases y with
    | slot s' =>
      cases hm'
      exact ⟨v, rfl, rfl⟩
    | component base axis origin => exact h.elim
  | component base axis origin ih =>
    cases y with
    | slot s' => exact h.elim
    | component base' axis' origin' =>
      obtain ⟨rfl, hbase⟩ := h
      have hload : m.load key base = μ.load key' base' := load_like hbase (hroot rfl)
      unfold Memory.store at hm' ⊢
      split at hm'
      · cases hm'
      · rw [← hload]
        split at hm'
        · exact ih hbase (fun _ ↦ hroot rfl) hm'
        · exact ih hbase (fun _ ↦ hroot rfl) hm'
        · cases hm'

theorem Memory.load_insert_self : Memory.load key (m.insert (key s) w) (.slot s) = w := by
  rw [Memory.load, Table.get?_insert_self]
  rfl

theorem Memory.load_insert_of_eq {s' : Slot} (h : key s = key s') :
    Memory.load key (m.insert (key s) w) (.slot s') = w := by
  rw [h, load_insert_self]

theorem Memory.load_insert_of_ne {s' : Slot} (h : key s ≠ key s') :
    Memory.load key (m.insert (key s) w) (.slot s') = m.load key (.slot s') := by
  rw [Memory.load, Memory.load, Table.get?_insert_of_ne m w h]

/-! ### Cells that correspond -/

/-- The relation with the slots of a list, each with its image. -/
def Pairs (R : Slot → Slot → Prop) (image : Slot → Slot) (D : List Slot) (a b : Slot) : Prop :=
  R a b ∨ (b ∈ D ∧ a = image b)

theorem pairs_mono (hD : D ⊆ D') : Pairs R image D ≤ Pairs R image D' :=
  fun _ _ hab ↦ hab.imp_right fun ⟨hb, ha⟩ ↦ ⟨hD hb, ha⟩

theorem pairs_nil : Pairs R image [] = R := by simp [funext_iff, Pairs]

theorem pairs_append : Pairs R image (D ++ D') = Pairs (Pairs R image D) image D' := by
  simp [funext_iff, Pairs, or_and_right, or_assoc]

theorem pairs_comm : Pairs (Pairs R image D) image' D' = Pairs (Pairs R image' D') image D := by
  simp [funext_iff, Pairs, or_right_comm]

/-- The same events occur in both scenes, and calls end in the same order. -/
structure Scene.Alike (S : Scene κ) (S' : Scene κ') : Prop where
  fires : S.fires = S'.fires
  early : S.early = S'.early

omit [DecidableEq κ] in
theorem Scene.Alike.refl (S : Scene κ) : S.Alike S := ⟨rfl, rfl⟩

variable (S S') in
/-- Slots that correspond hold the same value, and both runs have the same record. -/
structure Linked (R : Slot → Slot → Prop) (t : Trail κ) (u : Trail κ') : Prop where
  load {a b : Slot} (h : R a b) : t.memory.load S.key (.slot a) = u.memory.load S'.key (.slot b)
  log : t.log = u.log
  events : t.events = u.events

variable (S S') in
/-- A value may be written to both slots: their cells meet those of slots that correspond in both
memories or in neither, and both writes are recorded or neither is. -/
structure Joint (R : Slot → Slot → Prop) (a b : Slot) : Prop where
  meets {a' b' : Slot} (h : R a' b') : S.key a = S.key a' ↔ S'.key b = S'.key b'
  watched : S.watched a = S'.watched b
  seen (h : S'.watched b = true) : a = b

theorem Linked.mono (h : Linked S S' R t u) (hR : R' ≤ R) : Linked S S' R' t u :=
  ⟨fun hab ↦ h.load (hR _ _ hab), h.log, h.events⟩

omit [DecidableEq κ] [DecidableEq κ'] in
theorem Joint.mono (h : Joint S S' R a b) (hR : R' ≤ R) : Joint S S' R' a b :=
  ⟨fun hab ↦ h.meets (hR _ _ hab), h.watched, h.seen⟩

omit [DecidableEq κ] in
/-- Where every slot corresponds to itself, every value may be written. -/
theorem Joint.refl (hR : R ≤ Eq) (a : Slot) : Joint S S R a a where
  meets {a' b'} h := by rw [hR a' b' h]
  watched := rfl
  seen _ := rfl

theorem Linked.refl (hR : R ≤ Eq) (t : Trail κ) : Linked S S R t t where
  load {a b} h := by rw [hR a b h]
  log := rfl
  events := rfl

/-- A write that is made on both sides makes the two slots correspond. -/
theorem Linked.store (h : Linked S S' R t u) (hxy : x.Like y) (hjoint : Joint S S' R' x.root y.root)
    (hcomponent : y.isComponent = true → R x.root y.root)
    (hR' : ∀ a b, R' a b → R a b ∨ (b ∈ y.whole ∧ a = x.root)) (hstore : t.store S x v = .ok t') :
    ∃ u', u.store S' y v = .ok u' ∧ Linked S S' R' t' u' := by
  obtain ⟨m, hm, rfl⟩ := Trail.store_eq_ok.1 hstore
  obtain ⟨w, rfl, hμ⟩ := store_like hxy (fun hc ↦ h.load (hcomponent hc)) hm
  refine ⟨_, Trail.store_eq_ok.2 ⟨_, hμ, rfl⟩, fun {a b} hab ↦ ?_, ?_, h.events⟩
  · show Memory.load _ (Table.insert _ _ _) _ = Memory.load _ (Table.insert _ _ _) _
    by_cases ha : S.key x.root = S.key a
    · rw [load_insert_of_eq ha, load_insert_of_eq ((hjoint.meets hab).1 ha)]
    · have hb : S'.key y.root ≠ S'.key b := fun hb ↦ ha ((hjoint.meets hab).2 hb)
      rcases hR' a b hab with hab | ⟨-, rfl⟩
      · rw [load_insert_of_ne ha, load_insert_of_ne hb, h.load hab]
      · exact absurd rfl ha
  · show t.log ++ x.record S _ = u.log ++ y.record S' _
    rw [h.log, Variable.record, Variable.record, hjoint.watched, load_insert_self,
      load_insert_self]
    by_cases hwatched : S'.watched y.root = true
    · rw [hjoint.seen hwatched]
    · rw [if_neg hwatched, if_neg hwatched]

/-- A write on the right that meets no slot of the relation. -/
theorem Linked.store_right (h : Linked S S' R t u) (hR : ∀ a b, R a b → S'.key y.root ≠ S'.key b)
    (hwatched : S'.watched y.root = false) (hstore : u.store S' y v = .ok u') :
    Linked S S' R t u' := by
  obtain ⟨m, hm, rfl⟩ := Trail.store_eq_ok.1 hstore
  refine ⟨fun {a b} hab ↦ ?_, ?_, h.events⟩
  · rw [h.load hab]
    exact (load_store_of_ne (y := .slot b) hm (hR a b hab)).symm
  · simp [Variable.record, hwatched, h.log]

/-! ### Expressions -/

/-- What is said of a fault that an expression has no value, where symbols are replaced. -/
def Fault.substituted (σ : Substitution) : Fault → Fault
  | .internal (.cannotEvaluate e) => .internal (.cannotEvaluate (e.substitute σ))
  | other => other

theorem mapError_eq_ok {α : Type} {x : Except Fault α} {f : Fault → Fault} {v : α} :
    x.mapError f = .ok v ↔ x = .ok v := by
  cases x <;> simp [Except.mapError]

/-- A renamed expression has the value of the original, if the variables that are read have. -/
theorem Expr.eval_substitute (h : ∀ x ∈ e.reads, m.load key (σ.var x) = μ.load key' x) :
    (e.substitute σ).eval key m = .ok v ↔ e.eval key' μ = .ok v := by
  rw [eval_mapError (f := Fault.substituted σ) (fun _ ↦ rfl) h, mapError_eq_ok]

theorem Expr.evalAll_substitute (h : ∀ x ∈ allReads es, m.load key (σ.var x) = μ.load key' x) :
    Expr.evalAll key m (Expr.substituteAll σ es) = .ok values ↔
      Expr.evalAll key' μ es = .ok values := by
  rw [evalAll_mapError (f := Fault.substituted σ) (fun _ ↦ rfl) h, mapError_eq_ok]

/-! ### Calls -/

/-- The values that are read correspond. -/
theorem Linked.eval (hm : Linked S S' R t u) (hσ : σ.Moves image)
    (hreads : ∀ x ∈ e.reads, R (image x.root) x.root) :
    (e.substitute σ).eval S.key t.memory = .ok v ↔ e.eval S'.key u.memory = .ok v := by
  refine eval_substitute fun x hx ↦ load_like (hσ x).1 ?_
  rw [(hσ x).2]
  exact hm.load (hreads x hx)

theorem Linked.evalAll (hm : Linked S S' R t u) (hσ : σ.Moves image)
    (hreads : ∀ x ∈ allReads es, R (image x.root) x.root) :
    Expr.evalAll S.key t.memory (Expr.substituteAll σ es) = .ok values ↔
      Expr.evalAll S'.key u.memory es = .ok values := by
  refine evalAll_substitute fun x hx ↦ load_like (hσ x).1 ?_
  rw [(hσ x).2]
  exact hm.load (hreads x hx)

variable (S S') in
/-- What a write to a variable asks for: its old value, if it is a component, and a cell that a value
may be written to on both sides. -/
structure Writable (R Top : Slot → Slot → Prop) (image : Slot → Slot) (x : Variable) : Prop where
  old (h : x.isComponent = true) : R (image x.root) x.root
  joint : Joint S S' Top (image x.root) x.root

omit [DecidableEq κ] [DecidableEq κ'] in
theorem Writable.mono (h : Writable S S' R Top image x) (hR : R ≤ R') : Writable S S' R' Top image x :=
  ⟨fun hx ↦ hR _ _ (h.old hx), h.joint⟩

variable (S S') in
/-- Variables may be written one after the other, if all of them correspond in the end. -/
structure Assignable (R Top : Slot → Slot → Prop) (image : Slot → Slot) (D : List Slot)
    (xs : List Variable) : Prop where
  each (x : Variable) (h : x ∈ xs) : Writable S S' (Pairs R image D) Top image x
  top : Pairs R image (D ++ xs.flatMap whole) ≤ Top

omit [DecidableEq κ] [DecidableEq κ'] in
/-- Some of the variables may be written after others have been. -/
theorem Assignable.sub {xs ys : List Variable} (h : Assignable S S' R Top image D xs) (hys : ys ⊆ xs)
    (hD : D ⊆ D') (hD' : D' ⊆ D ++ xs.flatMap whole) : Assignable S S' R Top image D' ys where
  each y hy := (h.each y (hys hy)).mono (pairs_mono hD)
  top := (pairs_mono (by grind)).trans h.top

/-- A write to a variable and to its image. -/
theorem Linked.write (hm : Linked S S' (Pairs R image D) t u) (hσ : σ.Moves image)
    (hx : Assignable S S' R Top image D [x]) (h : t.store S (σ.var x) v = .ok t') :
    ∃ u', u.store S' x v = .ok u' ∧
      Linked S S' (Pairs R image (D ++ [x].flatMap whole)) t' u' := by
  have hroot : (σ.var x).root = image x.root := (hσ x).2
  have hwritable := hx.each x (.head _)
  refine hm.store (hσ x).1 ?_ (fun hc ↦ ?_) (fun a b hab ↦ ?_) h
  · rw [hroot]
    exact hwritable.joint.mono hx.top
  · rw [hroot]
    exact hwritable.old hc
  · rw [hroot]
    rcases pairs_append.le a b hab with hab | ⟨hb, rfl⟩
    · exact .inl hab
    · have hb : b ∈ x.whole := by simpa using hb
      exact .inr ⟨hb, by rw [eq_of_mem_whole hb]; rfl⟩

/-- A parameter with its argument, where symbols are replaced in the argument. -/
def Substitution.passed (σ : Substitution) (pair : Variable × Expr) : Variable × Expr :=
  (pair.1, pair.2.substitute σ)

theorem Expr.zip_substituteAll (ps : List Variable) (es : List Expr) :
    ps.zip (Expr.substituteAll σ es) = (ps.zip es).map σ.passed := by
  rw [Expr.substituteAll_eq_map, zip_map_right]
  rfl

section Arguments

variable {pairs : List (Variable × Expr)}

/-- Arguments are passed to the same parameters on both sides, which then correspond. -/
theorem Trail.Passes.linked (h : t.Passes S (pairs.map σ.passed) t') (hm : Linked S S' R t u)
    (hσ : σ.Moves image) (hreads : ∀ x ∈ passed pairs, R (image x.root) x.root)
    (hps : ∀ pair ∈ pairs, Writable S S' R Top id pair.1) (hTop : Pairs R id (filled pairs) ≤ Top) :
    ∃ u', u.Passes S' pairs u' ∧ Linked S S' (Pairs R id (filled pairs)) t' u' := by
  induction pairs generalizing t u R with
  | nil =>
    obtain rfl : t' = t := h
    exact ⟨u, rfl, hm.mono pairs_nil.le⟩
  | cons pair pairs ih =>
    obtain ⟨p, e⟩ := pair
    obtain ⟨t₁, hfirst, h⟩ := h
    have hpassed : passed ((p, e) :: pairs) =
        (if p.modifiers.out then [] else e.reads) ++ passed pairs := rfl
    have hfilled : filled ((p, e) :: pairs) =
        (if p.modifiers.out then [] else p.whole) ++ filled pairs := rfl
    rw [hpassed] at hreads
    rw [hfilled] at hTop ⊢
    have hrest (x : Variable) (hx : x ∈ passed pairs) : R (image x.root) x.root :=
      hreads x (mem_append_right _ hx)
    obtain ⟨hp, hps⟩ := forall_mem_cons.1 hps
    by_cases hout : p.modifiers.out = true
    · rw [if_pos hout] at hfirst hTop ⊢
      obtain rfl := hfirst
      obtain ⟨u', hu', hm'⟩ := ih h hm hrest hps hTop
      exact ⟨u', ⟨u, by rw [if_pos hout], hu'⟩, hm'⟩
    · rw [if_neg hout] at hfirst hTop hreads ⊢
      obtain ⟨v, hv, hstore⟩ := hfirst
      have hv' : e.eval S'.key u.memory = .ok v :=
        (hm.eval hσ fun x hx ↦ hreads x (mem_append_left _ hx)).1 hv
      obtain ⟨u₁, hu₁, hm₁⟩ := hm.store (Variable.Like.refl p)
        (hp.joint.mono ((pairs_mono (subset_append_left _ _)).trans hTop)) hp.old
        (fun a b hab ↦ hab.imp_right fun ⟨hb, ha⟩ ↦
          ⟨hb, by rw [ha, eq_of_mem_whole hb]; rfl⟩) hstore
      rw [pairs_append] at hTop ⊢
      obtain ⟨u', hu', hm'⟩ := ih h hm₁ (fun x hx ↦ .inl (hrest x hx))
        (fun pair hpair ↦ (hps pair hpair).mono fun _ _ ↦ .inl) hTop
      exact ⟨u', ⟨u₁, by rw [if_neg hout]; exact ⟨v, hv', hu₁⟩, hu'⟩, hm'⟩

theorem Expr.read?_substitute (σ : Substitution) (e : Expr) :
    (e.substitute σ).read? = e.read?.map σ.var := by
  cases e <;> rw [Expr.substitute] <;> rfl

/-- Parameters that correspond are copied back to variables, which then correspond. -/
theorem Trail.PassesBack.linked (h : t.PassesBack S (pairs.map σ.passed) t')
    (hm : Linked S S' (Pairs R image D) t u) (hσ : σ.Moves image)
    (hps : ∀ pair ∈ pairs, pair.1.modifiers.byReference = true → R pair.1.root pair.1.root)
    (hxs : Assignable S S' R Top image D (targets pairs)) : ∃ u', u.PassesBack S' pairs u' ∧
      Linked S S' (Pairs R image (D ++ (targets pairs).flatMap whole)) t' u' := by
  induction pairs generalizing t u D with
  | nil =>
    obtain rfl : t' = t := h
    exact ⟨u, rfl, hm.mono (pairs_mono (by simp [targets]))⟩
  | cons pair pairs ih =>
    obtain ⟨p, e⟩ := pair
    obtain ⟨t₁, hfirst, h⟩ := h
    have htargets : targets ((p, e) :: pairs) =
        (if p.modifiers.byReference then e.read?.toList else []) ++ targets pairs := rfl
    rw [htargets] at hxs ⊢
    obtain ⟨hp, hps⟩ := forall_mem_cons.1 hps
    by_cases href : p.modifiers.byReference = true
    · rw [if_pos href] at hfirst hxs ⊢
      obtain ⟨y, hy, hstore⟩ := hfirst
      rw [read?_substitute] at hy
      obtain ⟨x, hx, rfl⟩ := Option.map_eq_some_iff.1 hy
      rw [hx, Option.toList_some, singleton_append] at hxs ⊢
      have hload : t.memory.load S.key p = u.memory.load S'.key p :=
        load_like (Variable.Like.refl p) (hm.load (.inl (hp href)))
      rw [hload] at hstore
      obtain ⟨u₁, hu₁, hm₁⟩ := hm.write hσ (hxs.sub (by simp) (by simp) (by simp)) hstore
      obtain ⟨u', hu', hm'⟩ := ih h hm₁ hps (hxs.sub (by simp) (by simp) (by simp))
      exact ⟨u', ⟨u₁, by rw [if_pos href]; exact ⟨x, hx, hu₁⟩, hu'⟩, hm'.mono (pairs_mono (by simp))⟩
    · rw [if_neg href] at hfirst hxs ⊢
      obtain rfl := hfirst
      obtain ⟨u', hu', hm'⟩ := ih h hm hps hxs
      exact ⟨u', ⟨u, by rw [if_neg href], hu'⟩, hm'⟩

end Arguments

theorem Trail.Keeps.linked {slot : Option Variable} (h : t.Keeps S (result.map σ.var) slot t')
    (hm : Linked S S' (Pairs R image D) t u) (hσ : σ.Moves image)
    (hslot : ∀ p ∈ slot, R p.root p.root)
    (hxs : Assignable S S' R Top image D (keptIn result slot)) : ∃ u', u.Keeps S' result slot u' ∧
      Linked S S' (Pairs R image (D ++ (keptIn result slot).flatMap whole)) t' u' := by
  cases slot with
  | none =>
    have ht' : t' = t := by cases result <;> exact h
    subst ht'
    exact ⟨u, by cases result <;> rfl, hm.mono (pairs_mono (by simp [keptIn]))⟩
  | some p =>
    cases result with
    | none =>
      obtain rfl : t' = t := h
      exact ⟨u, rfl, hm.mono (pairs_mono (by simp [keptIn]))⟩
    | some x =>
      have hload : t.memory.load S.key p = u.memory.load S'.key p :=
        load_like (Variable.Like.refl p) (hm.load (.inl (hslot p rfl)))
      have hstore : t.store S (σ.var x) (u.memory.load S'.key p) = .ok t' := hload ▸ h
      exact hm.write hσ hxs hstore

variable (S S') in
/-- Runs of the routine can be followed on the other side, from the parameters that are given to the
cells that are consulted afterwards. -/
def Steady (R : Slot → Slot → Prop) (calls : Routine → Trail κ → Trail κ → Prop)
    (calls' : Routine → Trail κ' → Trail κ' → Prop) (r : Routine) : Prop :=
  ∀ t t' u, Linked S S' (Pairs R id r.given) t u → calls r t t' →
    ∃ u', calls' r u u' ∧ Linked S S' (Pairs R id r.exits) t' u'

/-- Runs that leave some cells alone can be followed with those cells as part of the relation. -/
theorem Steady.frame (h : Steady S S' R calls calls' r) (hD : ∀ s ∈ D, R (image s) s ∨
      ((∀ t t', calls r t t' → t'.memory.get? (S.key (image s)) = t.memory.get? (S.key (image s))) ∧
        ∀ u u', calls' r u u' → u'.memory.get? (S'.key s) = u.memory.get? (S'.key s))) :
    Steady S S' (Pairs R image D) calls calls' r := by
  intro t t' u hm hcall
  obtain ⟨u', hcall', hm'⟩ := h t t' u (hm.mono fun a b hab ↦ hab.imp_left .inl) hcall
  refine ⟨u', hcall', fun {a b} hab ↦ ?_, hm'.log, hm'.events⟩
  rcases pairs_comm.le a b hab with hab | ⟨hb, rfl⟩
  · exact hm'.load hab
  · rcases hD b hb with hR | ⟨hleft, hright⟩
    · exact hm'.load (.inl hR)
    · calc t'.memory.load S.key (.slot (image b)) = t.memory.load S.key (.slot (image b)) :=
            load_congr (hleft t t' hcall)
        _ = u.memory.load S'.key (.slot b) := hm.load (.inl (.inr ⟨hb, rfl⟩))
        _ = u'.memory.load S'.key (.slot b) := (load_congr (hright u u' hcall')).symm

variable (S S') in
/-- What a call asks of the routine and of its arguments. -/
structure Callable (R Top : Slot → Slot → Prop) (calls : Routine → Trail κ → Trail κ → Prop)
    (calls' : Routine → Trail κ' → Trail κ' → Prop) (r : Routine) (arguments : List Expr) :
    Prop where
  steady : Steady S S' R calls calls' r
  given (s : Slot) (h : s ∈ r.given) : R s s ∨ s ∈ filled (r.parameters.zip arguments)
  parameters (p : Variable) (h : p ∈ r.parameters) : Writable S S' R Top id p
  formals (x : Variable) (h : x ∈ r.formals) : Top x.root x.root

theorem Routine.mem_exits_of_parameter (hp : p ∈ r.parameters)
    (href : p.modifiers.byReference = true) : p.root ∈ r.exits :=
  mem_append_left _ (mem_map_of_mem (mem_filter.2 ⟨hp, href⟩))

theorem Routine.mem_exits_of_slot (hp : p ∈ r.returnSlot) : p.root ∈ r.exits :=
  mem_append_right _ (mem_map_of_mem (Option.mem_toList.2 hp))

theorem Routine.exists_formal (h : s ∈ r.exits) : ∃ x ∈ r.formals, x.root = s := by
  rcases mem_append.1 h with h | h
  · obtain ⟨p, hp, rfl⟩ := mem_map.1 h
    exact ⟨p, mem_append_left _ (mem_filter.1 hp).1, rfl⟩
  · obtain ⟨p, hp, rfl⟩ := mem_map.1 h
    exact ⟨p, mem_append_right _ hp, rfl⟩

theorem exists_parameter_of_mem_filled (h : s ∈ filled (ps.zip es)) : ∃ p ∈ ps, p.root = s := by
  obtain ⟨⟨p, e⟩, hmem, hs⟩ := mem_flatMap.1 h
  refine ⟨p, (of_mem_zip hmem).1, ?_⟩
  simp only at hs
  split at hs
  · cases hs
  · rw [eq_of_mem_whole hs]
    rfl

/-- A call in renamed code ends as the call in the original does. -/
theorem Trail.Concludes.linked (h : t.Concludes S r (Expr.substituteAll σ es) (result.map σ.var) t')
    (hm : Linked S S' (Pairs R image D) t u) (hS : S.Alike S') (hσ : σ.Moves image)
    (hR : ∀ s ∈ r.exits, R s s) (hxs : Assignable S S' R Top image D
      (targets (r.parameters.zip es) ++ keptIn result r.returnSlot)) :
    ∃ u', u.Concludes S' r es result u' ∧ Linked S S' (Pairs R image
      (D ++ (targets (r.parameters.zip es) ++ keptIn result r.returnSlot).flatMap whole))
      t' u' := by
  have hparameters (pair : Variable × Expr) (hpair : pair ∈ r.parameters.zip es)
      (href : pair.1.modifiers.byReference = true) : R pair.1.root pair.1.root :=
    hR _ (Routine.mem_exits_of_parameter (of_mem_zip hpair).1 href)
  have hslot (p : Variable) (hp : p ∈ r.returnSlot) : R p.root p.root :=
    hR _ (Routine.mem_exits_of_slot hp)
  rw [Trail.Concludes, zip_substituteAll] at h
  obtain ⟨t₁, h⟩ := h
  by_cases hearly : S.early r = true
  · rw [if_pos hearly] at h
    have hearly' : S'.early r = true := by rw [← hS.early, hearly]
    obtain ⟨u₁, hkeep, hm₁⟩ := h.1.linked hm hσ hslot (hxs.sub (by simp) (by simp) (by simp))
    obtain ⟨u', hback, hm₂⟩ :=
      h.2.linked hm₁ hσ hparameters (hxs.sub (by simp) (by simp) (by grind))
    exact ⟨u', ⟨u₁, by rw [if_pos hearly']; exact ⟨hkeep, hback⟩⟩, hm₂.mono (pairs_mono (by grind))⟩
  · rw [if_neg hearly] at h
    have hearly' : ¬ S'.early r = true := by rwa [← hS.early]
    obtain ⟨u₁, hback, hm₁⟩ :=
      h.1.linked hm hσ hparameters (hxs.sub (by simp) (by simp) (by simp))
    obtain ⟨u', hkeep, hm₂⟩ := h.2.linked hm₁ hσ hslot (hxs.sub (by simp) (by simp) (by grind))
    exact ⟨u', ⟨u₁, by rw [if_neg hearly']; exact ⟨hback, hkeep⟩⟩, hm₂.mono (pairs_mono (by grind))⟩

/-- A call in renamed code does what the call in the original does. -/
theorem Trail.Calls.linked
    (h : t.Calls S calls (.routine r) (Expr.substituteAll σ es) (result.map σ.var) t')
    (hm : Linked S S' (Pairs R image D) t u) (hS : S.Alike S') (hσ : σ.Moves image)
    (hr : Callable S S' (Pairs R image D) Top calls calls' r es)
    (hreads : ∀ x ∈ passed (r.parameters.zip es), Pairs R image D (image x.root) x.root)
    (hxs : Assignable S S' R Top image D
      (targets (r.parameters.zip es) ++ keptIn result r.returnSlot)) :
    ∃ u', u.Calls S' calls' (.routine r) es result u' ∧ Linked S S' (Pairs R image
      (D ++ (targets (r.parameters.zip es) ++ keptIn result r.returnSlot).flatMap whole))
      t' u' := by
  obtain ⟨t₁, t₂, hpass, hcall, hend⟩ := h
  have hTopFormals (a b : Slot) (hab : a = id b ∧ ∃ x ∈ r.formals, x.root = b) : Top a b := by
    obtain ⟨rfl, x, hx, rfl⟩ := hab
    exact hr.formals x hx
  rw [zip_substituteAll] at hpass
  obtain ⟨u₁, hpass', hm₁⟩ := hpass.linked hm hσ hreads
    (fun pair hpair ↦ hr.parameters pair.1 (of_mem_zip hpair).1) fun a b hab ↦ by
    rcases hab with hab | ⟨hb, ha⟩
    · exact hxs.top a b (pairs_mono (subset_append_left _ _) a b hab)
    · obtain ⟨p, hp, hroot⟩ := exists_parameter_of_mem_filled hb
      exact hTopFormals a b ⟨ha, p, mem_append_left _ hp, hroot⟩
  have hm₁' : Linked S S' (Pairs (Pairs R image D) id r.given) t₁ u₁ := hm₁.mono fun a b hab ↦ by
    rcases hab with hab | ⟨hb, ha⟩
    · exact .inl hab
    · obtain rfl : a = b := ha
      exact (hr.given a hb).imp_right fun hb ↦ ⟨hb, rfl⟩
  obtain ⟨u₂, hcall', hm₂⟩ := hr.steady t₁ t₂ u₁ hm₁' hcall
  -- the cells that are consulted now are part of the relation until the call has ended
  rw [pairs_comm] at hm₂
  obtain ⟨u', hend', hm'⟩ := hend.linked hm₂ hS hσ (fun s hs ↦ .inr ⟨hs, rfl⟩)
    ⟨fun x hx ↦ (hxs.each x hx).mono fun a b hab ↦ hab.imp_left .inl, fun a b hab ↦ by
      rcases pairs_comm.le a b hab with hab | ⟨hb, ha⟩
      · exact hxs.top a b hab
      · exact hTopFormals a b ⟨ha, Routine.exists_formal hb⟩⟩
  exact ⟨u', ⟨u₁, u₂, hpass', hcall', hend'⟩, hm'.mono fun a b hab ↦ hab.imp_left .inl⟩

/-! ### Statements -/

section Mentions

variable {s : Stmt}

theorem Expr.Within.of_reads (he : e.Within V) (hx : x ∈ e.reads) : V.var x := by
  refine (e.within_iff.1 he).visit (fun e he x hx ↦ ?_)
    (fun s _ x hx ↦ absurd hx (by simp [readVisitor])) x hx
  cases e
  case read =>
    obtain rfl := mem_singleton.1 hx
    exact he.2
  case step | assign =>
    obtain rfl := mem_singleton.1 hx
    exact he
  all_goals cases hx

theorem Expr.Within.eval_of_read? {key : Slot → κ} {m : Memory κ}
    (he : e.Within V) (hx : e.read? = some x) : e.eval key m = .ok (m.load key x) := by
  cases e <;> simp only [read?, reduceCtorEq, Option.some.injEq] at hx
  rw [eval_read he.1, hx]

theorem Expr.AllWithin.of_allReads (hes : Expr.AllWithin V es) (hx : x ∈ allReads es) :
    V.var x := by
  induction es with
  | nil => cases hx
  | cons e rest ih =>
    rcases mem_append.1 hx with hx | hx
    · exact hes.1.of_reads hx
    · exact ih hes.2 hx

/-- A statement reads variables that it mentions. -/
theorem Stmt.Settled.var_of_loads (hs : s.Settled V) (hx : x ∈ s.loads) : V.var x := by
  cases s
  case define | assign | gotoIf => exact hs.2.of_reads hx
  case retValue span value => exact Within.of_reads (e := value) hs hx
  case call span callee es result =>
    cases callee with
    | builtin b type => exact hs.2.1.of_allReads hx
    | routine r =>
      obtain ⟨⟨p, a⟩, hmem, hx⟩ := mem_flatMap.1 hx
      simp only at hx
      split at hx
      · cases hx
      · exact (Expr.allWithin_iff.1 hs.2.1 a (of_mem_zip hmem).2).of_reads hx
  all_goals cases hx

theorem Expr.AllWithin.var_of_targets (hes : Expr.AllWithin V es) (hx : x ∈ targets (ps.zip es)) :
    V.var x := by
  obtain ⟨⟨p, a⟩, hmem, hx⟩ := mem_flatMap.1 hx
  simp only at hx
  split at hx
  · exact (Expr.allWithin_iff.1 hes a (of_mem_zip hmem).2).of_read? (Option.mem_toList.1 hx)
  · cases hx

theorem mem_of_mem_keptIn {slot : Option Variable} (hx : x ∈ keptIn result slot) : x ∈ result := by
  rw [keptIn] at hx
  split at hx
  · exact Option.mem_toList.1 hx
  · cases hx

/-- A statement stores to variables that it mentions. -/
theorem Stmt.Settled.var_of_stores (hs : s.Settled V) (hx : x ∈ s.stores) : V.var x := by
  cases s
  case define | assign =>
    obtain rfl := mem_singleton.1 hx
    exact hs.1
  case call span callee es result =>
    cases callee with
    | builtin b type => exact hs.2.2 x (Option.mem_toList.1 hx)
    | routine r =>
      rcases mem_append.1 hx with hx | hx
      · exact hs.2.1.var_of_targets hx
      · exact hs.2.2 x (mem_of_mem_keptIn hx)
  all_goals cases hx

theorem Stmt.Settled.var_of_assigned {y : Slot} (hs : s.Settled V) (hy : y ∈ s.assigned) :
    V.var (.slot y) := by
  obtain ⟨x, hx, hy⟩ := mem_flatMap.1 hy
  rw [← eq_of_mem_whole hy]
  exact hs.var_of_stores hx

end Mentions

/-- Where control goes, with the labels of renamed code. -/
def Turn.rename (f : Label → Label) : Turn → Turn
  | .next => .next
  | .jump l => .jump (f l)
  | .fork l => .fork (f l)
  | .stop => .stop

variable (S S') in
/-- What a statement asks of the cells that correspond before it. -/
structure Stmt.Ready (R Top : Slot → Slot → Prop) (image : Slot → Slot)
    (calls : Routine → Trail κ → Trail κ → Prop) (calls' : Routine → Trail κ' → Trail κ' → Prop)
    (s : Stmt) : Prop where
  loads (x : Variable) (h : x ∈ s.loads) : R (image x.root) x.root
  stores (x : Variable) (h : x ∈ s.stores) : Writable S S' R Top image x
  calls {span : Span} {r : Routine} {arguments : List Expr} {result : Option Variable}
    (h : s = .call span (.routine r) arguments result) :
    Callable S S' R Top calls calls' r arguments

/-- A renamed statement does what the original does, unless it is a return. -/
theorem Stmt.Acts.linked {s : Stmt} {routine routine' : Routine}
    (h : (s.substitute σ).Acts S calls routine' t c t') (hs : s.Settled V)
    (hreturn : ¬ Leaves [s]) (hm : Linked S S' (Pairs R image D) t u) (hσ : σ.Moves image)
    (hroutine : ∀ r, σ.routine r = r) (hS : S.Alike S')
    (hready : s.Ready S S' (Pairs R image D) Top image calls calls')
    (hTop : Pairs R image (D ++ s.assigned) ≤ Top) :
    ∃ c' u', s.Acts S' calls' routine u c' u' ∧ c = c'.rename σ.label ∧
      Linked S S' (Pairs R image (D ++ s.assigned)) t' u' := by
  have hsame {t' : Trail κ} {u' : Trail κ'} (hm : Linked S S' (Pairs R image D) t' u') :
      s.assigned = [] → Linked S S' (Pairs R image (D ++ s.assigned)) t' u' := by
    intro hnil
    rwa [hnil, append_nil]
  cases s <;> rw [Stmt.substitute] at h
  case define | assign =>
    obtain ⟨rfl, v, hv, hstore⟩ := h
    obtain ⟨u', hu', hm'⟩ := hm.write hσ ⟨hready.stores, hTop⟩ hstore
    exact ⟨.next, u', ⟨rfl, v, (hm.eval hσ hready.loads).1 hv, hu'⟩, rfl, hm'⟩
  case call span callee es result =>
    obtain ⟨rfl, h⟩ := h
    cases callee with
    | routine r =>
      rw [Substitution.callee, hroutine] at h
      obtain ⟨u', hu', hm'⟩ := h.linked hm hS hσ (hready.calls rfl) hready.loads ⟨hready.stores, hTop⟩
      exact ⟨.next, u', ⟨rfl, hu'⟩, rfl, hm'⟩
    | builtin b type =>
      obtain ⟨evaluator, values, value, hevaluator, hvalues, hvalue, h⟩ := h
      have hvalues' := (hm.evalAll hσ hready.loads).1 hvalues
      cases result with
      | none =>
        obtain rfl : t' = t := h
        exact ⟨.next, u, ⟨rfl, evaluator, values, value, hevaluator, hvalues', hvalue, rfl⟩, rfl,
          hsame hm rfl⟩
      | some x =>
        obtain ⟨u', hu', hm'⟩ := hm.write hσ ⟨hready.stores, hTop⟩ h
        exact ⟨.next, u', ⟨rfl, evaluator, values, value, hevaluator, hvalues', hvalue, hu'⟩, rfl,
          hm'⟩
  case goto span target =>
    obtain ⟨rfl, rfl⟩ := h
    exact ⟨.jump target, u, ⟨rfl, rfl⟩, rfl, hsame hm rfl⟩
  case gotoIf span target condition sense =>
    obtain ⟨v, hv, rfl, rfl⟩ := h
    refine ⟨_, u, ⟨v, (hm.eval hσ hready.loads).1 hv, rfl, rfl⟩, ?_, hsame hm rfl⟩
    split <;> rfl
  case gotoOn span target event arguments =>
    obtain ⟨rfl, rfl⟩ := h
    refine ⟨_, { u with events := u.events + 1 }, ⟨rfl, rfl⟩, ?_,
      hsame ⟨hm.load, hm.log, congrArg (· + 1) hm.events⟩ rfl⟩
    rw [hS.fires, hm.events]
    split <;> rfl
  case rollback =>
    obtain ⟨rfl, rfl⟩ := h
    exact ⟨.stop, u, ⟨rfl, rfl⟩, rfl, hsame hm rfl⟩
  case declare | label | hint | nop =>
    obtain ⟨rfl, rfl⟩ := h
    exact ⟨.next, u, ⟨rfl, rfl⟩, rfl, hsame hm rfl⟩
  case ret | retValue => exact absurd trivial hreturn
  all_goals exact hs.elim

/-! ### Runs of the same code -/

theorem Substitution.moves_empty : Substitution.Moves {} id := fun x ↦ ⟨Variable.Like.refl x, rfl⟩

namespace Stmt

variable {s : Stmt}

/-- A path from one place in the code to another, with what has been assigned before and after. -/
structure Path (code : List Stmt) (given : List Slot) (rest : List Stmt) (D : List Slot)
    (rest' : List Stmt) (D' : List Slot) : Prop where
  leads : Leads code rest rest'
  arrives : Arrives code given rest' D'
  grows : D ⊆ D'

theorem Path.refl (h : Arrives code given rest D) : Path code given rest D rest D :=
  ⟨.refl, h, List.Subset.refl D⟩

/-- A path that goes on after a first step. -/
theorem Path.of_step {E : List Slot} (h : Path code given mid (D ++ E) rest' D')
    (hstep : Leads code rest mid) : Path code given rest D rest' D' :=
  ⟨hstep.trans h.leads, h.arrives, List.Subset.trans (subset_append_left D E) h.grows⟩

end Stmt

section Turns

variable {s : Stmt} {there : List Stmt}

/-- The statements after which control takes the turn. -/
def Turn.After (s : Stmt) : Turn → Prop
  | .next => s.endsFlow = false
  | .jump l => s.goesTo? = some l
  | .fork l => ∃ span event arguments, s = .gotoOn span l event arguments
  | .stop => ∀ rest, Leaves (s :: rest) ∨ RollsBack (s :: rest)

theorem Stmt.Acts.after (h : s.Acts S calls r t c t') : c.After s := by
  cases s
  case gotoIf =>
    obtain ⟨v, -, rfl, -⟩ := h
    split <;> rfl
  case gotoOn =>
    obtain ⟨rfl, -⟩ := h
    split
    · exact ⟨_, _, _, rfl⟩
    · rfl
  case ret | retValue =>
    obtain ⟨rfl, -⟩ := h
    exact fun _ ↦ .inl trivial
  case rollback =>
    obtain ⟨rfl, -⟩ := h
    exact fun _ ↦ .inr trivial
  case block | compound | ifThen | ifElse | whileLoop | doWhile | on | expression => exact h.elim
  all_goals
    obtain ⟨rfl, -⟩ := h
    rfl

theorem Stmt.Acts.endsFlow (h : s.Acts S calls r t .next t') : s.endsFlow = false := h.after

theorem Stmt.Acts.target? (h : s.Acts S calls r t (.jump l) t') : s.target? = some l :=
  target?_of_goesTo? h.after

theorem Stmt.Acts.leads_jump (h : s.Acts S calls r t (.jump l) t')
    (hthere : from? l code = some there) : Leads code (s :: rest) there :=
  .jump .refl h.after hthere

/-- Only an event interrupts a run. -/
theorem Stmt.Acts.eq_gotoOn (h : s.Acts S calls r t (.fork l) t') :
    ∃ span event arguments, s = .gotoOn span l event arguments := h.after

theorem Stmt.Acts.ends (h : s.Acts S calls r t .stop t') :
    Leaves (s :: rest) ∨ RollsBack (s :: rest) := h.after rest

end Turns

/-- The slots that a return assigns. -/
def Routine.answered (r : Routine) : List Stmt → List Slot
  | .retValue _ _ :: _ => r.returnSlot.toList.flatMap whole
  | _ => []

theorem Linked.answer (hm : Linked S S' R t u)
    (hσ : σ.Moves image) (hreads : ∀ x ∈ e.reads, R (image x.root) x.root) :
    (e.substitute σ).answer S t.memory = e.answer S' u.memory := by
  have heval (v : Value) := hm.eval (v := v) hσ hreads
  rw [Expr.answer, Expr.answer]
  rcases h : (e.substitute σ).eval S.key t.memory with fault | v
  · rcases h' : e.eval S'.key u.memory with fault' | v'
    · rfl
    · rw [(heval v').2 h'] at h
      cases h
  · rw [(heval v).1 h]

variable (S S') in
/-- What a run of a body asks, wherever a path through it can be. -/
structure Traceable (R Top : Slot → Slot → Prop)
    (calls : Routine → Trail κ → Trail κ → Prop) (calls' : Routine → Trail κ' → Trail κ' → Prop)
    (r : Routine) (code : List Stmt) (given : List Slot) : Prop where
  ready {s : Stmt} {rest : List Stmt} {D : List Slot} (h : Arrives code given (s :: rest) D) :
    s.Ready S S' (Pairs R id D) Top id calls calls'
  top {rest : List Stmt} {D : List Slot} (h : Arrives code given rest D) :
    Pairs R id D ≤ Top
  slot (p : Variable) (h : p ∈ r.returnSlot) : Writable S S' R Top id p ∧ Top p.root p.root

theorem Turn.rename_id (c : Turn) : c.rename id = c := by cases c <;> rfl

/-- A statement does the same on both sides, unless it is a return. -/
theorem Stmt.Acts.linked_same {s : Stmt} (h : s.Acts S calls r t c t') (hs : s.Settled V)
    (hreturn : ¬ Leaves [s]) (hm : Linked S S' (Pairs R id D) t u) (hS : S.Alike S')
    (hready : s.Ready S S' (Pairs R id D) Top id calls calls')
    (hTop : Pairs R id (D ++ s.assigned) ≤ Top) :
    ∃ u', s.Acts S' calls' r u c u' ∧ Linked S S' (Pairs R id (D ++ s.assigned)) t' u' := by
  rw [← s.substitute_empty] at h
  obtain ⟨c', u', hacts, hc, hm'⟩ := h.linked hs hreturn hm Substitution.moves_empty
    (fun _ ↦ rfl) hS hready hTop
  rw [show c = c' from hc.trans c'.rename_id]
  exact ⟨u', hacts, hm'⟩

theorem Stmt.Acts.not_leaves {s : Stmt} (h : s.Acts S calls r t c t') (hc : c ≠ .stop) :
    ¬ Leaves [s] := by
  intro hleaves
  cases s
  case ret | retValue => exact hc h.1
  all_goals exact hleaves

/-- A return gives the same value on both sides. -/
theorem Stmt.Acts.linked_leaves {s : Stmt} (h : s.Acts S calls r t .stop t')
    (hleaves : Leaves [s]) (hm : Linked S S' (Pairs R id D) t u)
    (hloads : ∀ x ∈ s.loads, Pairs R id D x.root x.root)
    (hslot : ∀ p ∈ r.returnSlot, Writable S S' R Top id p)
    (hTop : Pairs R id (D ++ r.answered [s]) ≤ Top) :
    ∃ u', s.Acts S' calls' r u .stop u' ∧ Linked S S' (Pairs R id (D ++ r.answered [s])) t' u' := by
  cases s
  case ret =>
    obtain ⟨-, rfl⟩ := h
    exact ⟨u, ⟨rfl, rfl⟩, hm.mono (pairs_mono (by simp [Routine.answered]))⟩
  case retValue span value =>
    obtain ⟨-, h⟩ := h
    have hanswer : value.answer S t.memory = value.answer S' u.memory := by
      have h := hm.answer Substitution.moves_empty (e := value) hloads
      rwa [value.substitute_empty] at h
    simp only [Routine.answered] at hTop ⊢
    rcases hreturn : r.returnSlot with - | p <;> simp only [hreturn] at h hTop
    · subst h
      exact ⟨u, ⟨rfl, by simp [hreturn]⟩, hm.mono (pairs_mono (by simp))⟩
    · rw [hanswer] at h
      obtain ⟨u', hu', hm'⟩ := hm.write Substitution.moves_empty (x := p)
        ⟨by simpa using (hslot p hreturn).mono fun _ _ ↦ .inl, hTop⟩ h
      exact ⟨u', ⟨rfl, by simpa only [hreturn] using hu'⟩, hm'⟩
  all_goals exact hleaves.elim

theorem Stmt.Acts.rollback_of_not_leaves {s : Stmt} (h : s.Acts S calls r t .stop t')
    (hleaves : ¬ Leaves [s]) : s.assigned = [] ∧ r.answered (s :: rest) = [] := by
  have hends : Leaves [s] ∨ RollsBack [s] := h.ends
  cases s
  case rollback => exact ⟨rfl, rfl⟩
  all_goals exact absurd hends (by simpa [RollsBack] using hleaves)

theorem Routine.exists_slot_of_mem_answered (h : s ∈ r.answered rest) :
    ∃ p ∈ r.returnSlot, p.root = s := by
  unfold Routine.answered at h
  split at h
  · obtain ⟨p, hp, hs⟩ := mem_flatMap.1 h
    refine ⟨p, Option.mem_toList.1 hp, ?_⟩
    rw [eq_of_mem_whole hs]
    rfl
  · cases h

/-- A run of a body can be followed on the other side. Where it ends, everything corresponds that has
been assigned on the way. -/
theorem Goes.linked {n : Nat} (h : Goes (Stmt.Acts S calls r) code n rest t t')
    (hcode : AllSettled V code) (hS : S.Alike S')
    (hsound : Traceable S S' R Top calls calls' r code given) (hrest : rest <:+ code)
    (harrives : Arrives code given rest D) (hm : Linked S S' (Pairs R id D) t u) :
    ∃ u' rest' D', Goes (Stmt.Acts S' calls' r) code n rest u u' ∧
      Path code given rest D rest' D' ∧ (Leaves rest' ∨ RollsBack rest') ∧
      Linked S S' (Pairs R id (D' ++ r.answered rest')) t' u' := by
  have hsettled {s : Stmt} {rest : List Stmt} (hrest : s :: rest <:+ code) : s.Settled V :=
    hcode s (hrest.subset (.head _))
  induction h generalizing D u with
  | done t =>
    refine ⟨u, [], D, .done u, .refl harrives, .inl trivial, ?_⟩
    exact hm.mono (pairs_mono (by simp [Routine.answered]))
  | @next n s rest t t₁ t' hs _ ih =>
    have hnext := harrives.next hs.endsFlow
    obtain ⟨u₁, hs', hm₁⟩ := hs.linked_same (hsettled hrest) (hs.not_leaves (by simp)) hm hS
      (hsound.ready harrives) (hsound.top hnext)
    obtain ⟨u', rest', D', hgo, hpath, hends, hm'⟩ :=
      ih ((suffix_cons _ _).trans hrest) hnext hm₁
    exact ⟨u', rest', D', .next hs' hgo, hpath.of_step (.next .refl hs.endsFlow), hends, hm'⟩
  | @stop s rest t t' hs =>
    by_cases hleaves : Leaves [s]
    · have hanswered : r.answered (s :: rest) = r.answered [s] := by cases s <;> rfl
      have hTop : Pairs R id (D ++ r.answered [s]) ≤ Top := fun a b hab ↦ by
        rcases pairs_append.le a b hab with hab | ⟨hb, ha⟩
        · exact hsound.top harrives a b hab
        · obtain rfl : a = b := ha
          obtain ⟨p, hp, rfl⟩ := Routine.exists_slot_of_mem_answered hb
          exact (hsound.slot p hp).2
      obtain ⟨u', hs', hm'⟩ := hs.linked_leaves hleaves hm (hsound.ready harrives).loads
        (fun p hp ↦ (hsound.slot p hp).1) hTop
      exact ⟨u', s :: rest, D, .stop hs', .refl harrives, hs.ends, hanswered ▸ hm'⟩
    · have hassigned : s.assigned = [] ∧ r.answered (s :: rest) = [] := hs.rollback_of_not_leaves hleaves
      obtain ⟨u', hs', hm'⟩ := hs.linked_same (hsettled hrest) hleaves hm hS
        (hsound.ready harrives) (by
          rw [hassigned.1, append_nil]
          exact hsound.top harrives)
      refine ⟨u', s :: rest, D, .stop hs', .refl harrives, hs.ends, ?_⟩
      rw [hassigned.2]
      rwa [hassigned.1] at hm'
  | @jump n s rest there t t₁ t' l hs hthere _ ih =>
    have hjump := harrives.jump hs.target? hthere
    obtain ⟨u₁, hs', hm₁⟩ := hs.linked_same (hsettled hrest) (hs.not_leaves (by simp)) hm hS
      (hsound.ready harrives) (hsound.top hjump)
    obtain ⟨u', rest', D', hgo, hpath, hends, hm'⟩ := ih (from?_suffix hthere) hjump hm₁
    exact ⟨u', rest', D', .jump hs' hthere hgo, hpath.of_step (hs.leads_jump hthere), hends, hm'⟩
  | @fork n n' s rest there t t₁ t₂ t' l hs hthere _ _ ihevent ihrest =>
    -- the code of the event keeps what was assigned before it, and control goes on from there
    have hevent : s.endsFlow = false ∧ s.target? = some l := by
      obtain ⟨-, event, -, rfl⟩ := hs.eq_gotoOn
      exact ⟨rfl, rfl⟩
    have hjump := harrives.jump hevent.2 hthere
    obtain ⟨u₁, hs', hm₁⟩ := hs.linked_same (hsettled hrest) (hs.not_leaves (by simp)) hm hS
      (hsound.ready harrives) (hsound.top hjump)
    obtain ⟨u₂, rest₂, D₂, hgo₂, hpath₂, -, hm₂⟩ := ihevent (from?_suffix hthere) hjump hm₁
    obtain ⟨u', rest', D', hgo, hpath, hends, hm'⟩ :=
      ihrest ((suffix_cons _ _).trans hrest) (harrives.next hevent.1)
        (hm₂.mono (pairs_mono fun s hs ↦ mem_append_left _ (hpath₂.grows hs)))
    exact ⟨u', rest', D', .fork hs' hthere hgo₂ hgo, hpath.of_step (.next .refl hevent.1), hends,
      hm'⟩

end Wirescript
