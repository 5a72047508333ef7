import Wirescript.Proofs.Unobserved

/-!
# Extracted bodies run in order

A flat body whose expressions are evaluated from left to right, and the body that extraction makes
of it, leave the same memory. Here the body asks for no old value after a count, other than in a
statement that is nothing but the count: so nothing is owed, and no count is disturbed.
-/

namespace Wirescript

open Memory (storageKey)
open Build (read float binary assign)
open Wirescript.Expr

variable {callee : Callee} {e : Expr} {arguments : List Expr} {body : Stmt}

variable {κ : Type} [DecidableEq κ]

/-! ### Bodies that effects can be extracted from -/

/-- The expression is well typed, its notes are derived from its parts and its effects can be put in
order. -/
structure Expr.Extractable (S : Frame κ) (e : Expr) : Prop where
  typed : e.WellTyped S.key S.types S.callable
  derived : e.Derived
  orderly : e.Orderly S.key

/-- The call can be made by a statement, whether or not it has a result. -/
structure Callee.Extractable (S : Frame κ) (callee : Callee) (arguments : List Expr) : Prop where
  typed : AllWellTyped S.key S.types S.callable arguments
  derived : AllDerived arguments
  orderly : AllOrderly S.key arguments
  admits : callee.Admits S.key S.types S.callable arguments
  order : callee.TakesInOrder S.key arguments

/-- The effects of the statement can be extracted. As a statement of its own, a count may yield the
old value and a call need not have a result. -/
def Stmt.Extractable (S : Frame κ) : Stmt → Prop
  | .define _ _ x value | .assign _ x value =>
    x.Typed S.key S.types ∧ value.type = x.type ∧ value.Extractable S
  | .gotoIf _ _ condition _ => condition.Extractable S
  | .retValue _ value =>
    value.Extractable S ∧
      ∀ slot ∈ S.routine.returnSlot, slot.Typed S.key S.types ∧ value.type = slot.type
  | .call _ callee arguments result =>
    callee.Extractable S arguments ∧
      ∀ x ∈ result, x.Typed S.key S.types ∧ x.type = callee.returnType ∧
        callee.Returns S.key S.types
  | .expression _ (.step _ x _ _) => x.Typed S.key S.types ∧ x.type = .float
  | .expression _ (.call _ callee arguments) => callee.Extractable S arguments
  | .expression _ e => e.Extractable S
  | .declare .. | .label .. | .goto .. | .rollback .. | .ret _ | .hint .. | .nop _ => True
  | .block .. | .compound .. | .ifThen .. | .ifElse .. | .whileLoop .. | .doWhile .. | .on ..
  | .gotoOn .. => False

variable {S : Frame κ}

/-! ### Nothing is owed -/

mutual

theorem Expr.Orderly.splittable {e : Expr} (h : e.Orderly S.key) : e.Splittable S.key := by
  match e with
  | .literal .. => trivial
  | .read .. => exact h
  | .step .. => exact h.1
  | .unary _ _ operand | .convert _ operand => exact Orderly.splittable (e := operand) h
  | .binary .. => exact ⟨Orderly.splittable h.1, Orderly.splittable h.2⟩
  | .make .. =>
    exact ⟨Orderly.splittable h.1, Orderly.splittable h.2.1, Orderly.splittable h.2.2⟩
  | .call .. => exact ⟨AllOrderly.splittable h.1, h.2⟩
  | .assign .. => exact ⟨h.1, Orderly.splittable h.2⟩
  | .segment .. | .compound .. | .error _ | .statement .. => exact h.elim

theorem Expr.AllOrderly.splittable {es : List Expr} (h : AllOrderly S.key es) :
    AllSplittable S.key es := by
  match es with
  | [] => trivial
  | e :: rest => exact ⟨Orderly.splittable h.1, AllOrderly.splittable h.2⟩

end

mutual

theorem Expr.Orderly.pending {e : Expr} (h : e.Orderly S.key) : e.pending = [] := by
  match e with
  | .literal .. | .read .. | .assign .. => simp [Expr.pending]
  | .step .. => simp [Expr.pending, h.2]
  | .unary _ _ operand | .convert _ operand =>
    simp [Expr.pending, Orderly.pending (e := operand) h]
  | .binary .. => simp [Expr.pending, Orderly.pending h.1, Orderly.pending h.2]
  | .make .. =>
    simp [Expr.pending, Orderly.pending h.1, Orderly.pending h.2.1,
      Orderly.pending h.2.2]
  | .call .. => simp [Expr.pending, AllOrderly.allPending h.1]
  | .segment .. | .compound .. | .error _ | .statement .. => exact h.elim

theorem Expr.AllOrderly.allPending {es : List Expr} (h : AllOrderly S.key es) :
    Expr.allPending es = [] := by
  match es with
  | [] => simp [Expr.allPending]
  | e :: rest => simp [Expr.allPending, Orderly.pending h.1, AllOrderly.allPending h.2]

end

theorem Expr.Orderly.owed (h : e.Orderly S.key) : e.owed = [] := by
  rw [Expr.owed, h.pending]
  cases e <;> first | rfl | simp [hasty, AllOrderly.allPending h.1]

theorem Callee.leavesAlone_nil (h : callee.Admits S.key S.types S.callable arguments) :
    callee.LeavesAlone S arguments [] := by
  rintro r rfl
  refine ⟨apart_nil _, apart_nil _, fun _ _ _ _ ↦ apart_nil _, fun _ _ _ k hk ↦ ?_,
    fun m m' μ hcalls hμ ↦ ?_⟩
  · exact absurd hk (counted_nil k)
  · obtain ⟨μ', hcalls', hμ', -⟩ :=
      S.unaware _ (fun k hk ↦ absurd hk (counted_nil k)) r h.1 m m' μ hcalls hμ
    exact ⟨μ', hcalls', hμ'⟩

mutual

theorem Expr.Orderly.unobserved {e : Expr} (h : e.Orderly S.key)
    (he : e.WellTyped S.key S.types S.callable) : e.Unobserved S := by
  match e with
  | .literal .. | .read .. | .step .. => trivial
  | .unary _ _ operand | .convert _ operand => exact Orderly.unobserved (e := operand) h he.1
  | .binary _ _ left right =>
    refine ⟨Orderly.unobserved h.1 he.1, Orderly.unobserved h.2 he.2.1, fun _ _ ↦ ?_⟩
    exact h.1.pending ▸ apart_nil _
  | .make .. =>
    refine ⟨Orderly.unobserved h.1 he.1, Orderly.unobserved h.2.1 he.2.1,
      Orderly.unobserved h.2.2 he.2.2.1, fun _ ↦ ?_, fun _ ↦ ?_⟩
    · exact h.1.pending ▸ apart_nil _
    · exact h.2.1.pending ▸ apart_nil _
  | .call .. =>
    refine ⟨AllOrderly.unobserved h.1 he.1, ?_⟩
    exact h.1.allPending ▸ Callee.leavesAlone_nil he.2.2.1
  | .assign .. => exact ⟨Orderly.unobserved h.2 he.1, h.2.owed ▸ apart_nil _⟩
  | .segment .. | .compound .. | .error _ | .statement .. => exact h.elim

theorem Expr.AllOrderly.unobserved {es : List Expr} (h : AllOrderly S.key es)
    (hes : AllWellTyped S.key S.types S.callable es) : AllUnobserved S es := by
  match es with
  | [] => trivial
  | e :: rest =>
    refine ⟨Orderly.unobserved h.1 hes.1, AllOrderly.unobserved h.2 hes.2, fun _ ↦ ?_⟩
    exact h.1.pending ▸ apart_nil _

end

theorem Expr.Extractable.separable (h : e.Extractable S) : e.Separable S ∧ e.Unobserved S :=
  ⟨⟨h.typed, h.derived, h.orderly.splittable⟩, h.orderly.unobserved h.typed⟩

theorem Callee.Extractable.separable (h : callee.Extractable S arguments) :
    callee.Separable S arguments ∧ AllUnobserved S arguments ∧
      callee.LeavesAlone S arguments (Expr.allPending arguments) :=
  ⟨⟨h.typed, h.derived, h.orderly.splittable, h.admits, h.order⟩, h.orderly.unobserved h.typed,
    h.orderly.allPending ▸ Callee.leavesAlone_nil h.admits⟩

theorem Stmt.Extractable.separable {s : Stmt} (h : s.Extractable S) :
    s.Separable S ∧ s.Unobserved S := by
  match s with
  | .define _ _ x value | .assign _ x value =>
    obtain ⟨hseparable, hunobserved⟩ := h.2.2.separable
    exact ⟨⟨h.1, h.2.1, hseparable⟩, hunobserved, h.2.2.orderly.owed ▸ apart_nil _⟩
  | .gotoIf _ _ condition _ => exact Expr.Extractable.separable (e := condition) h
  | .retValue _ value =>
    obtain ⟨hseparable, hunobserved⟩ := h.1.separable
    exact ⟨⟨hseparable, h.2⟩, hunobserved⟩
  | .call _ callee arguments result =>
    obtain ⟨hseparable, hunobserved, hleaves⟩ := h.1.separable
    exact ⟨⟨hseparable, h.2⟩, hunobserved, hleaves, h.1.orderly.allPending ▸ apart_nil _⟩
  | .expression _ e =>
    match e with
    | .step .. => exact ⟨h, trivial⟩
    | .call _ callee arguments => exact Callee.Extractable.separable h
    | .literal .. | .read .. | .unary .. | .binary .. | .make .. | .convert .. | .assign ..
    | .segment .. | .compound .. | .error _ | .statement .. => exact Expr.Extractable.separable h
  | .declare .. | .label .. | .goto .. | .rollback .. | .ret _ | .hint .. | .nop _ =>
    exact ⟨trivial, trivial⟩

/-- A run of a body that evaluates expressions from left to right is a run of the extracted body, up
to temporaries. -/
theorem Extracted.exists_runs {m M : Memory κ} (hbody : ∀ s ∈ body.flatten, s.Extractable S)
    (hskip : ∀ l ∈ Stmt.labels body.flatten, ¬ S.Skip l) (hm : m.Typed S.types)
    (h : Runs (Stmt.InOrder S.key S.calls S.routine) body.flatten body.flatten m M) :
    ∃ x M', extract S.routine body = .ok x ∧ M.Agrees (S.Hidden x.temporaries) M' ∧
      Runs S.step x.body.flatten x.body.flatten m M' := by
  obtain ⟨x, hx, hruns⟩ :=
    Extracted.exists_runs_of_unobserved (fun s hs ↦ (hbody s hs).separable.1) hskip
  obtain ⟨M', hM', hextracted⟩ := hruns m M (.inr ⟨fun s hs ↦ (hbody s hs).separable.2, hm, h⟩)
  exact ⟨x, M', hx, hM', hextracted⟩

/-- **Extraction keeps the order of effects.** A flat body whose effects can be extracted, and whose
labels are not among those that extraction makes up, is extracted. If it ends in some memory when
its expressions are evaluated from left to right, then so does the machine when it runs the
extracted body, unless it is stopped for having taken too many steps: the two memories differ in no
cell but those of the temporaries that were made up. -/
theorem Extracted.invoke_of_inOrder {κ : Type} [DecidableEq κ] (S : Frame κ) (body : Stmt)
    (hbody : ∀ s ∈ body.flatten, s.Extractable S)
    (hlabels : ∀ l ∈ Stmt.labels body.flatten, ∀ n, l ≠ .numbered S.routine.name "skip" n)
    (m M : Memory κ) (hm : m.Typed S.types)
    (h : Runs (Stmt.InOrder S.key S.calls S.routine) body.flatten body.flatten m M) :
    ∃ x, extract S.routine body = .ok x ∧ ∀ bodies : Bodies, bodies.get? S.routine = some x.body →
        (∀ r m m', S.calls r m m' → ∃ depth, Performs S.key bodies depth r m m') →
        ∃ least, ∀ limit ≥ least, ∃ M' steps,
          (Exec.invoke S.key limit bodies (limit + 1) S.routine).run { memory := m } =
            (.ok (), { memory := M', steps := steps }) ∧
          ∀ k, (∀ n < x.temporaries, ∀ t, k ≠ S.key (Extract.slot S.routine.id n t)) →
            M'.get? k = M.get? k := by
  have hskip (l : Label) (hl : l ∈ Stmt.labels body.flatten) : ¬ S.Skip l := by
    rintro ⟨n, hn⟩
    exact hlabels l hl n hn
  obtain ⟨x, M', hx, hM', hruns⟩ := Extracted.exists_runs hbody hskip hm h
  exact ⟨x, hx, fun bodies hbodies hcalls ↦ hruns.ends hM' hbodies hcalls⟩

/-! ### Cells by storage name -/

theorem Extract.storageKey_slot_inj {routine n n' : Nat} {t t' : Ty}
    (h : storageKey (Extract.slot routine n t) =
      storageKey (Extract.slot routine n' t')) : n = n' := by
  have hlist := congrArg String.toList h
  simp only [storageKey, Extract.slot, Variable.storageName, Variable.isGlobal,
    Variable.name, reduceCtorEq, decide_false, if_false, String.toList_append,
    List.append_cancel_left_eq, Nat.toString_eq_repr, Nat.toList_repr] at hlist
  exact toDigits_inj hlist

/-- The entry of a small program. -/
def sampleMain : Routine := .declare 0 "main" [] .void {}

def sampleX : Variable := .slot ⟨.declared 0, "x", .float, .scoped, {}⟩

def sampleG : Variable := .slot ⟨.declared 1, "g", .float, .global, {}⟩

def relayParameter (n : Nat) (name : String) : Variable :=
  .slot ⟨.declared n, name, .float, .parameter, {}⟩

/-- Stores its second parameter. -/
def relay : Routine :=
  .declare 1 "f" [relayParameter 5 "p", relayParameter 6 "q"] .void {}

def relayBody : Stmt := .assign default sampleG (read (relayParameter 6 "q") default)

/-- What a call of the routine does. -/
def RelayCalls (r : Routine) (m m' : Memory String) : Prop :=
  r = relay ∧ m.store storageKey sampleG (m.load storageKey (relayParameter 6 "q")) = .ok m'

section

variable {r : Routine} {m m' μ : Memory String}

theorem RelayCalls.performs {bodies : Bodies} (hbody : bodies.get? relay = some relayBody)
    (h : RelayCalls r m m') : Performs storageKey bodies 1 r m m' := by
  obtain ⟨rfl, hstore⟩ := h
  exact ⟨relayBody, hbody, .next ⟨rfl, _, rfl, hstore⟩ (.done _)⟩

/-- The call looks at one cell and writes one. -/
theorem RelayCalls.exists_alongside {hidden : String → Prop} (h : RelayCalls r m m')
    (hμ : m.Agrees hidden μ) (hg : ¬ hidden "$g") (hq : ¬ hidden "q") :
    ∃ μ', RelayCalls r μ μ' ∧ Alongside hidden m μ m' μ' := by
  obtain ⟨rfl, hstore⟩ := h
  obtain ⟨μ', hstore', halong⟩ := Alongside.store hμ hg hstore
  refine ⟨μ', ⟨rfl, ?_⟩, halong⟩
  rwa [hμ.load hq]

end

def sampleTypes (k : String) : Option Ty :=
  if k ∈ ["x", "p", "q", "$g"] then some .float else none

theorem sampleTypes_slot (n : Nat) (t : Ty) :
    sampleTypes (storageKey (Extract.slot sampleMain.id n t)) = none := by
  refine if_neg fun h ↦ ?_
  have hhead : (storageKey (Extract.slot sampleMain.id n t)).toList.head? = some '#' := by
    simp only [storageKey, Extract.slot, Variable.storageName, Variable.isGlobal,
      Variable.name, reduceCtorEq, decide_false, if_false, String.toList_append]
    rfl
  simp only [List.mem_cons, List.not_mem_nil, or_false] at h
  rcases h with h | h | h | h <;> rw [h] at hhead <;> revert hhead <;> decide

theorem typed_sampleX : sampleX.Typed storageKey sampleTypes := ⟨by decide, rfl⟩

theorem typed_sampleG : sampleG.Typed storageKey sampleTypes := ⟨by decide, rfl⟩

theorem typed_relayParameter (n : Nat) (name : String) (h : sampleTypes name = some .float) :
    (relayParameter n name).Typed storageKey sampleTypes := ⟨h, rfl⟩

/-- A body that calls the routine, with cells found by storage name. -/
def Frame.sample : Frame String where
  key := storageKey
  types := sampleTypes
  routine := sampleMain
  calls := RelayCalls
  callable r := r = relay
  distinct _ _ _ _ := Extract.storageKey_slot_inj
  untyped := sampleTypes_slot
  typed _ _ m _ h hm := by
    have hvalue : (m.load storageKey (relayParameter 6 "q")).type = .float :=
      hm.load (typed_relayParameter 6 "q" rfl)
    exact hm.store typed_sampleG hvalue h.2
  unaware hidden hhidden r _ m m' μ h hμ := by
    have hseen (k : String) (hk : (sampleTypes k).isSome = true) : ¬ hidden k := by
      intro hhides
      obtain ⟨n, t, rfl⟩ := hhidden k hhides
      rw [sampleTypes_slot] at hk
      cases hk
    obtain ⟨μ', h', halong⟩ := h.exists_alongside hμ (hseen "$g" rfl) (hseen "q" rfl)
    exact ⟨μ', h', halong.agrees, fun k hk ↦ (halong.kept k hk).2⟩

/-- Adds to a parameter of the callee what is then stored, and passes the sum and the stored value:
`f(p + (x = 5), x)`. -/
def sampleSum : Stmt :=
  .expression default (Build.call (.routine relay)
    [binary .add (read (relayParameter 5 "p") default)
        (assign sampleX (float 5 default) default) default,
      read sampleX default] default)

theorem typed_sampleMemory {x : String} (hx : sampleTypes x = some .float) (value : Float32) :
    Memory.Typed sampleTypes ⟨[(x, .float value)]⟩ := by
  intro k t v ht hv
  by_cases hk : x = k
  · subst hk
    simp only [Table.get?, Table.find?, if_true, Option.some.injEq] at hv
    subst hv
    exact Option.some.inj (hx.symm.trans ht)
  · simp [Table.get?, Table.find?, hk] at hv

/-- Numbers have a sum. -/
theorem exists_sum (a b : Value) (ha : a.type = .float) (hb : b.type = .float) :
    ∃ v, BinaryOp.add.compute? a b = some v ∧ v.type = .float := by
  obtain ⟨f, rfl⟩ := Value.eq_float_of_type ha
  obtain ⟨f', rfl⟩ := Value.eq_float_of_type hb
  exact ⟨_, rfl, rfl⟩

/-- Numbers can be passed to the routine. -/
theorem fits_relay {arguments : List Expr} (h : ∀ a ∈ arguments, a.type = .float) :
    relay.Fits storageKey sampleTypes arguments := by
  intro p a hmem
  obtain ⟨hp, ha⟩ := List.of_mem_zip hmem
  obtain rfl | rfl : p = relayParameter 5 "p" ∨ p = relayParameter 6 "q" := by
    simpa [relay, Routine.declare] using hp
  all_goals exact ⟨typed_relayParameter _ _ rfl, h a ha⟩

theorem extractable_sampleSum : sampleSum.Extractable Frame.sample := by
  have hp : (read (relayParameter 5 "p") default).WellTyped storageKey sampleTypes (· = relay) :=
    ⟨rfl, typed_relayParameter 5 "p" rfl⟩
  refine ⟨⟨⟨hp, ⟨rfl, typed_sampleX, rfl, rfl⟩, rfl, exists_sum⟩, ⟨rfl, typed_sampleX⟩, trivial⟩,
    ⟨⟨rfl, rfl, rfl, rfl⟩, rfl, trivial⟩, ⟨⟨rfl, rfl, trivial⟩, rfl, trivial⟩,
    ⟨rfl, fits_relay (by simp; exact ⟨rfl, rfl⟩)⟩, ?_, ?_⟩
  · exact ⟨by decide, by decide, trivial⟩
  · rintro r h
    cases h
    refine ⟨fun _ x hx ↦ ?_, ⟨fun _ x hx ↦ ?_, trivial⟩⟩
    · obtain rfl : x = sampleX := by simpa [Build.read] using hx
      decide
    · cases hx

/-- The sums that the samples below compute. -/
theorem compute?_sums :
    BinaryOp.add.compute? (.float 0) (.float 1) = some (.float 1) ∧
      BinaryOp.add.compute? (.float 2) (.float 1) = some (.float 3) ∧
      BinaryOp.add.compute? (.float 3) (.float 1) = some (.float 4) ∧
      BinaryOp.add.compute? (.float 0) (.float 5) = some (.float 5) ∧
      BinaryOp.add.compute? (.float 2) (.float 3) = some (.float 5) ∧
      BinaryOp.add.compute? (.float 2) (.float 5) = some (.float 7) := by
  decide +kernel

theorem runs_sampleSum :
    Runs (Stmt.InOrder storageKey RelayCalls sampleMain) sampleSum.flatten sampleSum.flatten
      ⟨[("p", .float 2)]⟩
      ⟨[("p", .float 7), ("x", .float 5), ("q", .float 5), ("$g", .float 5)]⟩ := by
  refine .next ⟨rfl, [.float 7, .float 5], ⟨[("p", .float 2), ("x", .float 5)]⟩, ?_, _,
    ⟨⟨[("p", .float 7), ("x", .float 5), ("q", .float 5)]⟩, _, ?_, ⟨rfl, rfl⟩, ?_⟩, rfl⟩ (.done _)
  · refine ⟨.float 7, _, _, ⟨.float 2, _, ⟨rfl, rfl⟩, ?_⟩, ⟨.float 5, _, _, ⟨rfl, rfl⟩, ⟨rfl, rfl⟩, rfl⟩,
      rfl⟩
    obtain ⟨-, -, -, -, -, hsum⟩ := compute?_sums
    exact ⟨.float 5, ⟨_, ⟨rfl, rfl⟩, rfl⟩, hsum⟩
  · exact ⟨_, rfl, _, rfl, rfl⟩
  · exact ⟨_, rfl, _, rfl, rfl⟩

/-- The parameter is read before the second operand stores, and before it is written itself. -/
theorem Extracted.invoke_of_inOrder_sampleSum : ∃ x, extract sampleMain sampleSum = .ok x ∧
      ∃ least, ∀ limit ≥ least, ∃ M' steps,
        (Exec.invoke Memory.storageKey limit ⟨[(sampleMain, x.body), (relay, relayBody)]⟩ (limit + 1)
          sampleMain).run { memory := ⟨[("p", .float 2)]⟩ } =
            (.ok (), { memory := M', steps := steps }) ∧
        M'.get? "p" = some (.float 7) ∧ M'.get? "$g" = some (.float 5) := by
  have hstatements : ∀ s ∈ sampleSum.flatten, s.Extractable Frame.sample := by
    intro s hs
    obtain rfl := List.mem_singleton.1 hs
    exact extractable_sampleSum
  obtain ⟨x, hx, hrun⟩ := Extracted.invoke_of_inOrder Frame.sample sampleSum hstatements
    (fun _ hl ↦ absurd hl List.not_mem_nil) _ _ (typed_sampleMemory rfl 2) runs_sampleSum
  obtain ⟨least, hleast⟩ := hrun ⟨[(sampleMain, x.body), (relay, relayBody)]⟩
    (by simp [Table.get?, Table.find?, Frame.sample])
    fun _ _ _ hcall ↦ ⟨1, hcall.performs rfl⟩
  refine ⟨x, hx, least, fun limit hlimit ↦ ?_⟩
  obtain ⟨M', steps, hM', hcells⟩ := hleast limit hlimit
  have hother (k : String) (hk : (sampleTypes k).isSome = true) : M'.get? k = _ :=
    hcells k fun n _ t heq ↦ by
      have hnone : sampleTypes k = none := by
        rw [heq]
        exact sampleTypes_slot n t
      rw [hnone] at hk
      cases hk
  exact ⟨M', steps, hM', (hother "p" rfl).trans rfl, (hother "$g" rfl).trans rfl⟩

/-! ### Bodies that have to be left out -/

/-- The extracted body of a program's entry leaves another value in a cell than the body does when
its expressions are evaluated from left to right. -/
def Reorders (bodies : Bodies) (main : Routine) (body : Stmt) (k : String) : Prop :=
  ∃ M x s, Runs (Stmt.InOrder storageKey (Performs storageKey bodies 1) main)
      body.flatten body.flatten {} M ∧
    extract main body = .ok x ∧ Bodies.run (bodies.insert main x.body) main = (.ok (), s) ∧
    s.memory.get? k ≠ M.get? k

/-- What the cell holds after the extracted body has run. -/
def extractedCell (bodies : Bodies) (main : Routine) (body : Stmt) (k : String) :
    Option (Option Value) :=
  match extract main body with
  | .error _ => none
  | .ok x =>
    match Bodies.run (bodies.insert main x.body) main with
    | (.ok (), s) => some (s.memory.get? k)
    | (.error _, _) => none

theorem Reorders.of_extractedCell {bodies : Bodies} {main : Routine} {k : String}
    {M : Memory String} {v : Option Value}
    (h : Runs (Stmt.InOrder storageKey (Performs storageKey bodies 1) main)
      body.flatten body.flatten {} M) (hv : extractedCell bodies main body k = some v)
    (hne : v ≠ M.get? k) : Reorders bodies main body k := by
  unfold extractedCell at hv
  split at hv
  · cases hv
  · next x hx =>
    split at hv
    · next s hs =>
      cases hv
      exact ⟨M, x, s, h, hx, hs, hne⟩
    · cases hv

/-- A temporary that the body has itself: `g = t + (t = 5)`. -/
def staleSum : Stmt :=
  let x : Variable := .slot ⟨.declared 0, "t", .float, .temporary, {}⟩
  .assign default sampleG (binary .add (read x default)
    (assign x (float 5 default) default) default)

/-- A label of the body that extraction makes up, too. -/
def twiceLabelled : Stmt :=
  let flag (n : Nat) (name : String) : Variable := .slot ⟨.declared n, name, .bool, .scoped, {}⟩
  .block default [
    .assign default (flag 2 "a") (binary .and (read (flag 3 "b") default)
      (assign (flag 3 "b") (Build.literal (.bool true) default) default) default),
    .gotoIf default ⟨"main.skip1"⟩ (read (flag 4 "c") default) true,
    .goto default ⟨"end"⟩,
    .label default ⟨"main.skip1"⟩,
    .assign default sampleG (float 7 default),
    .label default ⟨"end"⟩]

/-- Passes the first parameter of a routine as its second one. -/
def relayed : Stmt :=
  .expression default (Build.call (.routine relay)
    [float 5 default, read (relayParameter 5 "p") default] default)

theorem reorders_staleSum : Reorders {} sampleMain staleSum "$g" := by
  have hruns : Runs (Stmt.InOrder storageKey (Performs storageKey {} 1) sampleMain)
      staleSum.flatten staleSum.flatten {} ⟨[("t", .float 5), ("$g", .float 5)]⟩ := by
    refine .next ⟨rfl, .float 5, ⟨[("t", .float 5)]⟩, ⟨.float 0, {}, ⟨rfl, rfl⟩, ?_⟩, rfl⟩ (.done _)
    obtain ⟨-, -, -, hsum, -, -⟩ := compute?_sums
    exact ⟨.float 5, ⟨_, ⟨rfl, rfl⟩, rfl⟩, hsum⟩
  have hcell : extractedCell {} sampleMain staleSum "$g" = some (some (.float 10)) := by
    decide +kernel
  exact .of_extractedCell hruns hcell (by decide +kernel)

theorem reorders_twiceLabelled : Reorders {} sampleMain twiceLabelled "$g" := by
  have hruns : Runs (Stmt.InOrder storageKey (Performs storageKey {} 1) sampleMain)
      twiceLabelled.flatten twiceLabelled.flatten {} ⟨[("a", .bool false)]⟩ := by
    refine .next ⟨rfl, .bool false, {}, ⟨.bool false, {}, ⟨rfl, rfl⟩, ?_⟩, rfl⟩ ?_
    · rw [if_pos (by decide)]
      exact ⟨rfl, rfl⟩
    · refine .next ⟨.bool false, ⟨rfl, rfl⟩, rfl⟩ ?_
      exact .jump ⟨rfl, rfl⟩ rfl (.next ⟨rfl, rfl⟩ (.done _))
  have hcell : extractedCell {} sampleMain twiceLabelled "$g" = some (some (.float 7)) := by
    decide +kernel
  exact .of_extractedCell hruns hcell (by decide +kernel)

theorem reorders_relayed : Reorders ⟨[(relay, relayBody)]⟩ sampleMain relayed "$g" := by
  have hruns : Runs (Stmt.InOrder storageKey
        (Performs storageKey ⟨[(relay, relayBody)]⟩ 1) sampleMain)
      relayed.flatten relayed.flatten {} ⟨[("p", .float 5), ("q", .float 0), ("$g", .float 0)]⟩ := by
    have hcall : RelayCalls relay ⟨[("p", .float 5), ("q", .float 0)]⟩
      ⟨[("p", .float 5), ("q", .float 0), ("$g", .float 0)]⟩ := ⟨rfl, rfl⟩
    refine .next ⟨rfl, [.float 5, .float 0], {}, ?_, _, ⟨_, _, ?_, hcall.performs rfl, ?_⟩, rfl⟩
      (.done _)
    · exact ⟨.float 5, {}, _, ⟨rfl, rfl⟩, ⟨.float 0, {}, _, ⟨rfl, rfl⟩, ⟨rfl, rfl⟩, rfl⟩, rfl⟩
    · exact ⟨_, rfl, _, rfl, rfl⟩
    · exact ⟨_, rfl, _, rfl, rfl⟩
  have hcell : extractedCell ⟨[(relay, relayBody)]⟩ sampleMain relayed "$g" =
      some (some (.float 5)) := by
    decide +kernel
  exact .of_extractedCell hruns hcell (by decide +kernel)

/-- Each thing that is asked of a body is needed: that it has no temporaries of its own, no label
that extraction makes up, and no argument that reads a parameter which is written before it. -/
theorem reorders_excluded :
    Reorders {} sampleMain staleSum "$g" ∧ Reorders {} sampleMain twiceLabelled "$g" ∧
      Reorders ⟨[(relay, relayBody)]⟩ sampleMain relayed "$g" :=
  ⟨reorders_staleSum, reorders_twiceLabelled, reorders_relayed⟩

end Wirescript
