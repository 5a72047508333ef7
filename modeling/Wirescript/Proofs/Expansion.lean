import Mathlib.Logic.Relation
import Wirescript.Flat.Expanded
import Wirescript.Proofs.Renaming

/-!
# What expansion makes of a body

`Expands` says what code stands for flat code after the expansion of calls, where variables, labels
and returns of the code have been replaced: a statement stands as it is, except that a call of an
inlined routine has become the arguments, a copy of the body, the label behind it and the copies of
parameters that were passed by reference. It is read off what the expansion computes.

Every variable and label that is made up on the way carries the number of a site. The sites of a
piece of code are those after a number `k` up to a number `k'`, so that two pieces that follow each
other never share one.
-/

namespace Wirescript

open Stmt
open List hiding flatten
open Option hiding map_map

variable {b : Expand.Bindings} {a e : Expr} {l : Label} {entries : List ((Variable × Expr) × Nat)}
  {arguments : List Expr} {code rest : List Stmt} {written : List Variable} {depth : Nat}
  {result : Option Variable} {routine : Routine} {span : Span} {s : Stmt} {σ : Substitution}
  {bound : Table Variable Variable} {p x y : Variable}

namespace Expand

/-! ### Arguments -/

/-- What stands for a parameter in the copy. -/
def seat (site : Nat) (written : List Variable) : (Variable × Expr) × Nat → Variable
  | ((parameter, argument), position) =>
    (alias? parameter argument written).getD (stand site position parameter)

/-- What stores an argument before the copy. -/
def opening (site : Nat) (span : Span) (written : List Variable) :
    (Variable × Expr) × Nat → List Stmt
  | ((parameter, argument), position) =>
    if (alias? parameter argument written).isSome || parameter.modifiers.out then []
    else [.assign span (stand site position parameter) argument]

/-- What copies a parameter back after the copy. -/
def closing (site : Nat) (span : Span) : (Variable × Expr) × Nat → List Stmt
  | ((parameter, argument), position) =>
    if parameter.modifiers.byReference then
      argument.read?.toList.map fun x ↦
        .assign span x (Build.read (stand site position parameter) span)
    else []

theorem alias?_eq_none (h : p.modifiers.byReference = true) : alias? p a written = none := by
  rw [alias?, if_neg (by simp [h])]

/-- A parameter stands for a variable only if nobody writes it meanwhile. -/
theorem alias?_eq_some (h : alias? p a written = some x) :
    p.modifiers.byReference = false ∧ p ∉ written ∧ a.read? = some x ∧ x.isGlobal = false ∧
      x.isComponent = false := by
  unfold alias? at h
  split at h
  · rename_i hp
    obtain ⟨hread, hx⟩ := filter_eq_some_iff.1 h
    simp only [Bool.and_eq_true, Bool.not_eq_true', decide_eq_true_eq] at hp hx
    exact ⟨hp.1.2, hp.2, hread, hx.1, hx.2⟩
  · cases h

section Bindings

variable {entry : (Variable × Expr) × Nat} {b' : Bindings} {site : Nat}

theorem eq_of_mem_opening (h : s ∈ opening site span written entry) :
    s = .assign span (stand site entry.2 entry.1.1) entry.1.2 := by
  rw [opening.eq_def] at h
  dsimp only at h
  split at h
  · cases h
  · exact mem_singleton.1 h

theorem exists_of_mem_closing (h : s ∈ closing site span entry) : ∃ x, entry.1.2.read? = some x ∧
      s = .assign span x (Build.read (stand site entry.2 entry.1.1) span) := by
  rw [closing.eq_def] at h
  dsimp only at h
  split at h
  · obtain ⟨x, hx, rfl⟩ := mem_map.1 h
    exact ⟨x, mem_toList.1 hx, rfl⟩
  · cases h

theorem bindArgument_eq_ok (h : bindArgument routine site span written b entry = .ok b') :
    b'.images = b.images.insert entry.1.1 (seat site written entry) ∧
      b'.before = b.before ++ opening site span written entry ∧
      b'.after = b.after ++ closing site span entry ∧
      (entry.1.1.modifiers.byReference = true → ∃ x, entry.1.2.read? = some x) := by
  obtain ⟨⟨p, a⟩, i⟩ := entry
  simp only [seat, opening, closing]
  unfold bindArgument at h
  rcases halias : alias? p a written with - | x
  · simp only [halias] at h
    rcases href : p.modifiers.byReference with - | -
    · rw [if_neg (by simp [href])] at h
      cases h
      simp
    · rw [if_pos href] at h
      rcases hread : a.read? with - | target
      · simp [hread] at h
      · simp only [hread] at h
        cases h
        exact ⟨by simp, by simp, by simp, by simp⟩
  · simp only [halias] at h
    cases h
    obtain ⟨href, -⟩ := alias?_eq_some halias
    exact ⟨by simp, by simp, by simp [href], by simp [href]⟩

/-- What the bindings of some arguments are. -/
structure Bindings.Binds (site : Nat) (span : Span) (written : List Variable)
    (entries : List ((Variable × Expr) × Nat)) (b : Bindings) : Prop where
  before : b.before = entries.flatMap (opening site span written)
  after : b.after = entries.flatMap (closing site span)
  seat (entry : (Variable × Expr) × Nat) (h : entry ∈ entries) :
    b.images.get? entry.1.1 = some (Expand.seat site written entry)
  other (x : Variable) (h : ∀ entry ∈ entries, entry.1.1 ≠ x) : b.images.get? x = none
  target (entry : (Variable × Expr) × Nat) (h : entry ∈ entries)
    (href : entry.1.1.modifiers.byReference = true) : ∃ x, entry.1.2.read? = some x

theorem foldlM_bindArgument (h : entries.foldlM (bindArgument routine site span written) b = .ok b')
    : b'.before = b.before ++ entries.flatMap (opening site span written) ∧
      b'.after = b.after ++ entries.flatMap (closing site span) ∧
      ((entries.map fun entry ↦ entry.1.1).Nodup →
        ∀ entry ∈ entries, b'.images.get? entry.1.1 = some (seat site written entry)) ∧
      (∀ x, (∀ entry ∈ entries, entry.1.1 ≠ x) → b'.images.get? x = b.images.get? x) ∧
      ∀ entry ∈ entries, entry.1.1.modifiers.byReference = true →
        ∃ x, entry.1.2.read? = some x := by
  induction entries generalizing b with
  | nil =>
    cases h
    simp
  | cons entry rest ih =>
    obtain ⟨b₁, hfirst, h⟩ := bind_eq_ok.1 h
    obtain ⟨himages, hbefore, hafter, htarget⟩ := bindArgument_eq_ok hfirst
    obtain ⟨hbefore', hafter', hseat, hother, htargets⟩ := ih h
    refine ⟨?_, ?_, fun hnodup ↦ ?_, fun x hx ↦ ?_, forall_mem_cons.2 ⟨htarget, htargets⟩⟩
    · rw [hbefore', hbefore, flatMap_cons, append_assoc]
    · rw [hafter', hafter, flatMap_cons, append_assoc]
    · obtain ⟨hnew, hnodup⟩ := nodup_cons.1 hnodup
      refine forall_mem_cons.2 ⟨?_, hseat hnodup⟩
      rw [hother _ fun e he heq ↦ hnew (mem_map.2 ⟨e, he, heq⟩), himages,
        Table.get?_insert_self]
    · rw [hother x fun e he ↦ hx e (mem_cons_of_mem _ he), himages,
        Table.get?_insert_of_ne _ _ (hx entry (.head _))]

theorem bindArguments_eq_ok (hlength : routine.parameters.length = arguments.length)
    (hnodup : routine.parameters.Nodup)
    (h : bindArguments routine site span written arguments = .ok b) :
    b.Binds site span written (routine.parameters.zip arguments).zipIdx := by
  have hparameters : ((routine.parameters.zip arguments).zipIdx.map fun entry ↦ entry.1.1) =
      routine.parameters := by
    show (routine.parameters.zip arguments).zipIdx.map (Prod.fst ∘ Prod.fst) = _
    rw [← map_map, zipIdx_map_fst, map_fst_zip (Nat.le_of_eq hlength)]
  obtain ⟨hbefore, hafter, hseat, hother, htarget⟩ := foldlM_bindArgument h
  exact ⟨hbefore, hafter, hseat (by rwa [hparameters]), hother, htarget⟩

/-- Before a copy arguments are assigned, and after it variables. -/
theorem forall_bindArguments {P : Stmt → Prop} (hopening : ∀ x, ∀ a ∈ arguments, P (.assign span x a))
    (hclosing : ∀ x y, P (.assign span x (Build.read y span)))
    (h : bindArguments routine site span written arguments = .ok b) :
    (∀ s ∈ b.before, P s) ∧ ∀ s ∈ b.after, P s := by
  obtain ⟨hbefore, hafter, -⟩ := foldlM_bindArgument h
  rw [hbefore, hafter]
  constructor <;> intro s hs <;> obtain ⟨entry, hentry, hs⟩ := mem_flatMap.1 hs
  · have hzip := mem_of_getElem? (mem_zipIdx_iff_getElem?.1 hentry)
    exact eq_of_mem_opening hs ▸ hopening _ _ (of_mem_zip hzip).2
  · obtain ⟨x, -, rfl⟩ := exists_of_mem_closing hs
    exact hclosing _ _

end Bindings

/-! ### Variables of a copy -/

/-- Where the cell of a variable of the body is in the copy of a site. -/
def copySlot (site : Nat) (bound : Table Variable Variable) (s : Slot) : Slot :=
  (copyVariable site bound (.slot s)).root

theorem copyVariable_of_bound {site : Nat} (h : bound.get? x = some y) :
    copyVariable site bound x = y := by
  cases x <;> simp only [copyVariable, h]

theorem copySlot_of_bound {site : Nat} {s : Slot} (h : bound.get? (.slot s) = some y) :
    copySlot site bound s = y.root := by
  rw [copySlot, copyVariable_of_bound h]

theorem copySlot_of_global {site : Nat} {s : Slot} (h : bound.get? (.slot s) = none)
    (hs : s.role = .global) : copySlot site bound s = s := by
  simp only [copySlot, copyVariable, h, if_pos hs]
  rfl

theorem copySlot_of_local {site : Nat} {s : Slot} (h : bound.get? (.slot s) = none)
    (hs : s.role ≠ .global) : copySlot site bound s =
      { s with origin := .copied site s.origin, name := siteName site s.name } := by
  simp only [copySlot, copyVariable, h, if_neg hs]
  rfl

/-- A copy renames the variables of the body if parameters are cells and stand for cells. -/
theorem moves_copy {site : Nat} {exit : Label}
    (hbound : ∀ x y, bound.get? x = some y → x.isComponent = false ∧ y.isComponent = false) :
    (copy site bound result exit).Moves (copySlot site bound) := by
  intro x
  induction x with
  | slot s =>
    refine ⟨?_, rfl⟩
    show (copyVariable site bound (.slot s)).Like (.slot s)
    rcases h : bound.get? (.slot s) with - | y
    · simp only [copyVariable, h]
      split <;> trivial
    · rw [copyVariable_of_bound h]
      cases y with
      | slot t => trivial
      | component base axis origin => exact absurd (hbound _ _ h).2 (by simp [Variable.isComponent,
          Variable.component?])
  | component base axis origin ih =>
    have h : bound.get? (.component base axis origin) = none := by
      rcases h : bound.get? (.component base axis origin) with - | y
      · rfl
      · exact absurd (hbound _ _ h).1 (by simp [Variable.isComponent, Variable.component?])
    have hcopy : (copy site bound result exit).var (.component base axis origin) =
        .component (copyVariable site bound base) axis
          (if copyVariable site bound base = base then origin else .copied site origin) := by
      show copyVariable site bound (.component base axis origin) = _
      rw [copyVariable, h]
    rw [hcopy]
    exact ⟨⟨rfl, ih.1⟩, ih.2⟩

end Expand

/-- The site whose expansion made the slot up. -/
def Slot.site? (s : Slot) : Option Nat :=
  match s.origin with
  | .argument site _ | .copied site _ => some site
  | _ => none

/-- The cell was made for a site, under a name of the site. -/
def Slot.MadeFor (s : Slot) (site : Nat) : Prop :=
  s.site? = some site ∧ ∃ name, s.name = Expand.siteName site name

namespace Expand

theorem siteName_inj {site : Nat} {name name' : String}
    (h : siteName site name = siteName site name') : name = name' := by
  have hlist : ("inl" ++ toString site ++ "_" ++ name).toList =
      ("inl" ++ toString site ++ "_" ++ name').toList := congrArg String.toList h
  rw [String.toList_append, String.toList_append (t := name'), append_cancel_left_eq] at hlist
  exact String.toList_inj.1 hlist

namespace Bindings.Binds

variable {site : Nat} {s s' : Slot} (h : b.Binds site span written entries)

/-- The parameter stands for a variable of the caller. -/
def Borrows (written : List Variable) (entries : List ((Variable × Expr) × Nat)) (s : Slot)
    (x : Variable) : Prop :=
  ∃ entry ∈ entries, entry.1.1 = .slot s ∧ alias? entry.1.1 entry.1.2 written = some x

include h

theorem isComponent (hparameters : ∀ entry ∈ entries, entry.1.1.isComponent = false)
    (x y : Variable) (hxy : b.images.get? x = some y) :
    x.isComponent = false ∧ y.isComponent = false := by
  by_cases hx : ∃ entry ∈ entries, entry.1.1 = x
  · obtain ⟨entry, hentry, rfl⟩ := hx
    refine ⟨hparameters entry hentry, ?_⟩
    cases ((h.seat entry hentry).symm.trans hxy)
    rw [Expand.seat]
    rcases halias : alias? entry.1.1 entry.1.2 written with - | z
    · rfl
    · exact (alias?_eq_some halias).2.2.2.2
  · have hnone := h.other x fun entry hentry heq ↦ hx ⟨entry, hentry, heq⟩
    rw [hnone] at hxy
    cases hxy

theorem copySlot_of_borrows (hs : Borrows written entries s x) :
    copySlot site b.images s = x.root := by
  obtain ⟨entry, hentry, heq, halias⟩ := hs
  rw [copySlot_of_bound (y := x)]
  rw [← heq, h.seat entry hentry, Expand.seat, halias, getD_some]

/-- A cell that is not borrowed becomes one of the site: the place of an argument, or a copy. -/
theorem copySlot_cases (hs : s.role ≠ .global) (hborrows : ∀ x, ¬ Borrows written entries s x) :
    (∃ entry ∈ entries, entry.1.1 = .slot s ∧
        copySlot site b.images s = (stand site entry.2 entry.1.1).root) ∨
      copySlot site b.images s =
        { s with origin := .copied site s.origin, name := siteName site s.name } := by
  by_cases hparameter : ∃ entry ∈ entries, entry.1.1 = .slot s
  · obtain ⟨entry, hentry, heq⟩ := hparameter
    refine .inl ⟨entry, hentry, heq, ?_⟩
    rw [copySlot_of_bound (y := stand site entry.2 entry.1.1)]
    rcases halias : alias? entry.1.1 entry.1.2 written with - | x
    · rw [← heq, h.seat entry hentry, Expand.seat, halias, getD_none]
    · exact absurd ⟨entry, hentry, heq, halias⟩ (hborrows x)
  · exact .inr (copySlot_of_local (h.other _ fun entry hentry heq ↦
      hparameter ⟨entry, hentry, heq⟩) hs)

theorem madeFor_copySlot (hs : s.role ≠ .global) (hborrows : ∀ x, ¬ Borrows written entries s x) :
    (copySlot site b.images s).MadeFor site ∧ (copySlot site b.images s).role ≠ .global := by
  rcases h.copySlot_cases hs hborrows with ⟨entry, -, -, heq⟩ | heq <;> rw [heq]
  · exact ⟨⟨rfl, _, rfl⟩, by simp [stand, Variable.root]⟩
  · exact ⟨⟨rfl, _, rfl⟩, hs⟩

/-- Cells that are not borrowed become different cells. -/
theorem copySlot_inj
    (hentries : ∀ entry ∈ entries, ∀ entry' ∈ entries, entry.2 = entry'.2 → entry = entry')
    (hs : s.role ≠ .global) (hs' : s'.role ≠ .global)
    (hborrows : ∀ x, ¬ Borrows written entries s x)
    (hborrows' : ∀ x, ¬ Borrows written entries s' x)
    (heq : copySlot site b.images s = copySlot site b.images s') : s = s' := by
  rcases h.copySlot_cases hs hborrows with ⟨entry, hentry, hp, hcopy⟩ | hcopy <;>
    rcases h.copySlot_cases hs' hborrows' with ⟨entry', hentry', hp', hcopy'⟩ | hcopy' <;>
    rw [hcopy, hcopy'] at heq
  · have hposition : entry.2 = entry'.2 := (Origin.argument.inj (congrArg Slot.origin heq)).2
    obtain rfl := hentries entry hentry entry' hentry' hposition
    exact Variable.slot.inj (hp.symm.trans hp')
  · cases congrArg Slot.origin heq
  · cases congrArg Slot.origin heq
  · obtain ⟨origin, name, type, role, modifiers⟩ := s
    simp only [Slot.mk.injEq, Origin.copied.injEq, true_and] at heq
    obtain ⟨rfl, hname, rfl, rfl, rfl⟩ := heq
    rw [siteName_inj hname]

theorem copySlot_of_global (hparameters : ∀ entry ∈ entries, entry.1.1 ≠ .slot s)
    (hs : s.role = .global) : copySlot site b.images s = s :=
  Expand.copySlot_of_global (h.other _ hparameters) hs

end Bindings.Binds

end Expand

/-! ### Code -/

/-- The label of a copied body in the copy of a site. -/
def Label.inSite (l : Label) (site : Nat) : Label := ⟨s!"{l.name}#{site}"⟩

/-- The label behind the copy of a site. -/
def Routine.exit (r : Routine) (site : Nat) : Label := ⟨s!"{r.name}.return#{site}"⟩

/-- The label that would stand for the end of the routine before a site is known. -/
def Routine.exitName (r : Routine) : Label := ⟨r.name ++ ".return"⟩

theorem Routine.exit_eq (r : Routine) (site : Nat) : r.exit site = r.exitName.inSite site := by
  show Label.mk (r.name ++ ".return#" ++ toString site) =
    .mk (r.name ++ ".return" ++ "#" ++ toString site)
  simp [← String.toList_inj]

/-- A label that is not made up by expansion: neither one of a site nor the end of the routine. -/
def Label.Written (r : Routine) (l : Label) : Prop :=
  (∀ l' site, l = Label.inSite l' site → site ≤ 0) ∧ l ≠ r.exitName

theorem Label.inSite_inj {l' : Label} {site site' : Nat} (h : l.inSite site = l'.inSite site') :
    l = l' ∧ site = site' := by
  have hname : l.name.toList ++ '#' :: Nat.toDigits 10 site =
      l'.name.toList ++ '#' :: Nat.toDigits 10 site' := by
    have hname : (l.name ++ "#" ++ toString site).toList =
        (l'.name ++ "#" ++ toString site').toList := congrArg (fun l ↦ l.name.toList) h
    simpa using hname
  obtain ⟨hl, -, hsite⟩ := append_toDigits_inj (by decide) (by decide) hname
  exact ⟨congrArg Label.mk (String.toList_inj.1 hl), hsite⟩

/-- A call that is replaced by a copy. -/
def Stmt.Expandable (i : Inliner) (s : Stmt) : Prop :=
  ∃ span r arguments result, s = .call span (.routine r) arguments result ∧ r ∈ i.inlined

/-- Code with substitutions made in it becomes other code when calls are expanded. The sites that
are made on the way are those after `k` up to `k'`. -/
inductive Expands (i : Inliner) : Substitution → Nat → List Stmt → List Stmt → Nat → Prop
  | nil (σ : Substitution) (k : Nat) : Expands i σ k [] [] k
  | keep {σ : Substitution} {k k' : Nat} {s : Stmt} {rest X : List Stmt}
      (hs : ¬ s.Expandable i) (hrest : Expands i σ k rest X k') :
      Expands i σ k (s :: rest) ((s.substitute σ).flatten ++ X) k'
  | call {σ : Substitution} {k k₁ k' : Nat} {span : Span} {r : Routine} {arguments : List Expr}
      {result : Option Variable} {rest X₁ X : List Stmt} {body : Stmt} {b : Expand.Bindings}
      (hr : r ∈ i.inlined) (hbody : i.bodies.get? r = some body)
      (hlength : r.parameters.length = arguments.length)
      (hb : Expand.bindArguments r (k + 1) span body.writes (Expr.substituteAll σ arguments) =
        .ok b)
      (hcopy : Expands i (Expand.copy (k + 1) b.images (result.map σ.var) (r.exit (k + 1))) (k + 1)
        body.flatten X₁ k₁)
      (hrest : Expands i σ k₁ rest X k') :
      Expands i σ k (.call span (.routine r) arguments result :: rest)
        (b.before ++ (X₁ ++ .label span (r.exit (k + 1)) :: (b.after ++ X))) k'

/-- Code with substitutions made in it. -/
def Stmt.substituted (σ : Substitution) (code : List Stmt) : List Stmt :=
  code.flatMap fun s ↦ (s.substitute σ).flatten

@[simp] theorem Stmt.substituted_cons (σ : Substitution) (s : Stmt) (rest : List Stmt) :
    substituted σ (s :: rest) = (s.substitute σ).flatten ++ substituted σ rest := rfl

namespace Expand

variable {i : Inliner} {inner : Routine → List Stmt → Expand (List Stmt)} {k k' : Nat}
  {X : List Stmt}

theorem yields_stmt_of_not_expandable (hs : ¬ s.Expandable i) (h : Yields (stmt i inner s) k X k') :
    X = [s] ∧ k' = k := by
  unfold stmt at h
  split at h
  · rename_i span r arguments result
    rw [if_neg fun hr ↦ hs ⟨span, r, arguments, result, rfl, hr⟩] at h
    exact yields_pure.1 h
  · exact yields_pure.1 h

theorem yields_stmts_nil : Yields (stmts i (depth + 1) routine []) k X k' ↔ X = [] ∧ k' = k := by
  rw [stmts]
  simp

theorem yields_stmts_cons : Yields (stmts i (depth + 1) routine (s :: rest)) k X k' ↔
      ∃ X₁ k₁ X₂, Yields (stmt i (stmts i depth) s) k X₁ k₁ ∧
        Yields (stmts i (depth + 1) routine rest) k₁ X₂ k' ∧ X = X₁ ++ X₂ := by
  simp only [stmts, mapM_cons, yields_bind, yields_pure]
  constructor
  · rintro ⟨_, _, ⟨X₁, k₁, h₁, Xs, k₂, h₂, rfl, rfl⟩, rfl, rfl⟩
    exact ⟨X₁, k₁, Xs.flatten, h₁, ⟨Xs, _, h₂, rfl, rfl⟩, flatten_cons⟩
  · rintro ⟨X₁, k₁, _, h₁, ⟨Xs, _, h₂, rfl, rfl⟩, rfl⟩
    exact ⟨X₁ :: Xs, _, ⟨X₁, k₁, h₁, Xs, _, h₂, rfl, rfl⟩, flatten_cons.symm, rfl⟩

/-- Statements that are not expanded stand as they are. -/
theorem yields_stmts_append {kept : List Stmt} (hkept : ∀ s ∈ kept, ¬ s.Expandable i)
    (h : Yields (stmts i (depth + 1) routine (kept ++ rest)) k X k') :
    ∃ X₂, Yields (stmts i (depth + 1) routine rest) k X₂ k' ∧ X = kept ++ X₂ := by
  induction kept generalizing X k with
  | nil => exact ⟨X, h, rfl⟩
  | cons s kept ih =>
    obtain ⟨X₁, k₁, X₂, hs, hrest, rfl⟩ := yields_stmts_cons.1 h
    obtain ⟨rfl, rfl⟩ := yields_stmt_of_not_expandable (hkept s (.head _)) hs
    obtain ⟨X₃, hrest', rfl⟩ := ih (fun t ht ↦ hkept t (.tail _ ht)) hrest
    exact ⟨X₃, hrest', rfl⟩

/-- What an expanded call becomes. -/
theorem yields_call (h : Yields (call i inner span routine arguments result) k X k') :
    ∃ body b X₁, i.bodies.get? routine = some body ∧ routine.parameters.length = arguments.length ∧
      bindArguments routine (k + 1) span body.writes arguments = .ok b ∧
      Yields (inner routine (body.substitute (copy (k + 1) b.images result
        (routine.exit (k + 1)))).flatten) (k + 1) X₁ k' ∧
      X = b.before ++ (X₁ ++ .label span (routine.exit (k + 1)) :: b.after) := by
  unfold call at h
  rcases hbody : i.bodies.get? routine with - | body
  · simp only [hbody] at h
    cases h
  · simp only [hbody] at h
    split at h
    · obtain ⟨_, _, hsite, h⟩ := yields_bind.1 h
      cases hsite
      obtain ⟨b, _, hlift, h⟩ := yields_bind.1 h
      obtain ⟨hb, rfl⟩ := yields_lift.1 hlift
      obtain ⟨X₁, k₁, hinner, h⟩ := yields_bind.1 h
      cases h
      refine ⟨body, b, X₁, rfl, ‹_›, hb, hinner, ?_⟩
      rw [append_assoc]
      rfl
    · obtain ⟨_, _, hthrow, -⟩ := yields_bind.1 h
      cases hthrow

/-- What is to be shown of code whose calls are expanded: that it holds of parts put together, of
statements that stay, and of a call if it holds of what is expanded in its copy. -/
theorem forall_stmts {C : Stmt → Prop} {P : Nat → List Stmt → List Stmt → Nat → Prop}
    (nil : ∀ k, P k [] [] k) (append : ∀ {k xs xs' k₁ ys ys' k'}, P k xs xs' k₁ → P k₁ ys ys' k' →
      P k (xs ++ ys) (xs' ++ ys') k') (keep : ∀ k s, C s → P k [s] [s] k)
    (call : ∀ {inner q}, q ∈ i.inlined → (∀ {r code k X k'}, (∀ s ∈ code, C s) →
      Yields (inner r code) k X k' → P k code X k') → ∀ {span arguments result k X k'},
      C (.call span (.routine q) arguments result) →
      Yields (call i inner span q arguments result) k X k' →
      P k [.call span (.routine q) arguments result] X k')
    (hcode : ∀ s ∈ code, C s) (h : Yields (stmts i depth routine code) k X k') : P k code X k' := by
  induction depth generalizing routine code X k k' with
  | zero => cases h
  | succ depth ih =>
    induction code generalizing X k with
    | nil =>
      obtain ⟨rfl, rfl⟩ := yields_stmts_nil.1 h
      exact nil _
    | cons s rest ihrest =>
      obtain ⟨X₁, k₁, X₂, hs, hrest, rfl⟩ := yields_stmts_cons.1 h
      obtain ⟨hfirst, hothers⟩ := forall_mem_cons.1 hcode
      have hone : P k [s] X₁ k₁ := by
        by_cases hexpand : s.Expandable i
        · obtain ⟨span, q, arguments, result, rfl, hq⟩ := hexpand
          rw [stmt, if_pos hq] at hs
          exact call hq ih hfirst hs
        · obtain ⟨rfl, rfl⟩ := yields_stmt_of_not_expandable hexpand hs
          exact keep _ _ hfirst
      exact append hone (ihrest hothers hrest)

end Expand

/-- The statements that take the place of returns. -/
def Stmt.Bare : Stmt → Prop
  | .assign .. | .goto .. | .ret .. | .retValue .. => True
  | _ => False

theorem Stmt.Bare.not_expandable {i : Inliner} (h : s.Bare) : ¬ s.Expandable i := by
  rintro ⟨_, _, _, _, rfl, -⟩
  exact h

theorem Stmt.Bare.label? (h : s.Bare) : s.label? = none := by
  cases s
  case label => exact h.elim
  all_goals rfl

theorem Stmt.Bare.settled {V : Vocabulary} (h : s.Bare) (hs : s.Within V) : s.Settled V := by
  cases s
  case assign | goto | ret | retValue => exact hs
  all_goals exact h.elim

/-- Routines are not replaced, and what takes the place of returns neither calls anything nor
defines a label. -/
structure Substitution.Plain (σ : Substitution) : Prop where
  routine (r : Routine) : σ.routine r = r
  ret (span : Span) (s : Stmt) (hs : s ∈ (σ.ret span).flatten) : s.Bare
  retValue (span : Span) (value : Expr) (s : Stmt) (hs : s ∈ (σ.retValue span value).flatten) :
    s.Bare

theorem Substitution.Plain.empty : Substitution.Plain {} where
  routine _ := rfl
  ret span s hs := by
    obtain rfl := mem_singleton.1 hs
    trivial
  retValue span value s hs := by
    obtain rfl := mem_singleton.1 hs
    trivial

theorem Expand.plain_copy (site : Nat) (bound : Table Variable Variable) (result : Option Variable)
    (exit : Label) : (copy site bound result exit).Plain where
  routine _ := rfl
  ret span s hs := by
    obtain rfl : s = .goto span exit := by simpa [copy, flatten, flattenAll] using hs
    trivial
  retValue span value s hs := by
    cases result with
    | none =>
      obtain rfl : s = .goto span exit := by simpa [copy, flatten, flattenAll] using hs
      trivial
    | some x =>
      have hs : s = .assign span x value ∨ s = .goto span exit := by
        simpa [copy, flatten, flattenAll] using hs
      rcases hs with rfl | rfl <;> trivial

section Expanding

variable {i : Inliner} {V : Routine → Vocabulary}

theorem Expr.length_substituteAll (σ : Substitution) (es : List Expr) :
    (Expr.substituteAll σ es).length = es.length := by
  rw [Expr.substituteAll_eq_map, length_map]

/-- A statement that is not expanded before a substitution is not expanded after it. -/
theorem Stmt.not_expandable_substitute {V : Vocabulary} {t : Stmt} (hσ : σ.Plain) (hs : s.Settled V)
    (h : ¬ s.Expandable i) (ht : t ∈ (s.substitute σ).flatten) : ¬ t.Expandable i := by
  cases s <;> rw [substitute] at ht
  case ret span => exact (hσ.ret span t ht).not_expandable
  case retValue span value => exact (hσ.retValue span _ t ht).not_expandable
  case call span callee arguments result =>
    obtain rfl := mem_singleton.1 ht
    rintro ⟨span', r, arguments', result', heq, hr⟩
    obtain ⟨rfl, hcallee, rfl, rfl⟩ := Stmt.call.inj heq
    cases callee with
    | builtin b t => cases hcallee
    | routine q =>
      obtain rfl : q = r := (hσ.routine q).symm.trans (Callee.routine.inj hcallee)
      exact h ⟨span, q, arguments, result, rfl, hr⟩
  case declare | define | assign | label | goto | gotoIf | gotoOn | rollback | hint | nop =>
    obtain rfl := mem_singleton.1 ht
    rintro ⟨_, _, _, _, heq, -⟩
    cases heq
  all_goals exact hs.elim

/-- The expansion of code is as the relation says. -/
theorem expands_of_yields
    (hbodies : ∀ r body, i.bodies.get? r = some body → AllSettled (V r) body.flatten)
    {r : Routine} {k k' : Nat} {X : List Stmt} (hσ : σ.Plain) (hrest : AllSettled (V r) rest)
    (h : Yields (Expand.stmts i depth routine (substituted σ rest)) k X k') :
    Expands i σ k rest X k' := by
  induction depth generalizing r routine σ k k' rest X with
  | zero => cases h
  | succ depth ih =>
    induction rest generalizing k X with
    | nil =>
      obtain ⟨rfl, rfl⟩ := Expand.yields_stmts_nil.1 h
      exact .nil σ k'
    | cons s rest ihrest =>
      obtain ⟨hs, hrest'⟩ := allSettled_cons.1 hrest
      by_cases hexpand : s.Expandable i
      · obtain ⟨span, q, arguments, result, rfl, hq⟩ := hexpand
        obtain ⟨X₁, k₁, X₂, hstmt, h', rfl⟩ := Expand.yields_stmts_cons.1 h
        have hcall : Yields (Expand.call i (Expand.stmts i depth) span q
            (Expr.substituteAll σ arguments) (result.map σ.var)) k X₁ k₁ := by
          have hq' : σ.routine q ∈ i.inlined := (hσ.routine q).symm ▸ hq
          rw [substitute, Substitution.callee, Expand.stmt, if_pos hq', hσ.routine] at hstmt
          exact hstmt
        obtain ⟨body, b, Y, hbody, hlength, hb, hinner, rfl⟩ := Expand.yields_call hcall
        rw [Stmt.flatten_substitute] at hinner
        have hcopy := ih (Expand.plain_copy _ _ _ _) (hbodies q body hbody) hinner
        rw [Expr.length_substituteAll] at hlength
        simpa using Expands.call hq hbody hlength hb hcopy (ihrest hrest' h')
      · obtain ⟨X₂, h', rfl⟩ := Expand.yields_stmts_append
          (fun t ht ↦ not_expandable_substitute hσ hs hexpand ht) h
        exact .keep hexpand (ihrest hrest' h')

/-! ### Labels -/

theorem Stmt.Settled.label_of_target? {V : Vocabulary} (hs : s.Settled V) (h : s.target? = some l) :
    V.label l := by
  cases s
  case goto =>
    cases h
    exact hs
  case gotoIf =>
    cases h
    exact hs.1
  case gotoOn =>
    cases h
    exact hs.2.1
  case rollback =>
    cases h
    exact hs.2
  all_goals cases h

/-- One statement stands for a statement that is not a return. -/
theorem Stmt.Settled.flatten_substitute {V : Vocabulary} (σ : Substitution) (hs : s.Settled V)
    (h : ¬ Leaves [s]) : (s.substitute σ).flatten = [s.substitute σ] := by
  cases s <;> rw [substitute]
  case ret | retValue => exact absurd trivial h
  case declare | define | assign | label | goto | gotoIf | gotoOn | rollback | call | hint | nop =>
    rfl
  all_goals exact hs.elim

/-- What stands for a statement defines what the statement defines. -/
theorem Stmt.labels_substitute {V : Vocabulary} (hσ : σ.Plain) (hs : s.Settled V) :
    labels (s.substitute σ).flatten = (s.label?.map σ.label).toList := by
  have hbare {code : List Stmt} (h : ∀ t ∈ code, t.Bare) : labels code = [] :=
    filterMap_eq_nil_iff.2 fun t ht ↦ (h t ht).label?
  cases s <;> rw [substitute]
  case ret span => exact hbare (hσ.ret span)
  case retValue span value => exact hbare (hσ.retValue span _)
  case declare | define | assign | label | goto | gotoIf | gotoOn | rollback | call | hint | nop =>
    rfl
  all_goals exact hs.elim

/-- A label is found in a copy where it is found in the code. -/
theorem Stmt.from?_substituted {V : Vocabulary} (hσ : σ.Plain) (hcode : AllSettled V code)
    (hinj : ∀ l', σ.label l = σ.label l' → l = l') : from? (σ.label l) (substituted σ code) =
      (from? l code).map (substituted σ) := by
  induction code with
  | nil => rfl
  | cons s rest ih =>
    obtain ⟨hs, hrest⟩ := allSettled_cons.1 hcode
    rw [substituted_cons, from?_append, ih hrest, from?]
    rcases from? l rest with - | there
    · simp only [map_none]
      by_cases hl : s.label? = some l
      · obtain ⟨span, rfl⟩ : ∃ span, s = .label span l := by
          cases s <;> simp only [Stmt.label?, reduceCtorEq, Option.some.injEq] at hl
          exact ⟨_, congrArg _ hl⟩
        simp [flatten, from?, Stmt.label?, substitute]
      · have hnone : from? (σ.label l) (s.substitute σ).flatten = none := by
          rw [from?_eq_none_iff, labels_substitute hσ hs]
          intro hmem
          obtain ⟨l', hl', heq⟩ := map_eq_some_iff.1 (mem_toList.1 hmem)
          exact hl (hl'.trans (congrArg some (hinj l' heq.symm).symm))
        rw [hnone, if_neg hl]
        rfl
    · simp

/-- The labels of a copy are those of the code. -/
theorem Stmt.mem_labels_substituted {V : Vocabulary} (hσ : σ.Plain) (hcode : AllSettled V code)
    (hl : l ∈ labels (substituted σ code)) : ∃ l', l = σ.label l' := by
  induction code with
  | nil => cases hl
  | cons s rest ih =>
    obtain ⟨hs, hrest⟩ := allSettled_cons.1 hcode
    rw [substituted_cons, labels_append, labels_substitute hσ hs] at hl
    rcases mem_append.1 hl with hl | hl
    · obtain ⟨l', -, rfl⟩ := map_eq_some_iff.1 (mem_toList.1 hl)
      exact ⟨l', rfl⟩
    · exact ih hrest hl

theorem Expand.Bindings.Binds.labels {site : Nat} (h : b.Binds site span written entries) :
    labels b.before = [] ∧ labels b.after = [] := by
  rw [h.before, h.after]
  constructor <;> refine filterMap_eq_nil_iff.2 fun s hs ↦ ?_ <;>
    obtain ⟨entry, -, hs⟩ := mem_flatMap.1 hs
  · rw [eq_of_mem_opening hs]
    rfl
  · obtain ⟨x, -, rfl⟩ := exists_of_mem_closing hs
    rfl

theorem Expands.le {k k' : Nat} {X : List Stmt} (h : Expands i σ k rest X k') : k ≤ k' := by
  induction h with
  | nil => exact Nat.le_refl _
  | keep _ _ ih => exact ih
  | call _ _ _ _ _ _ ihcopy ihrest => omega

end Expanding

/-! ### Vocabularies -/

/-- What is made of one vocabulary is in another. -/
structure Substitution.Carries (σ : Substitution) (V W : Vocabulary) : Prop where
  var (x : Variable) (h : V.var x) : W.var (σ.var x)
  label (l : Label) (h : V.label l) : W.label (σ.label l)
  routine (r : Routine) (h : V.routine r) : W.routine (σ.routine r)
  events (h : V.events) : W.events
  ret (span : Span) : (σ.ret span).Within W
  retValue (span : Span) (value : Expr) (h : value.Within W) : (σ.retValue span value).Within W

section Carries

variable {V W : Vocabulary}

theorem Callee.Within.substitute {callee : Callee} (h : callee.Within V) (hσ : σ.Carries V W) :
    (σ.callee callee).Within W := by
  cases callee with
  | routine r => exact hσ.routine r h
  | builtin b t => trivial

theorem Substitution.Carries.option (hσ : σ.Carries V W) (h : ∀ x ∈ result, V.var x) :
    ∀ x ∈ result.map σ.var, W.var x := by
  intro y hy
  obtain ⟨x, hx, rfl⟩ := map_eq_some_iff.1 hy
  exact hσ.var x (h x hx)

theorem Substitution.Carries.admits (hσ : σ.Carries V W) (h : V.Admits e) :
    W.Admits (e.substitute σ) := by
  cases e
  case read => exact ⟨h.1, hσ.var _ h.2⟩
  case call => exact Callee.Within.substitute h hσ
  case step | assign | compound => exact hσ.var _ h
  all_goals trivial

theorem Substitution.Carries.admitsStmt (hσ : σ.Carries V W) (hs : s.isReturn = false)
    (h : V.AdmitsStmt s) : W.AdmitsStmt (s.substitute σ) := by
  cases s
  case ret | retValue => cases hs
  case declare | define | assign | compound => exact hσ.var _ h
  case label | goto | gotoIf => exact hσ.label _ h
  case call => exact ⟨h.1.substitute hσ, hσ.option h.2⟩
  case on => exact hσ.events h
  case gotoOn | rollback => exact ⟨hσ.events h.1, hσ.label _ h.2⟩
  all_goals trivial

theorem Expr.Within.substitute (h : e.Within V) (hσ : σ.Carries V W) : (e.substitute σ).Within W :=
  (Expr.within_iff _).2 ((e.within_iff.1 h).substitute (fun _ ↦ hσ.admits) (fun _ ↦ hσ.admitsStmt)
    (fun span ↦ (Stmt.within_iff _).1 (hσ.ret span))
    fun span value hvalue ↦ (Stmt.within_iff _).1 (hσ.retValue span value (value.within_iff.2 hvalue)))

theorem Expr.AllWithin.substitute {es : List Expr} (h : Expr.AllWithin V es)
    (hσ : σ.Carries V W) : Expr.AllWithin W (Expr.substituteAll σ es) := by
  induction es with
  | nil => trivial
  | cons e rest ih => exact ⟨h.1.substitute hσ, ih h.2⟩

theorem Stmt.Within.substitute (h : s.Within V) (hσ : σ.Carries V W) : (s.substitute σ).Within W :=
  (Stmt.within_iff _).2 ((s.within_iff.1 h).substitute (fun _ ↦ hσ.admits) (fun _ ↦ hσ.admitsStmt)
    (fun span ↦ (Stmt.within_iff _).1 (hσ.ret span))
    fun span value hvalue ↦ (Stmt.within_iff _).1 (hσ.retValue span value (value.within_iff.2 hvalue)))

/-- What stands for a settled statement is settled. -/
theorem Stmt.Settled.substitute (h : s.Settled V) (hσ : σ.Carries V W) (hplain : σ.Plain) :
    AllSettled W (s.substitute σ).flatten := by
  have hsingle {t : Stmt} (ht : t.Settled W) : AllSettled W [t] :=
    allSettled_cons.2 ⟨ht, allSettled_nil⟩
  cases s <;> rw [substitute]
  case ret span => exact fun t ht ↦ (hplain.ret span t ht).settled ((hσ.ret span).of_mem_flatten ht)
  case retValue span value =>
    have hvalue := hσ.retValue span _ (Expr.Within.substitute (e := value) h hσ)
    exact fun t ht ↦ (hplain.retValue span _ t ht).settled (hvalue.of_mem_flatten ht)
  case declare span nameSpan x => exact hsingle (hσ.var x h)
  case define | assign => exact hsingle ⟨hσ.var _ h.1, h.2.substitute hσ⟩
  case label span l | goto span l => exact hsingle (hσ.label l h)
  case gotoIf => exact hsingle ⟨hσ.label _ h.1, h.2.substitute hσ⟩
  case gotoOn => exact hsingle ⟨hσ.events h.1, hσ.label _ h.2.1, h.2.2.substitute hσ⟩
  case rollback => exact hsingle ⟨hσ.events h.1, hσ.label _ h.2⟩
  case hint | nop => exact hsingle trivial
  case call => exact hsingle ⟨h.1.substitute hσ, h.2.1.substitute hσ, hσ.option h.2.2⟩
  all_goals exact h.elim

end Carries

end Wirescript
