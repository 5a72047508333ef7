import Wirescript.Proofs.Jumps

/-!
# Event handlers in lowered code

Lowering puts a handler behind a jump past it and lets it end with a rollback to where that jump goes.
So lowered code is divided into zones (`Stmt.Zoned`): each handler is one, told by the label behind it,
and what is outside of all handlers is another. Control stays in a zone. Only an event leads into one,
and only a rollback ends it.

What lowering makes of a script without labels and jumps of its own is told once, by `Lower.Lowers`:
the code of the parts, with jumps, labels and marks around them, and handlers for events. What holds of
lowered code follows by induction on it (`Lower.Lowers.exists_zoned`).
-/

namespace Wirescript

open Stmt
open List

/-- A zone of code: the handler before a label, or the outside of all handlers. -/
abbrev Zone := Option Label

variable {ends : Prop} {l : Label} {A A' : List (Label × Zone)} {code : List Stmt} {r : Routine}
  {body s : Stmt} {z z₁ z' : Zone}

/-! ### Zones -/

namespace Stmt

/-- The statement may stand in the zone, where a list says which zones labels are in: jumps stay in the
zone, a rollback leads behind it, and, if handlers are not to return, returns are outside. -/
def Sided (ends : Prop) (A : List (Label × Zone)) (z : Zone) : Stmt → Prop
  | .label _ l | .goto _ l | .gotoIf _ l _ _ => (l, z) ∈ A
  | .gotoOn .. => False
  | .rollback _ after => z = some after
  | .ret _ | .retValue .. => ends → z = none
  | _ => True

/-- Every statement is in a zone, and control falls from one to the next in the same zone only. An
event leads into a handler, and the jump past it comes next. -/
inductive Zoned (ends : Prop) (A : List (Label × Zone)) : Zone → List Stmt → Zone → Prop
  | nil (z : Zone) : Zoned ends A z [] z
  | cons {z z₁ z' : Zone} {s : Stmt} {rest : List Stmt} (hs : s.Sided ends A z)
      (hnext : s.endsFlow = false → z₁ = z) (h : Zoned ends A z₁ rest z') :
      Zoned ends A z (s :: rest) z'
  | event {z z' : Zone} {s₁ s₂ : Span} {l after : Label} {event : Event} {arguments : List Expr}
      {rest : List Stmt} (hl : (l, some after) ∈ A) (h : Zoned ends A z (.goto s₂ after :: rest) z') :
      Zoned ends A z (.gotoOn s₁ l event arguments :: .goto s₂ after :: rest) z'

theorem Sided.mono (h : s.Sided ends A z) (hA : A ⊆ A') : s.Sided ends A' z := by
  cases s <;> first | exact h | exact hA h

namespace Zoned

variable {xs ys rest there : List Stmt}

theorem append (h : Zoned ends A z xs z₁) (h' : Zoned ends A z₁ ys z') :
    Zoned ends A z (xs ++ ys) z' := by
  induction h with
  | nil => exact h'
  | cons hs hnext _ ih => exact .cons hs hnext (ih h')
  | event hl _ ih => exact .event hl (ih h')

theorem of_forall (h : ∀ s ∈ code, s.Sided ends A z) : Zoned ends A z code z := by
  induction code with
  | nil => exact .nil z
  | cons s rest ih =>
    obtain ⟨hs, hrest⟩ := forall_mem_cons.1 h
    exact .cons hs (fun _ ↦ rfl) (ih hrest)

theorem mono (h : Zoned ends A z code z') (hA : A ⊆ A') : Zoned ends A' z code z' := by
  induction h with
  | nil z => exact .nil z
  | cons hs hnext _ ih => exact .cons (hs.mono hA) hnext ih
  | event hl _ ih => exact .event (hA hl) ih

theorem suffix (h : Zoned ends A z code z') (hrest : rest <:+ code) :
    ∃ z₁, Zoned ends A z₁ rest z' := by
  induction h with
  | nil z =>
    obtain rfl := suffix_nil.1 hrest
    exact ⟨z, .nil z⟩
  | cons hs hnext h ih =>
    rcases suffix_cons_iff.1 hrest with rfl | hrest
    · exact ⟨_, .cons hs hnext h⟩
    · exact ih hrest
  | event hl h ih =>
    rcases suffix_cons_iff.1 hrest with rfl | hrest
    · exact ⟨_, .event hl h⟩
    · exact ih hrest

/-- Control comes to a label in the zone of the label. -/
theorem at_label (hA : (A.map Prod.fst).Nodup) (h : Zoned ends A z code z') (hl : (l, z₁) ∈ A)
    (hthere : from? l code = some there) : Zoned ends A z₁ there z' := by
  obtain ⟨z₂, hrest⟩ := h.suffix (from?_suffix hthere)
  obtain ⟨s, tail, rfl, hs⟩ := exists_cons_of_from? hthere
  have hside : (l, z₂) ∈ A := by
    cases s
    case label =>
      cases hrest with
      | cons hsided _ _ => exact Option.some.inj hs ▸ hsided
    all_goals cases hs
  cases inj_on_of_nodup_map hA hside hl rfl
  exact hrest

theorem next (h : Zoned ends A z (s :: rest) z') (hs : s.endsFlow = false) :
    Zoned ends A z rest z' := by
  cases h with
  | cons _ hnext h => exact hnext hs ▸ h
  | event _ h => exact h

theorem jump (hA : (A.map Prod.fst).Nodup) (hcode : Zoned ends A z₁ code z')
    (h : Zoned ends A z (s :: rest) z') (hs : s.goesTo? = some l)
    (hthere : from? l code = some there) : Zoned ends A z there z' := by
  refine hcode.at_label hA ?_ hthere
  cases h with
  | cons hsided _ _ => cases s <;> cases hs <;> exact hsided
  | event => cases hs

end Zoned

/-- Code that is divided into zones and begins and ends outside of handlers. -/
def Divided (ends : Prop) (code : List Stmt) : Prop :=
  ∃ A : List (Label × Zone), (A.map Prod.fst).Nodup ∧ Zoned ends A none code none

end Stmt

/-! ### Lowered code -/

/-- Where a script returns. -/
def returnVisitor : Visitor Span where
  stmt
    | .ret s | .retValue s _ => [s]
    | _ => []

/-- Where the handlers of a script return. -/
def handlerVisitor : Visitor Span where
  stmt
    | .on _ _ _ body => body.visit returnVisitor
    | _ => []

/-- No handler returns. -/
def Stmt.HandlersEnd (s : Stmt) : Prop := s.visit handlerVisitor = []

namespace Lower

theorem visitAll_parts {α : Type} (v : Visitor α) (s : Stmt) :
    visitAll v (parts s) ⊆ s.visit v := by
  intro x hx
  rw [visit.eq_def]
  cases s
  case ifElse =>
    simp only [parts, visitAll, mem_append] at hx ⊢
    tauto
  all_goals simp_all [parts, visitAll]

theorem Leaf.sided {s' : Stmt} (h : Leaf s s')
    (hz : ends → z ≠ none → s.visit returnVisitor = []) : s'.Sided ends A z := by
  have hleaves (hs' : Leaves [s']) (hends : ends) : z = none := by
    by_contra hinside
    have hnone := hz hends hinside
    have hs := h.leaves hs'
    cases s <;> first | exact hs | simp [visit, returnVisitor] at hnone
  have hlabel := h.label?
  have htarget := h.target?
  cases s' <;> first | exact hleaves trivial | trivial

theorem Frame.sided {made : List Label} {t : Stmt} (h : Frame made t) (hmade : ∀ l ∈ made, (l, z) ∈ A)
    (hlabel : ∀ l, t.label? = some l → l ∈ made) : t.Sided ends A z := by
  cases t
  case label l => exact hmade l (hlabel l rfl)
  case goto l => exact hmade l h
  case gotoIf l _ _ => exact hmade l h.1
  case hint | nop => trivial
  all_goals exact h.elim

/-- Lowered code is divided into handlers and the rest. -/
theorem Lowers.exists_zoned {items : List Stmt} {σ σ' : LabelSupply} (h : Lowers σ items code σ')
    (hreturns : ends → z ≠ none → visitAll returnVisitor items = [])
    (hhandlers : ends → visitAll handlerVisitor items = []) :
    ∃ A : List (Label × Zone), (A.map Prod.fst).Perm (labels code) ∧ Zoned ends A z code z := by
  induction h generalizing z with
  | nil => exact ⟨[], .nil, .nil z⟩
  | leaf hs _ ih =>
    obtain ⟨A, hA, hrest⟩ := ih (fun he hz ↦ (append_eq_nil_iff.1 (hreturns he hz)).2)
      fun he ↦ (append_eq_nil_iff.1 (hhandlers he)).2
    refine ⟨A, by rwa [labels_cons_of_none hs.label?], .cons (hs.sided fun he hz ↦ ?_) (fun _ ↦ rfl)
      hrest⟩
    exact (append_eq_nil_iff.1 (hreturns he hz)).1
  | @framed s _ _ _ _ _ _ _ _ _ _ _ pre mid post hs _ _ _ hframe _ ih₁ ih₂ ih =>
    -- what is missing in the statement is missing in its parts
    have hparts {v : Visitor Span} (hv : s.visit v = []) :=
      append_eq_nil_iff.1 ((visitAll_append v _ _).symm.trans
        (hs ▸ subset_nil.1 (hv ▸ visitAll_parts v s)))
    have hreturns (he : ends) (hz : z ≠ none) := append_eq_nil_iff.1 (hreturns he hz)
    have hhandlers (he : ends) := append_eq_nil_iff.1 (hhandlers he)
    obtain ⟨A₁, hA₁, hfirst⟩ := ih₁ (fun he hz ↦ (hparts (hreturns he hz).1).1)
      fun he ↦ (hparts (hhandlers he).1).1
    obtain ⟨A₂, hA₂, hsecond⟩ := ih₂ (fun he hz ↦ (hparts (hreturns he hz).1).2)
      fun he ↦ (hparts (hhandlers he).1).2
    obtain ⟨A, hA, hrest⟩ := ih (fun he hz ↦ (hreturns he hz).2) fun he ↦ (hhandlers he).2
    refine ⟨(labels (pre ++ mid ++ post)).map (·, z) ++ (A₁ ++ (A₂ ++ A)),
      perm_iff_count.2 fun l ↦ ?_, ?_⟩
    · have hcount := And.intro (hA₁.count_eq l) (And.intro (hA₂.count_eq l) (hA.count_eq l))
      simp [labels_append, Function.comp_def]
      omega
    have hsided (t : Stmt) (ht : t ∈ pre ++ mid ++ post) : t.Sided ends
        ((labels (pre ++ mid ++ post)).map (·, z) ++ (A₁ ++ (A₂ ++ A))) z :=
      (hframe t ht).sided (fun l hl ↦ mem_append_left _ (mem_map_of_mem hl))
        fun l hl ↦ mem_filterMap.2 ⟨t, ht, hl⟩
    refine .append (.append (.append (.append (.of_forall fun t ht ↦ hsided t (by simp [ht]))
      (hfirst.mono ?_)) (.of_forall fun t ht ↦ hsided t (by simp [ht]))) (.append (hsecond.mono ?_)
        (.of_forall fun t ht ↦ hsided t (by simp [ht])))) (hrest.mono ?_)
    all_goals
      intro x hx
      simp [hx]
  | @handler span _ _ _ body _ code₁ code _ _ _ _ l after _ hbody _ _ ih₁ ih =>
    have hends (he : ends) : visitAll returnVisitor [body] = [] ∧
        visitAll handlerVisitor [body] = [] := by
      have hinner := (append_eq_nil_iff.1 (hhandlers he)).1
      exact ⟨append_eq_nil_iff.2 ⟨(append_eq_nil_iff.1 (append_eq_nil_iff.1 hinner).1).1, rfl⟩,
        subset_nil.1 (hinner ▸ visitAll_parts handlerVisitor (.on ..))⟩
    obtain ⟨A₁, hA₁, hfirst⟩ := ih₁ (z := some after) (fun he _ ↦ (hends he).1) fun he ↦ (hends he).2
    obtain ⟨A, hA, hrest⟩ := ih (fun he hz ↦ (append_eq_nil_iff.1 (hreturns he hz)).2)
      fun he ↦ (append_eq_nil_iff.1 (hhandlers he)).2
    refine ⟨(l, some after) :: (after, z) :: (A₁ ++ A), perm_iff_count.2 fun l ↦ ?_, ?_⟩
    · have hcount := And.intro (hA₁.count_eq l) (hA.count_eq l)
      simp [count_cons]
      omega
    have hA₁' : A₁ ⊆ (l, some after) :: (after, z) :: (A₁ ++ A) := fun x hx ↦ by simp [hx]
    have hblock := (hfirst.mono hA₁').append (.cons (s := .rollback span after) rfl
      (fun h ↦ by cases h) (.cons (s := .label span after) (.tail _ (.head _)) (fun _ ↦ rfl) (.nil z)))
    refine .append (.event (.head _) (.cons (.tail _ (.head _)) (fun h ↦ by cases h)
      (.cons (s := .label span l) (.head _) (fun _ ↦ rfl) hblock))) (hrest.mono fun x hx ↦ ?_)
    simp [hx]

end Lower

/-- What lowering makes of a body before dead code is removed is divided into zones. -/
theorem divided_of_closeFlat {σ σ' : LabelSupply} {revised : Revised Stmt} (hbody : body.Jumpless)
    (hhandlers : ends → body.HandlersEnd) (hrun : (Lower.stmt body).run σ = .ok (revised, σ'))
    (hclose : closeFlat r body.span revised.node.flatten = .ok code) : Divided ends code := by
  have hlowers := Lower.lowers_of_run hbody hrun
  obtain ⟨A, hA, hzoned⟩ : ∃ A : List (Label × Zone), (A.map Prod.fst).Perm _ ∧
      Zoned ends A none _ none :=
    hlowers.exists_zoned (fun _ hz ↦ absurd rfl hz) fun he ↦ append_eq_nil_iff.2 ⟨hhandlers he, rfl⟩
  refine ⟨A, hA.nodup_iff.2 hlowers.numbers.draws.nodup, ?_⟩
  rcases closeFlat_eq_ok hclose with rfl | rfl
  · exact hzoned
  · exact hzoned.append (.cons (s := .ret body.span) (fun _ ↦ rfl) (fun _ ↦ rfl) (.nil none))

end Wirescript
