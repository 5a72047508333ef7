import Wirescript.Proofs.LiveCode

/-!
# Handlers keep to themselves

In the flat body of a script without labels and jumps of its own, what an event starts ends at a
rollback, and nothing else does, provided that no handler returns (`Flattens.calm`).

In lowered code this can be read off: control stays in its zone, and only outside of handlers the body
is left (`Stmt.Zoned`). Removal of dead code makes places that
nobody gets to into neighbours of others, so from there on the argument is about paths: a path of the
code without dead statements is a path of the code with them, and a path of extracted code runs beside
one of the code it was extracted from (`Extract.Unfolds.exists_leads`).
-/

namespace Wirescript

open Stmt
open List

variable {code : List Stmt} {r : Routine} {body s : Stmt}

/-! ### Lowered code -/

theorem Stmt.Zoned.leads {ends : Prop} {A : List (Label × Zone)} {z : Zone} {start rest : List Stmt}
    (hA : (A.map Prod.fst).Nodup) (hcode : Zoned ends A none code none)
    (hstart : Zoned ends A z start none) (h : Leads code start rest) : Zoned ends A z rest none := by
  induction h with
  | refl => exact hstart
  | next _ hs ih => exact ih.next hs
  | jump _ hs hthere ih => exact .jump hA hcode ih hs hthere

/-- Code that is divided into zones, with all returns outside of handlers, tells events apart. -/
theorem Stmt.Divided.calm (h : Divided True code) : Calm code := by
  obtain ⟨A, hA, h⟩ := h
  refine ⟨fun {rest} hleads hback ↦ ?_, fun {span l event arguments there rest} hmem hthere hleads
    hleaves ↦ ?_⟩
  · have hrest := h.leads hA h hleads
    unfold RollsBack at hback
    split at hback
    · cases hrest with
      | cons hsided _ _ => cases hsided
    · exact hback
  · obtain ⟨before, after, rfl⟩ := append_of_mem hmem
    obtain ⟨z, hafter⟩ := h.suffix (suffix_append _ _)
    cases hafter with
    | cons hsided _ _ => exact hsided
    | event hl _ =>
      have hrest := h.leads hA (h.at_label hA hl hthere) hleads
      unfold Leaves at hleaves
      split at hleaves
      · cases hrest
      · cases hrest with
        | cons hsided _ _ => cases hsided trivial
      · cases hrest with
        | cons hsided _ _ => cases hsided trivial
      · exact hleaves

/-! ### Dead code -/

section Dead

open Wirescript.Flow

variable {live start start' rest rest' : List Stmt} {f : Flow}

/-- Aligned code is at its end on both sides, or at the same statement. -/
theorem Aligned.eq_nil_or_cons (h : Aligned code f rest rest') :
    (rest = [] ∧ rest' = []) ∨ ∃ s tail tail', rest = s :: tail ∧ rest' = s :: tail' := by
  cases rest with
  | nil => exact .inl ⟨rfl, h.eq_nil⟩
  | cons s tail =>
    obtain ⟨_, _, _, _, _, _, -, hrest'⟩ := h.cons
    exact .inr ⟨s, tail, _, rfl, hrest'⟩

theorem Calm.dropUnreachable (h : Calm code) (hlive : dropUnreachable code = .ok live) :
    Calm live := by
  obtain ⟨f, hf, rfl⟩ := dropUnreachable_eq hlive
  rcases eq_or_ne code [] with rfl | hne
  · exact h
  constructor
  · intro rest' hleads hback
    obtain ⟨rest, haligned, hleads⟩ :=
      (Aligned.start hf hne).exists_way_of_kept (fun _ _ ↦ target?_of_goesTo?) hf hleads
    refine h.main hleads ?_
    rcases haligned.eq_nil_or_cons with ⟨rfl, rfl⟩ | ⟨s, tail, tail', rfl, rfl⟩
    · exact hback
    · cases s <;> exact hback
  · intro span l event arguments there' rest' hmem hthere hleads hleaves
    obtain ⟨pre, part, hkept⟩ := append_of_mem hmem
    obtain ⟨_, haligned⟩ := Aligned.of_kept_eq hkept rfl
    obtain ⟨there, there'', hcode, hkept, haligned'⟩ := haligned.jump hf rfl
    cases hthere.symm.trans hkept
    obtain ⟨rest, haligned'', hleads⟩ :=
      haligned'.exists_way_of_kept (fun _ _ ↦ target?_of_goesTo?) hf hleads
    have hsource : .gotoOn span l event arguments ∈ code := mem_of_mem_dropUnreachable hlive hmem
    refine h.event hsource hcode hleads ?_
    rcases haligned''.eq_nil_or_cons with ⟨rfl, rfl⟩ | ⟨s, tail, tail', rfl, rfl⟩
    · exact hleaves
    · cases s <;> exact hleaves

end Dead

/-! ### Extracted code -/

namespace Extract

/-- Control runs through the code, apart from jumps inside it. -/
structure Pad (code : List Stmt) : Prop where
  each : ∀ t ∈ code, t.Passing
  defined : Stmt.targets code ⊆ labels code

/-- The statements are the same to control. -/
structure Alike (s t : Stmt) : Prop where
  label? : s.label? = t.label?
  goesTo? : s.goesTo? = t.goesTo?
  endsFlow : s.endsFlow = t.endsFlow
  eq (h : t.awaits = true) : s = t
  rollsBack (rest rest' : List Stmt) : RollsBack (s :: rest) ↔ RollsBack (t :: rest')
  leaves (rest rest' : List Stmt) : Leaves (s :: rest) ↔ Leaves (t :: rest')

theorem Alike.refl (s : Stmt) : Alike s s := by
  cases s <;> exact ⟨rfl, rfl, rfl, fun _ ↦ rfl, fun _ _ ↦ .rfl, fun _ _ ↦ .rfl⟩

theorem Recasts.alike {t : Stmt} (h : Recasts s t) : Alike s t := by
  cases h <;> exact ⟨rfl, rfl, rfl, fun h ↦ (by cases h), fun _ _ ↦ .rfl, fun _ _ ↦ .rfl⟩

/-- Code beside other code: statements stay the same or read another value, and code that control runs
through stands between them or in the place of some. -/
inductive Unfolds : List Stmt → List Stmt → Prop
  | nil : Unfolds [] []
  | same {s t : Stmt} {source code : List Stmt} (hst : Alike s t) (h : Unfolds source code) :
      Unfolds (s :: source) (t :: code)
  | skip {s : Stmt} {source code : List Stmt} (hs : Falls s) (h : Unfolds source code) :
      Unfolds (s :: source) code
  | pad {xs source code : List Stmt} (hxs : Pad xs) (h : Unfolds source code) :
      Unfolds source (xs ++ code)

theorem Extracts.unfolds {σ σ' : LabelSupply} {source : List Stmt} (h : Extracts σ source code σ') :
    Unfolds source code := by
  induction h with
  | nil => exact .nil
  | same _ _ ih => exact .same (.refl _) ih
  | falling hs hxs _ ih => exact .skip hs (.pad ⟨hxs.each, hxs.defined⟩ ih)
  | around hst hxs hys _ _ ih =>
    have hpad : Pad _ := ⟨hys.each, by simp [hys.targets]⟩
    exact .pad ⟨hxs.each, hxs.defined⟩ (.same hst.alike (.pad hpad ih))

namespace Unfolds

variable {source start rest rest' : List Stmt} {t : Stmt} {l : Label}

/-- Where the code is at its end, the source gets to its end. -/
theorem leads_nil (h : Unfolds rest []) (hleads : Leads source start rest) :
    Leads source start [] := by
  generalize hnil : [] = code at h
  induction h with
  | nil => exact hleads
  | same => cases hnil
  | skip hs _ ih => exact ih (hleads.next hs.endsFlow) hnil
  | pad _ _ ih =>
    obtain ⟨rfl, rfl⟩ := append_eq_nil_iff.1 hnil.symm
    exact ih hleads rfl

/-- Where the code is at a statement, the source gets to the statement that it comes from, or to what
stands behind the code that the statement is part of. -/
theorem cons_cases (h : Unfolds rest (t :: rest')) (hleads : Leads source start rest) :
    (∃ s tail, Leads source start (s :: tail) ∧ Alike s t ∧ Unfolds tail rest') ∨
      ∃ place part tail', Leads source start place ∧ rest' = part ++ tail' ∧
        Pad (t :: part) ∧ Unfolds place tail' := by
  generalize hcons : t :: rest' = code at h
  induction h with
  | nil => cases hcons
  | same hst h =>
    cases hcons
    exact .inl ⟨_, _, hleads, hst, h⟩
  | skip hs _ ih => exact ih (hleads.next hs.endsFlow) hcons
  | @pad xs _ _ hxs h ih =>
    cases xs with
    | nil => exact ih hleads hcons
    | cons u xs =>
      cases hcons
      exact .inr ⟨_, _, _, hleads, rfl, hxs, h⟩

/-- A label of the source stands in the code too. -/
theorem exists_from? (h : Unfolds source code) (hthere : from? l source = some rest) :
    ∃ s tail, Unfolds rest (s :: tail) ∧ s :: tail <:+ code ∧ s.label? = some l := by
  induction h with
  | nil => cases hthere
  | @same s t source code hst h ih =>
    rw [from?] at hthere
    rcases hfound : from? l source with - | there
    · rw [hfound] at hthere
      split at hthere
      · next hs =>
        cases hthere
        exact ⟨t, code, .same hst h, suffix_refl _, hst.label?.symm.trans hs⟩
      · cases hthere
    · rw [hfound] at hthere
      obtain ⟨u, tail, hu, hsuffix, hlabel⟩ := ih (hfound.trans hthere)
      exact ⟨u, tail, hu, hsuffix.trans (suffix_cons _ _), hlabel⟩
  | skip hs _ ih =>
    rw [from?, hs.label?, if_neg (by simp), Option.or_none] at hthere
    exact ih hthere
  | pad _ _ ih =>
    obtain ⟨u, tail, hu, hsuffix, hlabel⟩ := ih hthere
    exact ⟨u, tail, hu, hsuffix.trans (suffix_append _ _), hlabel⟩

/-- What awaits an event comes from the source. -/
theorem mem_of_awaits (h : Unfolds source code) (ht : t ∈ code) (hawaits : t.awaits = true) :
    t ∈ source := by
  induction h with
  | nil => cases ht
  | same hst _ ih =>
    rcases mem_cons.1 ht with rfl | ht
    · exact hst.eq hawaits ▸ .head _
    · exact .tail _ (ih ht)
  | skip _ _ ih => exact .tail _ (ih ht)
  | pad hxs _ ih =>
    rcases mem_append.1 ht with ht | ht
    · cases hawaits.symm.trans (hxs.each t ht).2.2
    · exact ih ht

end Unfolds

/-- Two places side by side: behind the rest of the code that control is running through, the code goes
on beside what is left of the source. -/
def Beside (code rest rest' : List Stmt) : Prop :=
  ∃ before part tail, Pad (before ++ part) ∧ before ++ part ++ tail <:+ code ∧ rest' = part ++ tail ∧
    Unfolds rest tail

section Paths

variable {source start start' rest rest' there : List Stmt} {t : Stmt} {l : Label}

theorem Beside.of_unfolds (h : Unfolds rest rest') (hsuffix : rest' <:+ code) :
    Beside code rest rest' :=
  ⟨[], [], rest', ⟨forall_mem_nil _, nil_subset _⟩, hsuffix, rfl, h⟩

theorem Beside.suffix (h : Beside code rest rest') : rest' <:+ code := by
  obtain ⟨before, part, tail, -, hsuffix, rfl, -⟩ := h
  rw [append_assoc] at hsuffix
  exact (suffix_append _ _).trans hsuffix

/-- Where the code is at a statement, either the source gets to the statement that it comes from, or
the statement is part of code that control runs through. -/
theorem Beside.cons_cases (h : Beside code rest (t :: rest'))
    (hleads : Leads source start rest) :
    (∃ s tail, Leads source start (s :: tail) ∧ Alike s t ∧ Unfolds tail rest') ∨
      ∃ place before part tail, Leads source start place ∧ Unfolds place tail ∧
        rest' = part ++ tail ∧ Pad (before ++ t :: part) ∧
        before ++ t :: part ++ tail <:+ code := by
  have hsuffix := h.suffix
  obtain ⟨before, part, tail, hpad, hwhole, heq, hunfolds⟩ := h
  cases part with
  | cons u part =>
    cases heq
    exact .inr ⟨rest, before, part, tail, hleads, hunfolds, rfl, hpad, hwhole⟩
  | nil =>
    obtain rfl : t :: rest' = tail := heq
    refine (hunfolds.cons_cases hleads).imp_right ?_
    rintro ⟨place, part, tail, hplace, rfl, hpad, htail⟩
    exact ⟨place, [], part, tail, hplace, htail, rfl, hpad, hsuffix⟩

/-- A jump inside code that control runs through stays there. -/
theorem Pad.beside {before part tail : List Stmt} (h : Pad (before ++ t :: part))
    (hsuffix : before ++ t :: part ++ tail <:+ code) (hnodup : (labels code).Nodup)
    (hrest : Unfolds rest tail) (ht : t.target? = some l) (hthere : from? l code = some there) :
    Beside code rest there := by
  have hl : l ∈ labels (before ++ t :: part) :=
    h.defined (mem_filterMap.2 ⟨t, by simp, ht⟩)
  obtain ⟨u, hu, hlabel⟩ := mem_filterMap.1 hl
  obtain ⟨before', part', heq⟩ := append_of_mem hu
  rw [heq] at h hsuffix
  have hfound : u :: (part' ++ tail) <:+ code := by
    rw [append_assoc] at hsuffix
    exact (suffix_append _ _).trans hsuffix
  cases (hthere.symm.trans (from?_of_suffix hnodup hfound hlabel))
  exact ⟨before', u :: part', tail, h, hsuffix, rfl, hrest⟩

/-- A path of the code ends where a path of the source ends in the same way. -/
theorem Beside.exists_ends (h : Beside code rest rest') (hleads : Leads source start rest)
    (hends : Leaves rest' ∨ RollsBack rest') : ∃ place, Leads source start place ∧
      (Leaves rest' → Leaves place) ∧ (RollsBack rest' → RollsBack place) := by
  rcases rest' with - | ⟨t, rest'⟩
  · obtain ⟨before, part, tail, -, -, heq, hunfolds⟩ := h
    obtain ⟨-, rfl⟩ := append_eq_nil_iff.1 heq.symm
    exact ⟨[], hunfolds.leads_nil hleads, fun _ ↦ trivial, False.elim⟩
  rcases h.cons_cases hleads with
    ⟨s, tail, hleads, hst, -⟩ | ⟨place, before, part, tail, -, -, rfl, hpad, -⟩
  · exact ⟨s :: tail, hleads, (hst.leaves tail rest').2, (hst.rollsBack tail rest').2⟩
  · have hflow := (hpad.each t (by simp)).2.1
    cases t <;> first | exact hends.elim False.elim False.elim | cases hflow

variable (hcode : Unfolds source code) (hnodup : (labels code).Nodup)
  (hsource : Stmt.targets source ⊆ labels source)

include hcode hnodup hsource

/-- A jump of the source leads to the same label in the code. -/
theorem Unfolds.exists_beside (hs : s ∈ source) (hl : s.target? = some l)
    (hthere : from? l code = some there) :
    ∃ place, from? l source = some place ∧ Beside code place there := by
  have hlabel : l ∈ labels source := hsource (mem_filterMap.2 ⟨s, hs, hl⟩)
  rcases hplace : from? l source with - | place
  · exact absurd hlabel (from?_eq_none_iff.1 hplace)
  · obtain ⟨u, tail, hunfolds, hsuffix, hu⟩ := hcode.exists_from? hplace
    cases (hthere.symm.trans (from?_of_suffix hnodup hsuffix hu))
    exact ⟨place, rfl, .of_unfolds hunfolds hsuffix⟩

/-- A path of the code runs beside a path of the source. -/
theorem Unfolds.exists_leads (hstart : Beside code start start') (hsuffix : start <:+ source)
    (h : Leads code start' rest') : ∃ rest, Leads source start rest ∧ Beside code rest rest' := by
  have hmem {s : Stmt} {tail : List Stmt} (hleads : Leads source start (s :: tail)) :
      s ∈ source := (hleads.suffix hsuffix).subset (.head _)
  induction h with
  | refl => exact ⟨start, .refl, hstart⟩
  | @next t tail' hprev ht ih =>
    obtain ⟨rest, hleads, hbeside⟩ := ih
    have htail' : tail' <:+ code := (suffix_cons _ _).trans hbeside.suffix
    rcases hbeside.cons_cases hleads with
      ⟨s, tail, hleads, hst, htail⟩ | ⟨place, before, part, tail, hleads, htail, rfl, hpad, hpart⟩
    · exact ⟨tail, hleads.next (hst.endsFlow.trans ht), .of_unfolds htail htail'⟩
    · exact ⟨place, hleads, before ++ [t], part, tail, by simpa using hpad, by simpa using hpart, rfl,
        htail⟩
  | jump _ ht hthere ih =>
    obtain ⟨rest, hleads, hbeside⟩ := ih
    rcases hbeside.cons_cases hleads with
      ⟨s, tail, hleads, hst, -⟩ | ⟨place, before, part, tail, hleads, htail, rfl, hpad, hpart⟩
    · have hs := hst.goesTo?.trans ht
      obtain ⟨place, hplace, hbeside⟩ :=
        hcode.exists_beside hnodup hsource (hmem hleads) (target?_of_goesTo? hs) hthere
      exact ⟨place, hleads.jump hs hplace, hbeside⟩
    · exact ⟨place, hleads, hpad.beside hpart hnodup htail (target?_of_goesTo? ht) hthere⟩

/-- Extraction keeps events apart. -/
theorem Unfolds.calm (h : Calm source) : Calm code where
  main {rest'} hleads hback := by
    have hstart : Beside code source code := .of_unfolds hcode (suffix_refl _)
    obtain ⟨rest, hleads, hbeside⟩ :=
      hcode.exists_leads hnodup hsource hstart (suffix_refl _) hleads
    obtain ⟨place, hleads, -, hplace⟩ := hbeside.exists_ends hleads (.inr hback)
    exact h.main hleads (hplace hback)
  event {span l event arguments there' rest'} hmem hthere hleads hleaves := by
    have hevent := hcode.mem_of_awaits hmem rfl
    obtain ⟨there, hfrom, hbeside⟩ := hcode.exists_beside hnodup hsource hevent rfl hthere
    obtain ⟨rest, hleads, hbeside⟩ :=
      hcode.exists_leads hnodup hsource hbeside (from?_suffix hfrom) hleads
    obtain ⟨place, hleads, hplace, -⟩ := hbeside.exists_ends hleads (.inl hleaves)
    exact h.event hevent hfrom hleads (hplace hleaves)

end Paths

end Extract

/-- In the flat body of a script without labels and jumps, what an event starts ends with the event and
nothing else does, if no handler returns. -/
theorem Flattens.calm {flat : Stmt} (hbody : body.Jumpless) (hhandlers : body.HandlersEnd)
    (h : Flattens r body flat) : Calm flat.flatten := by
  obtain ⟨lo, σ', hlower, hextracts⟩ := h.extracts hbody
  obtain ⟨revised, σ, code, hrun, hclose, hdrop⟩ := lower_eq_ok hlower
  have hlowered := (divided_of_closeFlat hbody (fun _ ↦ hhandlers) hrun hclose).calm
  exact hextracts.unfolds.calm (h.flatClosed hbody).closed.nodup
    (lowered_jumpClosed hbody hlower).1.defined (hlowered.dropUnreachable hdrop)

end Wirescript
