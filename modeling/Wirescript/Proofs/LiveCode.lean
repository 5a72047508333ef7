import Wirescript.Proofs.JumpClosed
import Wirescript.Proofs.Live

/-!
# Prepared code is live

Removal of dead code comes first, and what later passes add is not looked at again. It need not be:
code that takes the place of a statement relays control, from where the statement was entered to where
it was left (`Stmt.Relays`). For the copy of a callee that takes a return, since control goes on behind
a copy only from the jumps that its returns have become or from its end. A callee that never ends leaves
code behind its copies that control cannot get to.
-/

namespace Wirescript

open Stmt
open List

variable {L : Label → Prop} {X code : List Stmt} {lo : Lowered} {r : Routine} {body s : Stmt}

namespace Stmt

/-- Control gets to all of the code, by jumps that are part of it. -/
def AllLive (code : List Stmt) : Prop := ∃ b, Live (· ∈ jumps code) true code b

/-- Code takes the place of other code: control gets to all of it if it got to all of the other, goes
on after it if it went on after the other, and leaves where the other did. -/
structure Relays (source code : List Stmt) : Prop where
  live {L : Label → Prop} {b b' : Bool} (hL : ∀ l ∈ jumps code, L l) (h : Live L b source b') :
    Live L b code b'
  jumps : jumps source ⊆ jumps code
  leaves (h : ∃ s ∈ source, Leaves [s]) : ∃ s ∈ code, Leaves [s]

theorem jumps_append (xs ys : List Stmt) : jumps (xs ++ ys) = jumps xs ++ jumps ys :=
  filterMap_append

theorem jumps_singleton (s : Stmt) : jumps [s] = s.jump?.toList := by
  cases hs : s.jump? <;> simp [jumps, hs]

theorem Live.eq_of_nil {b b' : Bool} (h : Live L b [] b') : b' = b := by
  cases h
  rfl

/-- A statement that is neither a mark nor a label is live where control comes to it. -/
theorem Live.of_singleton {b b' : Bool} (h : Live L b [s] b') (hhint : s.isHint = false)
    (hlabel : s.label? = none) : b = true ∧ b' = !s.endsFlow := by
  cases h with
  | mark hs _ => cases hhint.symm.trans hs
  | label hs _ _ => cases hlabel.symm.trans hs
  | step _ h => exact ⟨rfl, h.eq_of_nil⟩

theorem endsFlow_of_leaves (h : Leaves [s]) : s.endsFlow = true := by
  cases s <;> first | rfl | exact h.elim

namespace Relays

variable {xs xs' ys ys' zs : List Stmt}

theorem refl (code : List Stmt) : Relays code code := ⟨fun _ h ↦ h, fun _ h ↦ h, id⟩

theorem append (h : Relays xs ys) (h' : Relays xs' ys') : Relays (xs ++ xs') (ys ++ ys') where
  live hL hlive := by
    rw [jumps_append, forall_mem_append] at hL
    obtain ⟨b₁, hfirst, hsecond⟩ := hlive.split
    exact (h.live hL.1 hfirst).append (h'.live hL.2 hsecond)
  jumps := by
    rw [jumps_append, jumps_append]
    exact append_subset_append h.jumps h'.jumps
  leaves := by
    rintro ⟨s, hs, hleaves⟩
    rcases mem_append.1 hs with hs | hs
    · obtain ⟨t, ht, hleaves⟩ := h.leaves ⟨s, hs, hleaves⟩
      exact ⟨t, mem_append_left _ ht, hleaves⟩
    · obtain ⟨t, ht, hleaves⟩ := h'.leaves ⟨s, hs, hleaves⟩
      exact ⟨t, mem_append_right _ ht, hleaves⟩

/-- Code that runs through, for a statement that control goes on from. -/
theorem falling (hcode : ∀ t ∈ ys, t.endsFlow = false) (hhint : s.isHint = false)
    (hlabel : s.label? = none) (hjump : s.jump? = none) (hs : s.endsFlow = false) :
    Relays [s] ys where
  live _ h := by
    obtain ⟨rfl, rfl⟩ := h.of_singleton hhint hlabel
    rw [hs]
    exact .falling hcode
  jumps := by
    rw [jumps_singleton, hjump]
    exact nil_subset _
  leaves := by
    rintro ⟨t, ht, hleaves⟩
    obtain rfl := mem_singleton.1 ht
    cases hs.symm.trans (endsFlow_of_leaves hleaves)

/-- Code that runs through, around a statement in another form. Nothing is behind a statement that
control does not go on from. -/
theorem around {t : Stmt} (hbefore : ∀ u ∈ xs, u.endsFlow = false)
    (hafter : ∀ u ∈ ys, u.endsFlow = false) (hhint : s.isHint = false ∧ t.isHint = false)
    (hlabel : s.label? = none) (hjump : t.jump? = s.jump?) (hends : t.endsFlow = s.endsFlow)
    (hleaves : Leaves [s] → Leaves [t]) (hlast : s.endsFlow = true → ys = []) :
    Relays [s] (xs ++ t :: ys) where
  live {L _ _} _ h := by
    obtain ⟨rfl, rfl⟩ := h.of_singleton hhint.1 hlabel
    refine (Live.falling hbefore).append (.step hhint.2 ?_)
    rw [hends]
    cases hs : s.endsFlow with
    | true =>
      rw [hlast hs]
      exact .nil _
    | false => exact .falling hafter
  jumps := by
    rw [jumps_singleton, jumps_append, ← singleton_append, jumps_append, jumps_singleton, hjump]
    exact subset_append_of_subset_right _ (subset_append_left _ _)
  leaves := by
    rintro ⟨u, hu, hu'⟩
    obtain rfl := mem_singleton.1 hu
    exact ⟨t, by simp, hleaves hu'⟩

/-- Live code stays so. -/
theorem allLive (h : Relays xs ys) (hlive : AllLive xs) : AllLive ys := by
  obtain ⟨b, hlive⟩ := hlive
  exact ⟨b, h.live (fun _ hl ↦ hl) (hlive.mono fun _ hl ↦ h.jumps hl)⟩

end Relays

end Stmt

/-! ### Lowering -/

theorem allLive_of_lower (hbody : body.Jumpless) (h : lower r body = .ok lo) :
    AllLive lo.statements := by
  obtain ⟨revised, σ, code, hrun, hclose, hdrop⟩ := lower_eq_ok h
  exact live_of_dropUnreachable (divided_of_closeFlat hbody False.elim hrun hclose) hdrop

/-! ### Extraction -/

namespace Extract

variable {σ σ' : LabelSupply} {source : List Stmt}

theorem Numbers.falling (h : Numbers σ code σ') : ∀ s ∈ code, s.endsFlow = false :=
  fun s hs ↦ (h.each s hs).2.1

theorem falling_of_straight (h : Straight Passing code) :
    ∀ s ∈ code, s.endsFlow = false := fun s hs ↦ (h.each s hs).2.1

theorem Falls.jump? (h : Falls s) : s.jump? = none := by
  cases hjump : s.jump? with
  | none => rfl
  | some l =>
    have htarget := h.target?
    rw [target?_of_jump? hjump] at htarget
    cases htarget

theorem Extracts.relays (h : Extracts σ source code σ') : Relays source code := by
  induction h with
  | nil => exact .refl []
  | @same _ _ s _ _ _ _ ih => exact (Relays.refl [s]).append ih
  | falling hs hxs _ ih =>
    exact (Relays.falling hxs.falling hs.isHint hs.label? hs.jump? hs.endsFlow).append ih
  | @around _ _ _ s t xs ys _ code hst hxs hys hlast _ ih =>
    have hpiece : Relays [s] (xs ++ t :: ys) := by
      cases hst <;> exact .around hxs.falling (falling_of_straight hys) ⟨rfl, rfl⟩ rfl rfl rfl id hlast
    rw [show xs ++ (t :: ys ++ code) = xs ++ t :: ys ++ code from (append_assoc ..).symm]
    exact hpiece.append ih

end Extract

/-! ### Expansion -/

namespace Expand

section Copy

variable {site : Nat} {bound : Table Variable Variable} {result : Option Variable} {exit : Label}
  {L' : Label → Prop} {b b' : Bool}

/-- A copy is as live as the statement. -/
theorem live_copy (hs : s.Single) (hL : ∀ l, L l → L' (l.inSite site)) (h : Live L b [s] b') :
    Live L' b (s.substitute (copy site bound result exit)).flatten b' := by
  cases s
  case block | expression => exact hs.elim
  case retValue =>
    obtain ⟨rfl, rfl⟩ := h.of_singleton rfl rfl
    cases result with
    | none => exact .step rfl (.nil _)
    | some x => exact .step rfl (.step rfl (.nil _))
  case label span l =>
    cases h with
    | mark hs _ => cases hs
    | label hs hl h =>
      cases h
      cases hs
      exact .label rfl (hL l hl) (.nil _)
    | step _ h =>
      cases h
      exact .step rfl (.nil _)
  case hint =>
    cases h with
    | mark _ h =>
      cases h
      exact .mark rfl (.nil _)
    | label hs _ _ | step hs _ => cases hs
  all_goals
    obtain ⟨rfl, rfl⟩ := h.of_singleton rfl rfl
    exact .step rfl (.nil _)

theorem live_copies (hcode : ∀ s ∈ code, s.Single) (hL : ∀ l, L l → L' (l.inSite site))
    (h : Live L b code b') :
    Live L' b (substituted (copy site bound result exit) code) b' := by
  induction code generalizing b with
  | nil =>
    obtain rfl := h.eq_of_nil
    exact .nil _
  | cons s rest ih =>
    obtain ⟨hs, hrest⟩ := forall_mem_cons.1 hcode
    obtain ⟨b₁, hfirst, hlast⟩ := h.uncons
    exact (live_copy hs hL hfirst).append (ih hrest hlast)

theorem mem_jumps_substituted {σ : Substitution} {l : Label} {t : Stmt} (hs : s ∈ code)
    (ht : t ∈ (s.substitute σ).flatten) (hl : t.jump? = some l) :
    l ∈ jumps (substituted σ code) :=
  mem_filterMap.2 ⟨t, mem_flatMap.2 ⟨s, hs, ht⟩, hl⟩

theorem mem_jumps_copies {l : Label} (h : l ∈ jumps code) :
    l.inSite site ∈ jumps (substituted (copy site bound result exit) code) := by
  obtain ⟨s, hs, hl⟩ := mem_filterMap.1 h
  cases s
  case goto | gotoIf | gotoOn =>
    cases hl
    exact mem_jumps_substituted hs (mem_singleton_self _) rfl
  all_goals cases hl

/-- A return in the body is a jump to the end of the copy. -/
theorem exit_mem_jumps_copies (h : ∃ s ∈ code, Leaves [s]) :
    exit ∈ jumps (substituted (copy site bound result exit) code) := by
  obtain ⟨s, hs, hleaves⟩ := h
  cases s
  case ret => exact mem_jumps_substituted hs (mem_singleton_self _) rfl
  case retValue span value =>
    have hgoto : .goto span exit ∈
        ((Stmt.retValue span value).substitute (copy site bound result exit)).flatten := by
      cases result with
      | none => exact mem_singleton_self _
      | some x => exact .tail _ (mem_singleton_self _)
    exact mem_jumps_substituted hs hgoto rfl
  all_goals exact hleaves.elim

end Copy

variable {i : Inliner}

/-- The body of an expanded call: control gets to all of it, and goes on behind it. -/
structure Through (body : Stmt) : Prop where
  single : ∀ s ∈ body.flatten, s.Single
  live : ∃ b, Live (· ∈ jumps body.flatten) true body.flatten b ∧
    (b = true ∨ ∃ s ∈ body.flatten, Leaves [s])

/-- Control goes on behind an expanded call, from the end of the copy or from one of its returns. -/
theorem relays_call {inner : Routine → List Stmt → Expand (List Stmt)} {q : Routine}
    (hbody : ∀ body, i.bodies.get? q = some body → Through body)
    (hinner : ∀ {r code X k k'}, (∀ s ∈ code, s.Single) → Yields (inner r code) k X k' →
      Relays code X) {span : Span} {arguments : List Expr} {result : Option Variable} {k k' : Nat}
    (h : Yields (call i inner span q arguments result) k X k') :
    Relays [.call span (.routine q) arguments result] X := by
  obtain ⟨body, b, Y, hget, -, hb, hyields, rfl⟩ := yields_call h
  obtain ⟨hsingle, flag, hlive, hends⟩ := hbody body hget
  obtain ⟨hbefore, hafter⟩ := straight_bindArguments hb
  rw [flatten_substitute] at hyields
  have hY := hinner (single_copies hsingle) hyields
  refine ⟨fun {L _ _} hL hcall ↦ ?_, nil_subset _, ?_⟩
  · obtain ⟨rfl, rfl⟩ := hcall.of_singleton rfl rfl
    have hjumps : ∀ l ∈ jumps Y, L l := fun l hl ↦ hL l (by simp [jumps_append, hl])
    have hlive' : Live L true Y flag := by
      refine hY.live hjumps (live_copies hsingle (fun l hl ↦ ?_) hlive)
      exact hjumps _ (hY.jumps (mem_jumps_copies hl))
    have hexit : Live L flag (.label span (q.exit (k + 1)) :: b.after) true := by
      have hrest : Live L true b.after true := .falling (Extract.falling_of_straight hafter)
      rcases hends with rfl | hends
      · exact .step rfl hrest
      · exact .label rfl (hjumps _ (hY.jumps (exit_mem_jumps_copies hends))) hrest
    exact (Live.falling (Extract.falling_of_straight hbefore)).append (hlive'.append hexit)
  · rintro ⟨s, hs, hleaves⟩
    obtain rfl := mem_singleton.1 hs
    exact hleaves.elim

theorem relays_stmts (hbodies : ∀ r ∈ i.inlined, ∀ body, i.bodies.get? r = some body → Through body)
    {depth : Nat} {k k' : Nat} (hcode : ∀ s ∈ code, s.Single)
    (h : Yields (stmts i depth r code) k X k') : Relays code X := by
  exact forall_stmts (P := fun _ code X _ ↦ Relays code X) (fun _ ↦ .refl []) .append
    (fun _ _ _ ↦ .refl _) (fun {_ q} hq ih _ _ _ _ _ _ _ ↦ relays_call (hbodies q hq) ih) hcode h

end Expand

/-! ### Preparation -/

/-- A routine that is expanded can end: control gets through its lowered body. -/
def Program.Ends (p : Program) (r : Routine) : Prop :=
  ∀ body lo, (r, body) ∈ p.bodies.entries → lower r body = .ok lo → CanEnd lo.statements

theorem Flattens.through {flat : Stmt} (hbody : body.Jumpless)
    (hends : ∀ lo, lower r body = .ok lo → CanEnd lo.statements) (h : Flattens r body flat) :
    Expand.Through flat := by
  refine ⟨(h.flatClosed hbody).single, ?_⟩
  obtain ⟨lo, σ, hlower, hextracts⟩ := h.extracts hbody
  have hrelays := hextracts.relays
  obtain ⟨b, hlive⟩ := allLive_of_lower hbody hlower
  refine ⟨b, hrelays.live (fun _ hl ↦ hl) (hlive.mono fun _ hl ↦ hrelays.jumps hl), ?_⟩
  exact (hlive.ends (hends lo hlower)).imp_right hrelays.leaves

/-- New names leave live code as it is. -/
theorem Stmt.AllLive.named (h : AllLive code) (st : Naming) :
    AllLive (code.map (substitute st.substitution)) := by
  have hjumps : jumps (code.map (substitute st.substitution)) = jumps code := by
    rw [jumps, filterMap_map]
    exact filterMap_congr fun s _ ↦ by cases s <;> rfl
  have hlive {L : Label → Prop} {b b' : Bool} {code : List Stmt} (h : Live L b code b') :
      Live L b (code.map (substitute st.substitution)) b' := by
    induction h with
    | nil b => exact .nil b
    | @mark _ _ s _ hs _ ih =>
      refine .mark ?_ ih
      cases s <;> first | rfl | cases hs
    | label hs hl _ ih => exact .label ((st.label?_substitute _).trans hs) hl ih
    | @step _ s _ hs _ ih =>
      have hends : (s.substitute st.substitution).endsFlow = s.endsFlow := by cases s <;> rfl
      refine .step ?_ (hends ▸ ih)
      cases s <;> first | rfl | cases hs
  obtain ⟨b, h⟩ := h
  exact ⟨b, hlive (hjumps ▸ h)⟩

/-- Control gets to all code of a prepared program, if it gets through every routine that is
expanded. -/
theorem Program.allLive_of_yields {p : Program} {a : Analysis} {mode : Inlining} {b : Bodies}
    {notices notices' : List Notice} (hp : ∀ entry ∈ p.bodies.entries, entry.2.Jumpless)
    (hends : ∀ r ∈ a.inlined mode p.bodies.keys, p.Ends r)
    (h : Yields (p.prepare a mode) notices b notices') :
    ∀ entry ∈ b.entries, AllLive entry.2.items := by
  obtain ⟨flat, _, entries, _, live, -, hflat, heach, hcalled, rfl⟩ := exists_of_yields_prepare h
  have hclosed : ∀ entry ∈ flat.entries, entry.2.FlatClosed entry.1 ∧ AllLive entry.2.flatten := by
    intro entry hentry
    obtain ⟨source, hsource, hsourceFlat⟩ := mem_entries_flat hflat hentry
    have hjumpless := hp _ hsource
    refine ⟨hsourceFlat.flatClosed hjumpless, ?_⟩
    obtain ⟨lo, σ, hlower, hextracts⟩ := hsourceFlat.extracts hjumpless
    exact hextracts.relays.allLive (allLive_of_lower hjumpless hlower)
  have hthrough : ∀ r ∈ a.inlined mode p.bodies.keys, ∀ body, flat.get? r = some body →
      Expand.Through body := by
    intro r hr body hbody
    obtain ⟨source, hsource, hsourceFlat⟩ := mem_entries_flat hflat (Table.mem_of_get? hbody)
    exact hsourceFlat.through (hp _ hsource) fun lo hlo ↦ hends _ hr source lo hsource hlo
  have hexpanded := forall_expandEach (Q := fun s ↦ AllLive s.items)
    (fun _ h _ _ _ hrun ↦ (Expand.relays_stmts hthrough h.1.single
      (Inliner.yields_expand hrun)).allLive h.2)
    (fun entry hentry ↦ hclosed entry (mem_filter.1 hentry).1) heach
  intro entry hentry
  obtain ⟨source, hsource, rfl⟩ := mem_map.1 hentry
  rw [Naming.items_substitute]
  exact (hexpanded source ((of_called hcalled).1 hsource)).named _

end Wirescript
