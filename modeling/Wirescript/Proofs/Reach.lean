import Mathlib.Data.List.Basic
import Wirescript.Reach

/-!
# The closure of a search is closed

`Reach.closure` takes in the news of each round for a fixed number of rounds. Every round with news
takes in at least one node that is an end of an edge and was not seen before, so the search has
nothing left to find once it was given as many rounds as there are such nodes
(`closure_closed`).

The induction is on the rounds, and what carries it is that only the frontier can still have
successors that were not seen: `Settled`.
-/

namespace Wirescript.Reach

variable {α : Type} [DecidableEq α] {next : α → List α} {targets roots : List α} {size : Nat}

theorem mem_news {seen frontier : List α} {b : α} :
    b ∈ news next seen frontier ↔ (∃ a ∈ frontier, b ∈ next a) ∧ b ∉ seen := by
  simp [news]

/-- All successors of what was seen have been seen, except those of the frontier. -/
def Settled (next : α → List α) (seen frontier : List α) : Prop :=
  ∀ a ∈ seen, a ∉ frontier → ∀ b ∈ next a, b ∈ seen

/-- One round: the frontier is settled, and only what was taken in is left. -/
theorem Settled.step {seen frontier : List α} (h : Settled next seen frontier) :
    Settled next (seen ++ news next seen frontier) (news next seen frontier) := by
  intro a ha hfresh b hb
  have haseen : a ∈ seen := (List.mem_append.1 ha).resolve_right hfresh
  by_cases hfront : a ∈ frontier
  · by_cases hbseen : b ∈ seen
    · exact List.mem_append_left _ hbseen
    · exact List.mem_append_right _ (mem_news.2 ⟨⟨a, hfront, hb⟩, hbseen⟩)
  · exact List.mem_append_left _ (h a haseen hfront b hb)

theorem subset_grow (rounds : Nat) (seen frontier : List α) :
    seen ⊆ grow next rounds seen frontier := by
  induction rounds generalizing seen frontier with
  | zero => exact fun _ h ↦ h
  | succ rounds ih =>
    rw [grow]
    split
    · exact fun _ h ↦ h
    · exact fun a h ↦ ih _ _ (List.mem_append_left _ h)

/-- A round with news leaves fewer nodes of a list unseen. -/
theorem length_unseen_lt {seen fresh : List α} {b : α} (htarget : b ∈ targets) (hfresh : b ∈ fresh)
    (hseen : b ∉ seen) :
    (targets.filter (· ∉ seen ++ fresh)).length < (targets.filter (· ∉ seen)).length := by
  have hsplit : targets.filter (· ∉ seen ++ fresh) =
      (targets.filter (· ∉ seen)).filter (· ∉ fresh) := by
    simp [Bool.and_comm]
  rw [hsplit, List.length_filter_lt_length_iff_exists]
  exact ⟨b, by simp [htarget, hseen], by simp [hfresh]⟩

/-- What a search has seen in the end is closed, if it has a round for every target that it has not
seen at the start. -/
theorem grow_closed (htargets : ∀ a, ∀ b ∈ next a, b ∈ targets) (rounds : Nat)
    {seen frontier : List α} (hsettled : Settled next seen frontier)
    (hrounds : (targets.filter (· ∉ seen)).length ≤ rounds) :
    ∀ a ∈ grow next rounds seen frontier, ∀ b ∈ next a, b ∈ grow next rounds seen frontier := by
  induction rounds generalizing seen frontier with
  | zero =>
    intro a _ b hb
    have hnil := List.length_eq_zero_iff.1 (Nat.le_zero.1 hrounds)
    have hseen : b ∈ seen := by simpa using List.filter_eq_nil_iff.1 hnil b (htargets a b hb)
    exact hseen
  | succ rounds ih =>
    rw [grow]
    split
    · -- no news: the frontier has no successor that was not seen
      next hnone =>
      intro a ha b hb
      by_cases hfront : a ∈ frontier
      · by_contra hbseen
        exact List.not_mem_nil (hnone ▸ mem_news.2 ⟨⟨a, hfront, hb⟩, hbseen⟩)
      · exact hsettled a ha hfront b hb
    · next hsome =>
      obtain ⟨b, hb⟩ := List.exists_mem_of_ne_nil _ hsome
      obtain ⟨⟨a, -, hab⟩, hbseen⟩ := mem_news.1 hb
      refine ih hsettled.step ?_
      have hlt := length_unseen_lt (htargets a b hab) hb hbseen
      omega

theorem mem_closure_of_mem_roots {a : α} (h : a ∈ roots) : a ∈ closure next size roots :=
  subset_grow _ _ _ (List.mem_eraseDups.2 h)

/-- The closure is closed under edges, if the ends of all edges are among `size` nodes. -/
theorem closure_closed (hsize : targets.length ≤ size) (htargets : ∀ a, ∀ b ∈ next a, b ∈ targets)
    {a b : α} (ha : a ∈ closure next size roots) (hb : b ∈ next a) :
    b ∈ closure next size roots := by
  refine grow_closed htargets size ?_ ?_ a ha b hb
  · exact fun a ha hnot ↦ absurd ha hnot
  · exact Nat.le_trans (List.length_filter_le _ _) hsize

/-- What a search finds has every property that its roots have and that edges preserve. -/
theorem of_mem_closure {P : α → Prop} (hroots : ∀ a ∈ roots, P a)
    (hnext : ∀ a, P a → ∀ b ∈ next a, P b) {a : α} (h : a ∈ closure next size roots) : P a := by
  have hgrow (rounds : Nat) (seen frontier : List α) (hseen : ∀ a ∈ seen, P a)
      (hfrontier : ∀ a ∈ frontier, P a) : ∀ a ∈ grow next rounds seen frontier, P a := by
    induction rounds generalizing seen frontier with
    | zero => exact hseen
    | succ rounds ih =>
      have hnews : ∀ b ∈ news next seen frontier, P b := by
        intro b hb
        obtain ⟨⟨a, ha, hab⟩, -⟩ := mem_news.1 hb
        exact hnext a (hfrontier a ha) b hab
      rw [grow]
      split
      · exact hseen
      · exact ih _ _ (List.forall_mem_append.2 ⟨hseen, hnews⟩) hnews
  have hroots' : ∀ a ∈ roots.eraseDups, P a := fun a ha ↦ hroots a (List.mem_eraseDups.1 ha)
  exact hgrow size _ _ hroots' hroots' a h

end Wirescript.Reach
