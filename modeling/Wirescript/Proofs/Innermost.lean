import Mathlib.Logic.Relation
import Mathlib.Order.Basic
import Wirescript.Proofs.Declarations

/-!
# The innermost scope

The scope at a place in the source is searched in the list of all scopes, by the lengths of their
spans, and not along the tree. Where the blocks of a body are nested properly, this finds the
innermost scope (`Scoping.scopeAt_innermost`): at each point of the search, the scopes so far that
cover the place are a chain, and its inner end is the last one that was opened.
-/

namespace Wirescript

open List
open Option

/-! ### Nested spans -/

namespace Span

variable {s t : Span} {p : Nat}

def Within (s t : Span) : Prop := ∀ p, s.covers p → t.covers p

def Apart (s t : Span) : Prop := ∀ p, s.covers p → ¬t.covers p

theorem covers_iff : s.covers p ↔ s.start ≤ p ∧ p < s.stop := by simp [covers]

theorem Within.length_le (h : s.Within t) (hp : s.covers p) : s.length ≤ t.length := by
  rw [covers_iff] at hp
  have hfirst := h s.start (covers_iff.2 (by omega))
  have hlast := h (s.stop - 1) (covers_iff.2 (by omega))
  rw [covers_iff] at hfirst hlast
  simp only [length]
  omega

end Span

/-- The blocks of a body are properly nested: each lies within the scope around it, and blocks in one
scope are apart. -/
structure Stmt.Nested (body : Stmt) : Prop where
  within : ∀ b ∈ Site.blocks (Stmt.sitesAll 0 1 body.items), ∀ outer,
    (body.span :: (Site.blocks (Stmt.sitesAll 0 1 body.items)).map Prod.fst)[b.2]? = some outer →
      b.1.Within outer
  apart : (Site.blocks (Stmt.sitesAll 0 1 body.items)).Pairwise fun a b ↦ a.2 = b.2 → a.1.Apart b.1

/-! ### Trees of scopes -/

namespace ScopeTree

variable {t : ScopeTree} {i j p : Nat} {s u : Scope} {name : String} {x : Variable}

/-- A scope lies in another one, or is the same. -/
def Inside (t : ScopeTree) : Nat → Nat → Prop :=
  Relation.ReflTransGen fun i j ↦ t.scopes[i]?.bind Scope.parent = some j

/-- A scope and all scopes around it cover a place. -/
def Around (t : ScopeTree) (p i : Nat) : Prop :=
  ∀ j, t.Inside i j → ∃ s, t.scopes[j]? = some s ∧ s.span.covers p

/-- How many scopes there are from a scope to the root. -/
def depth (t : ScopeTree) (i : Nat) : Nat := (t.outward i).length

/-- Each scope but the root is opened after the one around it and lies within it, and scopes in one
scope are apart. -/
structure Nested (t : ScopeTree) : Prop where
  parent : ∀ i s, t.scopes[i]? = some s → i = 0 ∧ s.parent = none ∨
    ∃ j o, s.parent = some j ∧ j < i ∧ t.scopes[j]? = some o ∧ s.span.Within o.span
  apart : ∀ (i j : Nat) (s u : Scope), i < j → t.scopes[i]? = some s → t.scopes[j]? = some u →
    s.parent = u.parent → s.span.Apart u.span

namespace Nested

theorem covers (h : t.Nested) (hin : t.Inside i j) (hs : t.scopes[i]? = some s)
    (hp : s.span.covers p) : ∃ u, t.scopes[j]? = some u ∧ j ≤ i ∧ u.span.covers p := by
  induction hin with
  | refl => exact ⟨s, hs, Nat.le_refl _, hp⟩
  | @tail j k _ hstep ih =>
    obtain ⟨u, hu, hle, hpu⟩ := ih
    rw [hu] at hstep
    rcases h.parent j u hu with ⟨-, hnone⟩ | ⟨k', o, hk, hlt, ho, hin⟩
    · cases hnone.symm.trans hstep
    · cases hk.symm.trans hstep
      exact ⟨o, ho, by omega, hin p hpu⟩

/-- The search through the first scopes ends in one that covers the place and lies in all others that
do. -/
theorem search (h : t.Nested) {root : Scope} (hroot : t.scopes[0]? = some root)
    (hp : root.span.covers p) (n : Nat) (hn : n < t.scopes.length) :
    ∃ b s, ((t.scopes.zipIdx.drop 1).take n).foldl (fun (best, length) (s, id) ↦
        if s.span.covers p && decide (s.span.length ≤ length) then (id, s.span.length)
        else (best, length)) (0, root.span.length) = (b, s.span.length) ∧
      t.scopes[b]? = some s ∧ b ≤ n ∧ s.span.covers p ∧
      ∀ i u, i ≤ n → t.scopes[i]? = some u → u.span.covers p → t.Inside b i := by
  induction n with
  | zero =>
    refine ⟨0, root, rfl, hroot, Nat.le_refl _, hp, fun i u hi _ _ ↦ ?_⟩
    rw [Nat.le_zero.1 hi]
    exact .refl
  | succ n ih =>
    obtain ⟨b, s, hfold, hb, hbn, hps, hall⟩ := ih (by omega)
    obtain ⟨u, hu⟩ : ∃ u, t.scopes[n + 1]? = some u := ⟨_, getElem?_eq_getElem hn⟩
    have hnth : (t.scopes.zipIdx.drop 1)[n]? = some (u, n + 1) := by
      rw [getElem?_drop, getElem?_zipIdx, Nat.add_comm 1 n, hu]
      simp
    rw [take_add_one, hnth, foldl_append, hfold]
    by_cases hpu : u.span.covers p
    · rcases h.parent (n + 1) u hu with ⟨hzero, -⟩ | ⟨j, o, hj, hlt, ho, hin⟩
      · cases hzero
      have hbj : t.Inside b j := hall j o (by omega) ho (hin p hpu)
      rcases hbj.cases_tail with heq | ⟨c, hbc, hcj⟩
      · subst heq
        cases ho.symm.trans hb
        have hstep : t.scopes[n + 1]?.bind Scope.parent = some j := by rw [hu, bind_some, hj]
        refine ⟨n + 1, u, by simp [hpu, hin.length_le hpu], hu, Nat.le_refl _, hpu, fun i v hi hv hpv ↦ ?_⟩
        rcases Nat.lt_or_eq_of_le hi with hi | rfl
        · exact .head hstep (hall i v (by omega) hv hpv)
        · exact .refl
      -- Otherwise a block before this one, in the same scope, covers the place as well.
      · obtain ⟨v, hv, hcb, hpv⟩ := h.covers hbc hb hps
        rw [hv] at hcj
        exact absurd hpu (h.apart c (n + 1) v u (by omega) hv hu (hcj.trans hj.symm) p hpv)
    · refine ⟨b, s, by simp [hpu], hb, by omega, hps, fun i v hi hv hpv ↦ ?_⟩
      rcases Nat.lt_or_eq_of_le hi with hi | rfl
      · exact hall i v (by omega) hv hpv
      · cases hu.symm.trans hv
        exact absurd hpv hpu

theorem around_iff (h : t.Nested) {root : Scope} (hroot : t.scopes[0]? = some root)
    (hp : root.span.covers p) : t.Around p i ↔ t.Inside (t.scopeAt p) i := by
  have hpos : 0 < t.scopes.length := (List.getElem?_eq_some_iff.1 hroot).1
  obtain ⟨b, s, hfold, hb, -, hps, hall⟩ := h.search hroot hp (t.scopes.length - 1) (by omega)
  have hscopeAt : t.scopeAt p = b := by
    rw [take_of_length_le (by simp)] at hfold
    rw [scopeAt, head?_eq_getElem?, hroot]
    exact congrArg Prod.fst hfold
  rw [hscopeAt]
  constructor
  · intro haround
    obtain ⟨u, hu, hpu⟩ := haround i .refl
    exact hall i u (Nat.le_sub_one_of_lt (List.getElem?_eq_some_iff.1 hu).1) hu hpu
  · intro hin j hij
    obtain ⟨u, hu, -, hpu⟩ := h.covers (hin.trans hij) hb hps
    exact ⟨u, hu, hpu⟩

/-! ### Ways outward -/

theorem outwardFrom_none (n : Nat) : t.outwardFrom n none = [] := by cases n <;> rfl

variable (h : t.Nested)

include h

theorem outwardFrom_eq (hs : t.scopes[i]? = some s) {n m : Nat} (hn : i < n) (hm : i < m) :
    t.outwardFrom n (some i) = t.outwardFrom m (some i) := by
  induction i using Nat.strongRecOn generalizing s n m with
  | _ i ih =>
    obtain ⟨n, rfl⟩ := Nat.exists_eq_add_one_of_ne_zero (by omega : n ≠ 0)
    obtain ⟨m, rfl⟩ := Nat.exists_eq_add_one_of_ne_zero (by omega : m ≠ 0)
    rw [outwardFrom, outwardFrom, hs, bind_some]
    rcases h.parent i s hs with ⟨-, hnone⟩ | ⟨j, o, hj, hlt, ho, -⟩
    · rw [hnone, outwardFrom_none, outwardFrom_none]
    · rw [hj]
      exact congrArg _ (ih j hlt ho (by omega) (by omega))

theorem outward_eq (hs : t.scopes[i]? = some s) :
    t.outward i = i :: s.parent.elim [] t.outward := by
  have hi : i < t.scopes.length := (List.getElem?_eq_some_iff.1 hs).1
  obtain ⟨n, hn⟩ := Nat.exists_eq_add_one_of_ne_zero (by omega : t.scopes.length ≠ 0)
  rw [outward, hn, outwardFrom, hs, bind_some]
  rcases h.parent i s hs with ⟨-, hnone⟩ | ⟨j, o, hj, hlt, ho, -⟩
  · rw [hnone, outwardFrom_none, elim_none]
  · rw [hj]
    exact congrArg _ (h.outwardFrom_eq ho (by omega) (by omega))

theorem depth_of_parent (hj : t.scopes[i]?.bind Scope.parent = some j) :
    t.depth i = t.depth j + 1 := by
  obtain ⟨s, hs, hj⟩ := bind_eq_some_iff.1 hj
  rw [depth, h.outward_eq hs, hj]
  rfl

theorem depth_le (hin : t.Inside i j) : t.depth j ≤ t.depth i := by
  induction hin with
  | refl => exact Nat.le_refl _
  | tail _ hstep ih =>
    rw [h.depth_of_parent hstep] at ih
    omega

theorem depth_lt (hin : t.Inside i j) (hne : j ≠ i) : t.depth j < t.depth i := by
  rcases hin.cases_head with rfl | ⟨c, hc, hcj⟩
  · exact absurd rfl hne
  · have := h.depth_of_parent hc
    have := h.depth_le hcj
    omega

theorem lookup?_eq (hs : t.scopes[i]? = some s) (name : String) :
    t.lookup? i name = (s.symbols.get? name).or (s.parent.elim none (t.lookup? · name)) := by
  rw [lookup?, h.outward_eq hs, findSome?_cons, hs, bind_some]
  cases s.symbols.get? name <;> cases s.parent <;> rfl

/-- A name means what the innermost of the scopes around that have it says. -/
theorem lookup?_eq_some (hin : t.Inside i j) (hu : t.scopes[j]? = some u)
    (hx : u.symbols.get? name = some x)
    (hnot : ∀ k v, t.Inside i k → t.Inside k j → k ≠ j → t.scopes[k]? = some v → v.symbols.get?
      name = none) : t.lookup? i name = some x := by
  induction hin using Relation.ReflTransGen.head_induction_on with
  | refl => rw [h.lookup?_eq hu, hx, some_or]
  | @head i c hstep hcj ih =>
    obtain ⟨s, hs, hc⟩ := bind_eq_some_iff.1 hstep
    have hne : i ≠ j := by
      rintro rfl
      have := h.depth_of_parent hstep
      have := h.depth_le hcj
      omega
    rw [h.lookup?_eq hs, hnot i s .refl (.head hstep hcj) hne hs, hc]
    exact ih fun k v hck ↦ hnot k v (.head hstep hck)

end Nested

theorem inside_of_mem_outwardFrom {n k : Nat} (hk : k ∈ t.outwardFrom n (some i)) : t.Inside i k := by
  induction n generalizing i with
  | zero => cases hk
  | succ n ih =>
    rcases mem_cons.1 hk with rfl | hk
    · exact .refl
    · rcases hparent : t.scopes[i]?.bind Scope.parent with - | j
      · simp [hparent, Nested.outwardFrom_none] at hk
      · exact .head hparent (ih (hparent ▸ hk))

theorem lookup?_eq_none
    (hnot : ∀ k v, t.Inside i k → t.scopes[k]? = some v → v.symbols.get? name = none) :
    t.lookup? i name = none := by
  refine findSome?_eq_none_iff.2 fun k hk ↦ bind_eq_none_iff.2 fun v hv ↦ ?_
  exact hnot k v (inside_of_mem_outwardFrom hk) hv

end ScopeTree

namespace Scoping

variable {st : Scoping} {root : Span} {sites : List Site}

theorem Records.root_eq (h : st.Records root sites) :
    ∃ o, st.tree.scopes[0]? = some o ∧ o.span = root ∧ o.parent = none := by
  have hroot := congrArg (·[0]?) h.layout
  simpa using hroot

theorem Records.nested (h : st.Records root sites) (hwithin : ∀ b ∈ Site.blocks sites, ∀ outer,
      (root :: (Site.blocks sites).map Prod.fst)[b.2]? = some outer → b.1.Within outer)
    (hapart : (Site.blocks sites).Pairwise fun a b ↦ a.2 = b.2 → a.1.Apart b.1) :
    st.tree.Nested := by
  have hspans : st.tree.scopes.map Scope.span = root :: (Site.blocks sites).map Prod.fst := by
    simpa [Function.comp_def] using congrArg (List.map Prod.fst) h.layout
  have hblock {i : Nat} {s : Scope} (hs : st.tree.scopes[i + 1]? = some s) :
      ∃ b, (Site.blocks sites)[i]? = some b ∧ s.span = b.1 ∧ s.parent = some b.2 := by
    have hi := congrArg (·[i + 1]?) h.layout
    simp only [getElem?_map, hs, getElem?_cons_succ] at hi
    obtain ⟨b, hb, heq⟩ := map_eq_some_iff.1 hi.symm
    exact ⟨b, hb, (congrArg Prod.fst heq).symm, (congrArg Prod.snd heq).symm⟩
  obtain ⟨o, ho, -, hnone⟩ := h.root_eq
  refine ⟨fun i s hs ↦ ?_, fun i j s u hij hs hu heq ↦ ?_⟩
  · rcases i with - | i
    · cases ho.symm.trans hs
      exact .inl ⟨rfl, hnone⟩
    · obtain ⟨b, hb, hsb, hpb⟩ := hblock hs
      have hle := h.around i b hb
      have hlt : b.2 < st.tree.scopes.length := by
        have := (List.getElem?_eq_some_iff.1 hs).1
        omega
      refine .inr ⟨b.2, _, hpb, by omega, getElem?_eq_getElem hlt, ?_⟩
      rw [hsb]
      refine hwithin b (mem_of_getElem? hb) _ ?_
      rw [← hspans, getElem?_map, getElem?_eq_getElem hlt, map_some]
  · obtain ⟨j, rfl⟩ := Nat.exists_eq_add_one_of_ne_zero (by omega : j ≠ 0)
    obtain ⟨b, hb, hub, hpb⟩ := hblock hu
    rcases i with - | i
    · cases ho.symm.trans hs
      cases (hnone.symm.trans heq).trans hpb
    · obtain ⟨a, ha, hsa, hpa⟩ := hblock hs
      obtain ⟨hi, rfl⟩ := List.getElem?_eq_some_iff.1 ha
      obtain ⟨hj, rfl⟩ := List.getElem?_eq_some_iff.1 hb
      rw [hsa, hub]
      exact pairwise_iff_getElem.1 hapart i j hi hj (by omega)
        (Option.some.inj (hpa.symm.trans (heq.trans hpb)))

/-- The scope that is found at a place covers it, as do all scopes around it; it is the deepest such
scope, and a name means there what the innermost of these scopes that has it says. -/
theorem scopeAt_innermost (r : Routine) {body : Stmt} (h : body.Nested) {p : Nat}
    (hp : body.span.covers p) :
    let t := (ofBody r body).tree
    t.Around p (t.scopeAt p) ∧ (∀ i, t.Around p i → t.Inside (t.scopeAt p) i ∧
        (i ≠ t.scopeAt p → t.depth i < t.depth (t.scopeAt p))) ∧
      (∀ name i s x, t.Around p i → t.scopes[i]? = some s → s.symbols.get? name = some x →
        (∀ j u, t.Around p j → t.Inside j i → j ≠ i → t.scopes[j]? = some u →
          u.symbols.get? name = none) →
        t.lookup? (t.scopeAt p) name = some x) ∧
      ∀ name, (∀ i s, t.Around p i → t.scopes[i]? = some s → s.symbols.get? name = none) →
        t.lookup? (t.scopeAt p) name = none := by
  intro t
  have hrecords : (ofBody r body).Records body.span (r.sites body) := records_ofBody r body
  have hblocks : Site.blocks (r.sites body) = Site.blocks (Stmt.sitesAll 0 1 body.items) := by
    simp [Routine.sites, Site.blocks, Site.block?]
  have hnested : t.Nested := hrecords.nested (hblocks ▸ h.within) (hblocks ▸ h.apart)
  obtain ⟨root, hroot, hspan, -⟩ := hrecords.root_eq
  have haround (i : Nat) : t.Around p i ↔ t.Inside (t.scopeAt p) i :=
    hnested.around_iff hroot (hspan ▸ hp)
  simp only [haround]
  refine ⟨.refl, fun i hi ↦ ⟨hi, hnested.depth_lt hi⟩, fun name i s x hi hs hx hnot ↦ ?_,
    fun name hnot ↦ ScopeTree.lookup?_eq_none hnot⟩
  exact hnested.lookup?_eq_some hi hs hx hnot

/-- Two blocks with one span, one inside the other, and a third block behind them. -/
private def twin : Stmt :=
  .block ⟨0, 30⟩
    [.block ⟨9, 20⟩ [.block ⟨9, 20⟩ [], .declare ⟨10, 14⟩ ⟨12, 13⟩ default],
      .ifThen ⟨21, 28⟩ default (.block ⟨21, 28⟩ [])]

theorem scopeAt_innermost_twin :
    twin.Nested ∧ twin.span.covers 9 ∧ (ofBody default twin).tree.scopeAt 9 = 2 ∧
      (ofBody default twin).tree.Around 9 2 := by
  have hblocks : Site.blocks (Stmt.sitesAll 0 1 twin.items) =
      [(⟨9, 20⟩, 0), (⟨9, 20⟩, 1), (⟨21, 28⟩, 0)] := rfl
  have hnested : twin.Nested := by
    constructor
    · simp [hblocks, show twin.span = ⟨0, 30⟩ from rfl, Span.Within, Span.covers_iff]
      grind
    · simp [Span.Apart, Span.covers_iff]
      grind
  have hat : (ofBody default twin).tree.scopeAt 9 = 2 := by decide
  have hfound := scopeAt_innermost default hnested (p := 9) (by decide)
  exact ⟨hnested, by decide, hat, hat ▸ hfound.1⟩

end Scoping

end Wirescript
