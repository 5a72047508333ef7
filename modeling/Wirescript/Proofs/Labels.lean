import Mathlib.Data.List.Nodup
import Wirescript.Proofs.Flow
import Wirescript.Supply

/-!
# Labels that are made up

A supply numbers the labels of each kind, so what it hands out between two of its states is known:
`Made`. Labels of disjoint stretches of the numbering differ, because the kinds are words without
digits and the number can be read off the end of the name. Code whose labels all differ is code in
which every label is found where it stands.
-/

namespace Wirescript

open List

variable {l : Label} {σ₁ σ₂ σ₃ : LabelSupply} {code rest : List Stmt} {n' n : Nat} {s : Stmt}
  {kind : String}

/-! ### Names of labels -/

/-- A number can be read off its digits. -/
theorem toDigits_inj (h : Nat.toDigits 10 n = Nat.toDigits 10 n') : n = n' := by
  rw [← Nat.ofDigitChars_ten_toDigits (n := n), h, Nat.ofDigitChars_ten_toDigits]

/-- A number and what stands before it can be read off a word, if the two are kept apart. -/
theorem append_toDigits_inj {xs ys : List Char} {c d : Char} (hc : c.isDigit = false)
    (hd : d.isDigit = false) (h : xs ++ c :: Nat.toDigits 10 n = ys ++ d :: Nat.toDigits 10 n') :
    xs = ys ∧ c = d ∧ n = n' := by
  have hdigits (zs : List Char) {c : Char} (hc : c.isDigit = false) (k : Nat) :
      (zs ++ c :: Nat.toDigits 10 k).reverse.takeWhile Char.isDigit =
        (Nat.toDigits 10 k).reverse := by
    rw [reverse_append, reverse_cons, append_assoc, takeWhile_append_of_pos
      fun d hd ↦ Nat.isDigit_of_mem_toDigits (by omega) (by omega) (mem_reverse.1 hd)]
    simp [hc]
  have hnumber : Nat.toDigits 10 n = Nat.toDigits 10 n' := by
    rw [← reverse_inj, ← hdigits xs hc, ← hdigits ys hd, h]
  rw [hnumber, append_cons, append_cons ys, append_cancel_right_eq] at h
  obtain ⟨hxs, hcd⟩ := append_inj' h rfl
  exact ⟨hxs, (List.cons.inj hcd).1, toDigits_inj hnumber⟩

/-- The label with a number of a kind. -/
def Label.numbered (scope kind : String) (n : Nat) : Label := ⟨s!"{scope}.{kind}{n}"⟩

/-- A word that no number can follow in two ways. -/
def DigitFree (kind : String) : Prop := ∀ c ∈ kind.toList, c.isDigit = false

instance (kind : String) : Decidable (DigitFree kind) := List.decidableBAll _ _

/-- The word is what stands before the first digit. -/
theorem takeWhile_append_toDigits (hkind : DigitFree kind) (n : Nat) :
    (kind.toList ++ Nat.toDigits 10 n).takeWhile (fun c ↦ !c.isDigit) = kind.toList := by
  rw [takeWhile_append_of_pos fun c hc ↦ by simp [hkind c hc]]
  rcases hdigits : Nat.toDigits 10 n with - | ⟨c, cs⟩
  · simp
  · have hmem : c ∈ Nat.toDigits 10 n := by simp [hdigits]
    have hc : c.isDigit = true := Nat.isDigit_of_mem_toDigits (by omega) (by omega) hmem
    simp [hc]

theorem Label.numbered_inj {scope kind' : String} (hkind : DigitFree kind)
    (hkind' : DigitFree kind') (h : numbered scope kind n = numbered scope kind' n') :
    kind = kind' ∧ n = n' := by
  have hname : kind.toList ++ Nat.toDigits 10 n = kind'.toList ++ Nat.toDigits 10 n' := by
    have hlist := congrArg (fun l ↦ l.name.toList) h
    simp only [numbered, String.toList_append, append_assoc, append_cancel_left_eq,
      Nat.toString_eq_repr, Nat.toList_repr] at hlist
    exact hlist
  have hkinds := congrArg (List.takeWhile fun c ↦ !c.isDigit) hname
  rw [takeWhile_append_toDigits hkind, takeWhile_append_toDigits hkind'] at hkinds
  rw [hkinds, append_cancel_left_eq] at hname
  exact ⟨String.toList_inj.1 hkinds, toDigits_inj hname⟩

/-! ### Supplies -/

namespace LabelSupply

/-- How many labels of a kind have been handed out. -/
def count (σ : LabelSupply) (kind : String) : Nat := (σ.counts.get? kind).getD 0

/-- The second state comes after the first one. -/
structure Later (σ σ' : LabelSupply) : Prop where
  scope : σ'.scope = σ.scope
  count (kind : String) : σ.count kind ≤ σ'.count kind

theorem Later.refl (σ : LabelSupply) : Later σ σ := ⟨rfl, fun _ ↦ Nat.le_refl _⟩

theorem Later.trans (h : Later σ₁ σ₂) (h' : Later σ₂ σ₃) : Later σ₁ σ₃ :=
  ⟨h'.scope.trans h.scope, fun kind ↦ Nat.le_trans (h.count kind) (h'.count kind)⟩

theorem count_fresh (σ : LabelSupply) (kind other : String) :
    (σ.fresh kind).2.count other = if kind = other then σ.count kind + 1 else σ.count other := by
  simp only [fresh, count]
  split_ifs with h
  · rw [← h, Table.get?_insert_self]
    rfl
  · rw [Table.get?_insert_of_ne _ _ h]

/-- The label is handed out between the two states. -/
def Made (σ σ' : LabelSupply) (l : Label) : Prop :=
  ∃ kind n, DigitFree kind ∧ l = .numbered σ.scope kind n ∧ σ.count kind < n ∧ n ≤ σ'.count kind

theorem Made.ne {l' : Label} (h : Made σ₁ σ₂ l) (h' : Made σ₂ σ₃ l') (hscope : σ₂.scope = σ₁.scope)
    : l ≠ l' := by
  obtain ⟨kind, n, hkind, rfl, -, hn⟩ := h
  obtain ⟨kind', n', hkind', rfl, hn', -⟩ := h'
  rw [hscope]
  intro heq
  obtain ⟨rfl, rfl⟩ := Label.numbered_inj hkind hkind' heq
  omega

theorem Made.later (h : Made σ₁ σ₂ l) (hlater : Later σ₂ σ₃) : Made σ₁ σ₃ l := by
  obtain ⟨kind, n, hkind, rfl, hlow, hhigh⟩ := h
  exact ⟨kind, n, hkind, rfl, hlow, Nat.le_trans hhigh (hlater.count kind)⟩

theorem Made.earlier (h : Made σ₂ σ₃ l) (hearlier : Later σ₁ σ₂) : Made σ₁ σ₃ l := by
  obtain ⟨kind, n, hkind, rfl, hlow, hhigh⟩ := h
  exact ⟨kind, n, hkind, by rw [hearlier.scope], Nat.lt_of_le_of_lt (hearlier.count kind) hlow, hhigh⟩

/-- The labels are different and handed out between the two states. -/
structure Fresh (σ : LabelSupply) (labels : List Label) (σ' : LabelSupply) : Prop where
  later : Later σ σ'
  made (l : Label) (h : l ∈ labels) : Made σ σ' l
  nodup : labels.Nodup

namespace Fresh

variable {σ : LabelSupply} {labels labels' : List Label}

theorem nil (σ : LabelSupply) : Fresh σ [] σ := ⟨.refl σ, by simp, nodup_nil⟩

theorem append (h : Fresh σ labels σ₁) (h' : Fresh σ₁ labels' σ₂) :
    Fresh σ (labels ++ labels') σ₂ where
  later := h.later.trans h'.later
  made l hl := by
    rcases mem_append.1 hl with hl | hl
    · exact (h.made l hl).later h'.later
    · exact (h'.made l hl).earlier h.later
  nodup := by
    refine List.Nodup.append h.nodup h'.nodup fun l hl hl' ↦ ?_
    exact (h.made l hl).ne (h'.made l hl') h.later.scope rfl

theorem perm (h : Fresh σ labels σ₁) (hperm : labels'.Perm labels) : Fresh σ labels' σ₁ :=
  ⟨h.later, fun l hl ↦ h.made l (hperm.mem_iff.1 hl), hperm.nodup_iff.2 h.nodup⟩

theorem single (σ : LabelSupply) (kind : String) (hkind : DigitFree kind) :
    Fresh σ [(σ.fresh kind).1] (σ.fresh kind).2 where
  later := by
    refine ⟨rfl, fun other ↦ ?_⟩
    rw [count_fresh]
    split_ifs with h
    · rw [h]
      omega
    · omega
  made l hl := by
    obtain rfl := mem_singleton.1 hl
    refine ⟨kind, σ.count kind + 1, hkind, rfl, by omega, ?_⟩
    rw [count_fresh, if_pos rfl]
  nodup := nodup_singleton _

end Fresh

end LabelSupply

/-! ### Labels of code -/

namespace Stmt

/-- The labels that statements define, in order. -/
def labels (code : List Stmt) : List Label := code.filterMap Stmt.label?

@[simp] theorem labels_append (xs ys : List Stmt) : labels (xs ++ ys) = labels xs ++ labels ys :=
  filterMap_append

theorem labels_cons (s : Stmt) (rest : List Stmt) :
    labels (s :: rest) = s.label?.toList ++ labels rest := by
  rw [labels, filterMap_cons]
  cases s.label? <;> rfl

@[simp] theorem labels_nil : labels [] = [] := rfl

@[simp] theorem labels_label (span : Span) (l : Label) (rest : List Stmt) :
    labels (.label span l :: rest) = l :: labels rest := rfl

@[simp] theorem labels_hint (span : Span) (h : Hint) (rest : List Stmt) :
    labels (.hint span h :: rest) = labels rest := rfl

@[simp] theorem labels_goto (span : Span) (l : Label) (rest : List Stmt) :
    labels (.goto span l :: rest) = labels rest := rfl

theorem labels_cons_of_none (h : s.label? = none) (rest : List Stmt) :
    labels (s :: rest) = labels rest := by
  rw [labels_cons, h]
  rfl

/-- A label is found if it is defined. -/
theorem from?_eq_none_iff : from? l code = none ↔ l ∉ labels code := by
  constructor
  · intro h hmem
    induction code with
    | nil => cases hmem
    | cons s rest ih =>
      rw [from?, Option.or_eq_none_iff] at h
      rw [labels_cons, mem_append] at hmem
      rcases hmem with hs | hmem
      · have hlabel : s.label? = some l := Option.mem_toList.1 hs
        simp [hlabel] at h
      · exact ih h.1 hmem
  · exact fun h ↦ from?_eq_none fun s hs hl ↦ h (mem_filterMap.2 ⟨s, hs, hl⟩)

/-- A label that is defined once is found where it stands. -/
theorem from?_of_count (hcount : (labels code).count l ≤ 1) (h : (s :: rest) <:+ code)
    (hs : s.label? = some l) : from? l code = some (s :: rest) := by
  obtain ⟨pre, rfl⟩ := h
  refine from?_append_cons pre hs fun t ht hl ↦ ?_
  have hmem : l ∈ labels rest := mem_filterMap.2 ⟨t, ht, hl⟩
  have hpos := count_pos_iff.2 hmem
  rw [labels_append, labels_cons, hs, count_append, count_append] at hcount
  simp only [Option.toList_some, count_singleton_self] at hcount
  omega

/-- A label is found where it stands, if all labels differ. -/
theorem from?_of_suffix (hnodup : (labels code).Nodup) (h : (s :: rest) <:+ code)
    (hs : s.label? = some l) : from? l code = some (s :: rest) :=
  from?_of_count (nodup_iff_count_le_one.1 hnodup l) h hs

/-! ### Code without blocks -/

/-- No statement is a block. -/
def Flat (code : List Stmt) : Prop := ∀ s ∈ code, s.flatten = [s]

@[simp] theorem flat_nil : Flat [] := fun _ h ↦ (nomatch h)

@[simp] theorem flat_cons : Flat (s :: rest) ↔ s.flatten = [s] ∧ Flat rest := forall_mem_cons

@[simp] theorem flat_append {xs ys : List Stmt} : Flat (xs ++ ys) ↔ Flat xs ∧ Flat ys :=
  forall_mem_append

theorem Flat.flattenAll (h : Flat code) : flattenAll code = code := by
  induction code with
  | nil => rfl
  | cons s rest ih =>
    obtain ⟨hs, hrest⟩ := flat_cons.1 h
    rw [Stmt.flattenAll, hs, ih hrest]
    rfl

end Stmt

end Wirescript
