import Mathlib.Data.List.Basic
import Mathlib.Data.List.Forall2
import Wirescript.Program.Analysis

/-!
# Declarations and their scopes

A body read from top to bottom is a list of sites: blocks, which open scopes, and declarations, each
in the scope of the innermost block around it. The list knows of no tables and reports nothing. What
the scopes of a routine hold and what is reported follows from it: a scope has the first declaration
of each name, and every later one is an error (`Scoping.Records`).
-/

namespace Wirescript

open List
open Option

structure Declaration where
  scope : Nat
  x : Variable
  /-- Where the declaration is reported, if its name is taken. -/
  span : Span

inductive Site where
  /-- A block, and the scope around it. -/
  | block (span : Span) (around : Nat)
  | declaration (d : Declaration)

namespace Site

def block? : Site → Option (Span × Nat)
  | .block span around => some (span, around)
  | .declaration _ => none

def declaration? : Site → Option Declaration
  | .block .. => none
  | .declaration d => some d

/-- The blocks of a list of sites, with the scopes around them. -/
def blocks (sites : List Site) : List (Span × Nat) := sites.filterMap block?

def declarations (sites : List Site) : List Declaration := sites.filterMap declaration?

@[simp] theorem blocks_append (xs ys : List Site) : blocks (xs ++ ys) = blocks xs ++ blocks ys :=
  filterMap_append

@[simp] theorem declarations_append (xs ys : List Site) :
    declarations (xs ++ ys) = declarations xs ++ declarations ys :=
  filterMap_append

end Site

mutual

/-- The sites of a statement that stands in a scope, from top to bottom. Scopes are numbered in the
order of the blocks, from `next` on. -/
def Stmt.sites (scope next : Nat) : Stmt → List Site
  | .block span items => .block span scope :: Stmt.sitesAll next (next + 1) items
  | .declare _ nameSpan x | .define _ nameSpan x _ => [.declaration ⟨scope, x, nameSpan⟩]
  | .ifThen _ _ body | .whileLoop _ _ body | .doWhile _ body _ | .on _ _ _ body =>
    body.sites scope next
  | .ifElse _ _ body alternative =>
    let first := body.sites scope next
    first ++ alternative.sites scope (next + (Site.blocks first).length)
  | _ => []

@[inherit_doc Stmt.sites]
def Stmt.sitesAll (scope next : Nat) : List Stmt → List Site
  | [] => []
  | s :: rest =>
    let first := s.sites scope next
    first ++ Stmt.sitesAll scope (next + (Site.blocks first).length) rest

end

/-- The sites of a routine: its parameters, and what its body has at the top and further inside. -/
def Routine.sites (r : Routine) (body : Stmt) : List Site :=
  r.parameters.map (fun x ↦ .declaration ⟨0, x, body.span⟩) ++ Stmt.sitesAll 0 1 body.items

namespace Declaration

/-- Both declare one name in one scope. -/
def Clashes (d e : Declaration) : Prop := d.scope = e.scope ∧ d.x.name = e.x.name

instance (d e : Declaration) : Decidable (d.Clashes e) := inferInstanceAs (Decidable (_ ∧ _))

/-- The declarations of a list that come after another one of the same name in the same scope. -/
def repeated (ds : List Declaration) : List Declaration :=
  (ds.zipIdx.filter fun (d, i) ↦ ∃ e ∈ ds.take i, e.Clashes d).map Prod.fst

/-- The variable that the first declaration of a name in a scope declares. -/
def first? (ds : List Declaration) (scope : Nat) (name : String) : Option Variable :=
  (ds.find? fun d ↦ d.scope = scope ∧ d.x.name = name).map Declaration.x

def report (d : Declaration) : Diagnostic := .error (.alreadyDeclared d.x.name) d.span

variable {ds : List Declaration} {d : Declaration} {scope : Nat} {name : String}

theorem repeated_concat :
    repeated (ds ++ [d]) = repeated ds ++ if ∃ e ∈ ds, e.Clashes d then [d] else [] := by
  have hsame : ds.zipIdx.filter (fun (d', i) ↦ ∃ e ∈ (ds ++ [d]).take i, e.Clashes d') =
      ds.zipIdx.filter fun (d', i) ↦ ∃ e ∈ ds.take i, e.Clashes d' := by
    refine filter_congr fun a ha ↦ ?_
    have hlt : a.2 < ds.length := by simpa using snd_lt_of_mem_zipIdx ha
    simp [take_append_of_le_length (Nat.le_of_lt hlt)]
  rw [repeated, zipIdx_append, filter_append, hsame]
  by_cases h : ∃ e ∈ ds, e.Clashes d <;> simp [repeated, h]

theorem first?_concat : first? (ds ++ [d]) scope name =
      (first? ds scope name).or (if d.scope = scope ∧ d.x.name = name then some d.x else none) := by
  by_cases h : d.scope = scope ∧ d.x.name = name <;>
    cases hfind : ds.find? fun d ↦ d.scope = scope ∧ d.x.name = name <;> simp [first?, h]

theorem first?_isSome_iff : (first? ds d.scope d.x.name).isSome ↔ ∃ e ∈ ds, e.Clashes d := by
  simp [first?, Clashes]

theorem first?_eq_none (h : ∀ d ∈ ds, d.scope < scope) : first? ds scope name = none := by
  have hfind : ds.find? (fun d ↦ d.scope = scope ∧ d.x.name = name) = none := by
    refine find?_eq_none.2 fun d hd heq ↦ ?_
    have := h d hd
    simp_all
  rw [first?, hfind, map_none]

end Declaration

namespace Scoping

open Declaration (repeated first? report)

variable {st : Scoping} {root : Span} {sites : List Site} {scope : Nat}

/-- The scopes and the reports are what a list of sites makes of an empty scope. -/
structure Records (st : Scoping) (root : Span) (sites : List Site) : Prop where
  layout : st.tree.scopes.map (fun s ↦ (s.span, s.parent)) =
    (root, none) :: (Site.blocks sites).map fun (span, around) ↦ (span, some around)
  around (i : Nat) (b : Span × Nat) (h : (Site.blocks sites)[i]? = some b) : b.2 ≤ i
  declared : ∀ d ∈ Site.declarations sites, d.scope < st.tree.scopes.length
  symbols : ∀ i s, st.tree.scopes[i]? = some s →
    ∀ name, s.symbols.get? name = first? (Site.declarations sites) i name
  reports : st.diagnostics = (repeated (Site.declarations sites)).map report

namespace Records

section

variable (h : st.Records root sites)

include h

theorem length_eq : st.tree.scopes.length = 1 + (Site.blocks sites).length := by
  simpa [Nat.add_comm] using congrArg List.length h.layout

theorem length_append {st' : Scoping} {more : List Site} (h' : st'.Records root (sites ++ more)) :
    st'.tree.scopes.length = st.tree.scopes.length + (Site.blocks more).length := by
  rw [h'.length_eq, h.length_eq, Site.blocks_append, List.length_append, Nat.add_assoc]

theorem push (hscope : scope < st.tree.scopes.length) (span : Span) :
    Records { st with tree := st.tree.push span scope } root (sites ++ [.block span scope]) := by
  have hds : Site.declarations (sites ++ [.block span scope]) = Site.declarations sites := by
    simp [Site.declarations, Site.declaration?]
  have hlength : (st.tree.push span scope).scopes.length = st.tree.scopes.length + 1 := by
    simp [ScopeTree.push]
  refine ⟨?_, ?_, ?_, ?_, hds ▸ h.reports⟩
  · rw [ScopeTree.push, map_append, h.layout, Site.blocks_append, map_append]
    rfl
  · intro i b hb
    rw [Site.blocks_append, getElem?_append] at hb
    split at hb
    · exact h.around i b hb
    · obtain rfl : b = (span, scope) := mem_singleton.1 (mem_of_getElem? hb)
      have := h.length_eq
      omega
  · rw [hds, hlength]
    exact fun d hd ↦ Nat.lt_succ_of_lt (h.declared d hd)
  · intro i s hs name
    rw [hds]
    rw [ScopeTree.push, getElem?_append] at hs
    split at hs
    · exact h.symbols i s hs name
    -- The scope is the new one, and no declaration so far stands in it.
    · rw [Declaration.first?_eq_none fun d hd ↦ Nat.lt_of_lt_of_le (h.declared d hd) (by omega),
        mem_singleton.1 (mem_of_getElem? hs)]
      rfl

theorem declare (hscope : scope < st.tree.scopes.length) (x : Variable) (span : Span) :
    (st.declare scope x span).Records root (sites ++ [.declaration ⟨scope, x, span⟩]) := by
  obtain ⟨s, hs⟩ : ∃ s, st.tree.scopes[scope]? = some s := ⟨_, getElem?_eq_getElem hscope⟩
  have hblocks : Site.blocks (sites ++ [.declaration ⟨scope, x, span⟩]) = Site.blocks sites := by
    simp [Site.blocks, Site.block?]
  have hds : Site.declarations (sites ++ [.declaration ⟨scope, x, span⟩]) =
      Site.declarations sites ++ [⟨scope, x, span⟩] :=
    Site.declarations_append ..
  have hdeclared : ∀ d ∈ Site.declarations sites ++ [⟨scope, x, span⟩],
      d.scope < st.tree.scopes.length := by
    simpa [or_imp, forall_and] using ⟨h.declared, hscope⟩
  have htaken : s.symbols.contains x.name ↔
      ∃ e ∈ Site.declarations sites, e.Clashes ⟨scope, x, span⟩ := by
    rw [Table.contains, h.symbols scope s hs, ← Declaration.first?_isSome_iff]
  rw [Scoping.declare, hs]
  by_cases hin : s.symbols.contains x.name
  · simp only [hin]
    refine ⟨hblocks ▸ h.layout, hblocks ▸ h.around, hds ▸ hdeclared, fun i s' hs' name ↦ ?_, ?_⟩
    -- The name has its first declaration already, so one more changes nothing.
    · rw [hds, Declaration.first?_concat, h.symbols i s' hs' name]
      split
      case isTrue heq =>
        obtain ⟨rfl, rfl⟩ := heq
        obtain ⟨y, hy⟩ := isSome_iff_exists.1 (Declaration.first?_isSome_iff.2 (htaken.1 hin))
        rw [hy, some_or]
      case isFalse => rw [or_none]
    · rw [hds, Declaration.repeated_concat, if_pos (htaken.1 hin), map_append, h.reports]
      rfl
  · have hnone : s.symbols.get? x.name = none := by simpa [Table.contains] using hin
    simp only [hin, if_false, Bool.false_eq_true]
    refine ⟨?_, hblocks ▸ h.around, ?_, fun i s' hs' name ↦ ?_, ?_⟩
    · rw [hblocks, ← h.layout]
      refine ext_getElem? fun i ↦ ?_
      by_cases hi : scope = i
      · subst hi
        simp only [getElem?_map, getElem?_set_self hscope, hs, map_some]
      · simp [getElem?_set_ne hi]
    · simpa [hds] using hdeclared
    · rw [hds, Declaration.first?_concat]
      by_cases hi : scope = i
      · subst hi
        rw [getElem?_set_self hscope] at hs'
        cases hs'
        by_cases hname : x.name = name
        · subst hname
          rw [h.symbols scope s hs] at hnone
          simp [hnone]
        · rw [Table.get?_insert_of_ne _ _ hname, h.symbols scope s hs, if_neg fun hc ↦ hname hc.2,
            or_none]
      · rw [getElem?_set_ne hi] at hs'
        rw [h.symbols i s' hs' name, if_neg fun hc ↦ hi hc.1, or_none]
    · rw [hds, Declaration.repeated_concat, if_neg fun hc ↦ hin (htaken.2 hc), append_nil]
      exact h.reports

end

mutual

theorem stmt {st : Scoping} {sites : List Site} {scope : Nat} (h : st.Records root sites)
    (hscope : scope < st.tree.scopes.length) (s : Stmt) :
    (Scoping.stmt scope st s).Records root (sites ++ s.sites scope st.tree.scopes.length) := by
  match s with
  | .block span items =>
    have hlength : st.tree.scopes.length + 1 = (st.tree.push span scope).scopes.length := by
      simp [ScopeTree.push]
    rw [Stmt.sites, append_cons, hlength]
    exact (h.push hscope span).stmts (by dsimp only; omega) items
  | .declare _ nameSpan x | .define _ nameSpan x _ => exact h.declare hscope x nameSpan
  | .ifThen _ _ body | .whileLoop _ _ body | .doWhile _ body _ | .on _ _ _ body =>
    exact h.stmt hscope body
  | .ifElse _ _ body alternative =>
    have hbody := h.stmt hscope body
    have hlength := h.length_append hbody
    rw [Stmt.sites, ← append_assoc, ← hlength]
    exact hbody.stmt (by omega) alternative
  | .assign .. | .compound .. | .label .. | .goto .. | .gotoIf .. | .gotoOn .. | .rollback .. | .ret ..
  | .retValue .. | .call .. | .expression .. | .hint .. | .nop .. =>
    simpa only [Scoping.stmt, Stmt.sites, append_nil] using h

theorem stmts {st : Scoping} {sites : List Site} {scope : Nat} (h : st.Records root sites)
    (hscope : scope < st.tree.scopes.length) (items : List Stmt) :
    (Scoping.stmts scope st items).Records root
      (sites ++ Stmt.sitesAll scope st.tree.scopes.length items) := by
  match items with
  | [] => simpa only [Scoping.stmts, Stmt.sitesAll, append_nil] using h
  | s :: rest =>
    have hfirst := h.stmt hscope s
    have hlength := h.length_append hfirst
    rw [Stmt.sitesAll, ← append_assoc, ← hlength]
    exact hfirst.stmts (by omega) rest

end

theorem parameters (h : st.Records root sites) (hscope : scope < st.tree.scopes.length)
    (xs : List Variable) (span : Span) :
    (xs.foldl (fun st x ↦ st.declare scope x span) st).Records root
      (sites ++ xs.map fun x ↦ .declaration ⟨scope, x, span⟩) := by
  induction xs generalizing st sites with
  | nil => simpa using h
  | cons x xs ih =>
    have hx := h.declare hscope x span
    rw [map_cons, append_cons]
    exact ih hx (by rw [h.length_append hx]; omega)

end Records

theorem records_ofBody (r : Routine) (body : Stmt) :
    (ofBody r body).Records body.span (r.sites body) := by
  have hroot : Records { tree := ⟨[{ span := body.span, parent := none }]⟩ } body.span [] := by
    refine ⟨rfl, by simp [Site.blocks], by simp [Site.declarations], fun i s hs name ↦ ?_, rfl⟩
    rw [mem_singleton.1 (mem_of_getElem? hs)]
    rfl
  have hparameters := hroot.parameters Nat.zero_lt_one r.parameters body.span
  have hblocks : Site.blocks (r.parameters.map fun x ↦ .declaration ⟨0, x, body.span⟩) = [] := by
    simp [Site.blocks, Site.block?]
  have hlength := hparameters.length_eq
  rw [nil_append, hblocks] at hlength
  have hbody := hparameters.stmts (hlength.symm ▸ Nat.zero_lt_one : 0 < _) body.items
  rwa [hlength] at hbody

end Scoping

/-- What is reported of a program are its repeated declarations, routine by routine and from top to
bottom, and each scope has the first declaration of each name. -/
theorem Program.redeclarations_reported (p : Program) : p.analyze.diagnostics =
        p.bodies.entries.flatMap (fun (r, body) ↦
          (Declaration.repeated (Site.declarations (r.sites body))).map Declaration.report) ∧
      Forall₂ (fun (r, body) (r', t) ↦ r' = r ∧
          t.scopes.map (fun s ↦ (s.span, s.parent)) = (body.span, none) ::
            (Site.blocks (r.sites body)).map (fun (span, around) ↦ (span, some around)) ∧
          ∀ i s, t.scopes[i]? = some s → ∀ name, s.symbols.get? name =
            Declaration.first? (Site.declarations (r.sites body)) i name)
        p.bodies.entries p.analyze.scopes.entries := by
  constructor
  · rw [Program.analyze]
    rw [flatMap_map]
    exact flatMap_congr fun entry _ ↦ (Scoping.records_ofBody entry.1 entry.2).reports
  · simp only [Program.analyze, forall₂_map_right_iff]
    refine forall₂_same.2 fun entry _ ↦ ?_
    have h := Scoping.records_ofBody entry.1 entry.2
    exact ⟨rfl, h.layout, h.symbols⟩

end Wirescript
