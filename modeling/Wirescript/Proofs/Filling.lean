import Wirescript.Proofs.Reextraction

/-!
# Lists stored to arrays

A literal list that is assigned to an array, or stored to a range of it, becomes one store for each
element, and every element is computed when its own store runs. `Store` is a memory with arrays; it
tells at which place of an array an element is, `Expr.evalIn` reads elements, and `Expr.gets` lists
the elements that a value depends on.

So an element of the list is computed in the memory that the stores before it have left. It has its
old value if it reads no element that they have written, and only then is the list stored as if all
of it had been read first.
-/

namespace Wirescript

open Wirescript.Expr
open List

variable {array : Expr} {start : Float32} {items : List Expr} {code : List Stmt} {span : Span}
  {v : Value} {x : Variable}

/-! ### Memory with arrays -/

/-- The cells of variables and the elements of arrays. -/
structure Store (κ ι : Type) where
  cells : Memory κ := {}
  elements : Memory (κ × ι) := {}

variable {κ ι : Type} [DecidableEq κ] [DecidableEq ι]

section

variable (key : Slot → κ) (place : Float32 → ι)

namespace Store

/-- Where an element of an array is. -/
def site (x : Variable) (index : Float32) : κ × ι := (key x.root, place index)

/-- The element that a call reads, if it reads one. -/
def site? (callee : Callee) (arguments : List Expr) (values : List Value) : Option (κ × ι) :=
  match arguments, values with
  | [array, _], [_, .float index] =>
    if callee.builtin?.any (·.emission = .elementOf) then array.read?.map (site key place · index)
    else none
  | _, _ => none

/-- The value of a call: computed by the evaluator of the callee, or read from an array. -/
def answer? (σ : Store κ ι) (callee : Callee) (arguments : List Expr) (values : List Value) :
    Option Value :=
  match callee.builtin?.bind Builtin.evaluator with
  | some evaluator => evaluator.compute? values
  | none => (site? key place callee arguments values).map fun k ↦
    ((σ.elements.get? k).or callee.returnType.default?).getD .null

end Store

mutual

/-- The value of an expression without effects that may read elements of arrays. -/
def Expr.evalIn (σ : Store κ ι) (e : Expr) : Except Fault Value :=
  match e.constant with
  | some value => .ok value
  | none =>
    match e with
    | .unary n op operand => do
      let v ← operand.evalIn σ
      (Expr.unary n op operand).valued (op.compute? v)
    | .binary n op left right => do
      let l ← left.evalIn σ
      let r ← right.evalIn σ
      (Expr.binary n op left right).valued (op.compute? l r)
    | .make n x y z => do
      let x ← x.evalIn σ
      let y ← y.evalIn σ
      let z ← z.evalIn σ
      return .ofComponents n.type ⟨x.float?.getD 0, y.float?.getD 0, z.float?.getD 0⟩
    | .convert n operand => do
      let v ← operand.evalIn σ
      return v.converted n.type
    | .call n callee arguments => do
      let values ← evalAllIn σ arguments
      (Expr.call n callee arguments).valued (σ.answer? key place callee arguments values)
    | other => other.eval key σ.cells

@[inherit_doc evalIn]
def Expr.evalAllIn (σ : Store κ ι) : List Expr → Except Fault (List Value)
  | [] => .ok []
  | e :: rest => do
    let v ← e.evalIn σ
    return v :: (← evalAllIn σ rest)

end

mutual

/-- The elements that the value of an expression depends on. -/
def Expr.gets (σ : Store κ ι) : Expr → List (κ × ι)
  | .unary _ _ operand | .convert _ operand => operand.gets σ
  | .binary _ _ left right => left.gets σ ++ right.gets σ
  | .make _ x y z => x.gets σ ++ y.gets σ ++ z.gets σ
  | .call _ callee arguments =>
    allGets σ arguments ++ ((evalAllIn key place σ arguments).toOption.bind
      (Store.site? key place callee arguments)).toList
  | _ => []

@[inherit_doc gets]
def Expr.allGets (σ : Store κ ι) : List Expr → List (κ × ι)
  | [] => []
  | e :: rest => e.gets σ ++ allGets σ rest

end

namespace Store

/-- Runs an assignment or a store to an element. -/
def execute (σ : Store κ ι) : Stmt → Except Fault (Store κ ι)
  | .assign _ x value => do
    let v ← value.evalIn key place σ
    return { σ with cells := ← σ.cells.store key x v }
  | .call s callee [array, index, value] none =>
    match callee.builtin?.any (·.emission = .elementStore), array.read?, index.constantFloat? with
    | true, some x, some i => do
      let v ← value.evalIn key place σ
      return { σ with elements := σ.elements.insert (site key place x i) v }
    | _, _, _ => .error (.internal (.notFlat (.call s callee [array, index, value] none)))
  | other => .error (.internal (.notFlat other))

/-- Runs assignments and stores to elements, one after the other. -/
def run (σ : Store κ ι) : List Stmt → Except Fault (Store κ ι)
  | [] => .ok σ
  | s :: rest => do (← σ.execute key place s).run rest

end Store

end

section

variable {key : Slot → κ} {place : Float32 → ι} {σ σ' μ : Store κ ι}

theorem Expr.evalIn_of_constant {e : Expr} (h : e.constant = some v) :
    e.evalIn key place σ = .ok v := by
  rw [evalIn.eq_def, h]

mutual

/-- Arrays give values to expressions that had none, and change no value. -/
theorem Expr.evalIn_of_eval {e : Expr} {v : Value} (h : e.eval key σ.cells = .ok v) :
    e.evalIn key place σ = .ok v := by
  rcases hconstant : e.constant with - | w
  · rw [evalIn.eq_def, hconstant]
    match e with
    | .literal .. | .read .. | .step .. | .segment .. | .assign .. | .compound .. | .error _
    | .statement .. => exact h
    | .unary n op operand =>
      obtain ⟨a, ha, hv⟩ := (eval_unary hconstant).1 h
      simp only [evalIn_of_eval ha]
      exact valued_eq_ok.2 hv
    | .binary n op left right =>
      obtain ⟨a, b, ha, hb, hv⟩ := (eval_binary hconstant).1 h
      simp only [evalIn_of_eval ha, evalIn_of_eval hb]
      exact valued_eq_ok.2 hv
    | .make n x y z =>
      rw [eval.eq_def, hconstant] at h
      obtain ⟨a, ha, h⟩ := bind_eq_ok.1 h
      obtain ⟨b, hb, h⟩ := bind_eq_ok.1 h
      obtain ⟨c, hc, h⟩ := bind_eq_ok.1 h
      simp only [evalIn_of_eval ha, evalIn_of_eval hb, evalIn_of_eval hc]
      exact h
    | .convert n operand =>
      rw [eval.eq_def, hconstant] at h
      obtain ⟨a, ha, h⟩ := bind_eq_ok.1 h
      simp only [evalIn_of_eval ha]
      exact h
    | .call n callee arguments =>
      rw [eval.eq_def, hconstant] at h
      simp only at h
      split at h
      · cases h
      · next evaluator hevaluator =>
        obtain ⟨vs, hvs, h⟩ := bind_eq_ok.1 h
        simp only [evalAllIn_of_evalAll hvs, Store.answer?, hevaluator]
        exact h
  · rw [eval_of_constant hconstant] at h
    rw [evalIn_of_constant hconstant, h]

@[inherit_doc evalIn_of_eval]
theorem Expr.evalAllIn_of_evalAll {es : List Expr} {vs : List Value}
    (h : evalAll key σ.cells es = .ok vs) : evalAllIn key place σ es = .ok vs := by
  match es with
  | [] => exact h
  | e :: rest =>
    obtain ⟨a, ha, h⟩ := bind_eq_ok.1 h
    obtain ⟨as, has, h⟩ := bind_eq_ok.1 h
    rw [evalAllIn, evalIn_of_eval ha, evalAllIn_of_evalAll has]
    exact h

end

mutual

/-- A value depends on the cells, and on the elements that are read. -/
theorem Expr.evalIn_congr {e : Expr} (hcells : μ.cells = σ.cells)
    (h : ∀ k ∈ e.gets key place σ, μ.elements.get? k = σ.elements.get? k) :
    e.evalIn key place μ = e.evalIn key place σ := by
  rw [evalIn.eq_def, evalIn.eq_def key place σ]
  split
  · rfl
  · match e with
    | .literal .. | .read .. | .step .. | .segment .. | .assign .. | .compound .. | .error _
    | .statement .. => simp only [hcells]
    | .unary _ _ operand | .convert _ operand =>
      rw [gets] at h
      simp [evalIn_congr hcells h]
    | .binary n op left right =>
      simp only [gets, forall_mem_append] at h
      simp only [evalIn_congr hcells h.1, evalIn_congr hcells h.2]
    | .make n x y z =>
      simp only [gets, forall_mem_append] at h
      simp only [evalIn_congr hcells h.1.1, evalIn_congr hcells h.1.2,
        evalIn_congr hcells h.2]
    | .call n callee arguments =>
      rw [gets, forall_mem_append] at h
      simp only [evalAllIn_congr hcells h.1]
      rcases hvs : evalAllIn key place σ arguments with fault | vs
      · rfl
      · -- The arguments have the values they had, so the same element is read, and it is as it was.
        have hsite : ∀ k ∈ Store.site? key place callee arguments vs,
            μ.elements.get? k = σ.elements.get? k := by
          intro k hk
          exact h.2 k (by simpa [hvs, Except.toOption] using hk)
        have hanswer : μ.answer? key place callee arguments vs =
            σ.answer? key place callee arguments vs := by
          rw [Store.answer?, Store.answer?]
          split
          · rfl
          · rcases hk : Store.site? key place callee arguments vs with - | k
            · rfl
            · simp [hsite k hk]
        exact congrArg (Expr.call n callee arguments).valued hanswer

@[inherit_doc evalIn_congr]
theorem Expr.evalAllIn_congr {es : List Expr} (hcells : μ.cells = σ.cells)
    (h : ∀ k ∈ allGets key place σ es, μ.elements.get? k = σ.elements.get? k) :
    evalAllIn key place μ es = evalAllIn key place σ es := by
  match es with
  | [] => rfl
  | e :: rest =>
    rw [allGets, forall_mem_append] at h
    rw [evalAllIn, evalAllIn, evalIn_congr hcells h.1,
      evalAllIn_congr hcells h.2]

end

/-! ### Stores one after the other -/

namespace Extract

/-- Stores to the elements of an array from a number on. -/
def stores (span : Span) (set : Callee) (array : Expr) (start : Float32) :
    List Expr → Nat → List Stmt
  | [], _ => []
  | value :: rest, i =>
    .call span set [array, Build.float (start + Float32.ofNat i) span, value] none ::
      stores span set array start rest (i + 1)

theorem map_zipIdx_eq_stores {set : Callee} {f : Expr × Nat → Stmt} (hf : ∀ value i, f (value, i) =
      .call span set [array, Build.float (start + Float32.ofNat i) span, value] none)
    (items : List Expr) (n : Nat) :
    (items.zipIdx n).map f = stores span set array start items n := by
  induction items generalizing n with
  | nil => rfl
  | cons value rest ih => rw [zipIdx_cons, map_cons, hf, ih, stores]

end Extract

namespace Store

/-- Where the elements of a list are stored that is stored from an index on. -/
def siteAt (key : Slot → κ) (place : Float32 → ι) (x : Variable) (start : Float32) (i : Nat) : κ × ι :=
  site key place x (start + Float32.ofNat i)

/-- Values have been written to consecutive elements of an array and nothing else has changed. Where
two of the elements are at one place, the last one is there. -/
structure Filled (key : Slot → κ) (place : Float32 → ι) (x : Variable) (start : Float32) (n : Nat)
    (values : List Value) (σ σ' : Store κ ι) : Prop where
  cells : σ'.cells = σ.cells
  written {i : Nat} {v : Value} (h : values[i]? = some v)
    (hlast : ∀ j, i < j → j < values.length →
      siteAt key place x start (n + j) ≠ siteAt key place x start (n + i)) :
    σ'.elements.get? (siteAt key place x start (n + i)) = some v
  kept {k : κ × ι} (h : ∀ i < values.length, siteAt key place x start (n + i) ≠ k) :
    σ'.elements.get? k = σ.elements.get? k

variable {n : Nat} {values : List Value}

theorem Filled.nil (σ : Store κ ι) : Filled key place x start n [] σ σ where
  cells := rfl
  written h := by simp at h
  kept _ := rfl

/-- What is stored last is stored over what was stored first. -/
theorem Filled.cons (h : Filled key place x start (n + 1) values
      { σ with elements := σ.elements.insert (siteAt key place x start n) v } σ') :
    Filled key place x start n (v :: values) σ σ' where
  cells := h.cells
  written {i w} hi hlast := by
    cases i with
    | zero =>
      obtain rfl : v = w := by simpa using hi
      rw [h.kept fun j hj ↦ ?_]
      · exact Table.get?_insert_self _ _ _
      · have hne := hlast (j + 1) (Nat.succ_pos j) (by simpa using hj)
        rwa [show n + (j + 1) = n + 1 + j by omega] at hne
    | succ i =>
      have hi' : values[i]? = some w := by simpa using hi
      rw [show n + (i + 1) = n + 1 + i by omega]
      refine h.written hi' fun j hij hj ↦ ?_
      have hne := hlast (j + 1) (by omega) (by simpa using hj)
      rwa [show n + (j + 1) = n + 1 + j by omega, show n + (i + 1) = n + 1 + i by omega] at hne
  kept {k} hk := by
    rw [h.kept fun i hi ↦ ?_]
    · exact Table.get?_insert_of_ne _ v (hk 0 (by simp))
    · have hne := hk (i + 1) (by simpa using hi)
      rwa [show n + (i + 1) = n + 1 + i by omega] at hne

variable {set : Callee}

/-- The callee stores to an element, and the array is a variable. -/
structure Stores (set : Callee) (array : Expr) (x : Variable) : Prop where
  callee : set.builtin?.any (·.emission = .elementStore) = true
  array : array.read? = some x

theorem execute_store (h : Stores set array x) (i : Nat) (value : Expr) : σ.execute key place
        (.call span set [array, Build.float (start + Float32.ofNat i) span, value] none) =
      (value.evalIn key place σ).map fun v ↦
        { σ with elements := σ.elements.insert (siteAt key place x start i) v } := by
  simp only [execute, h.callee, h.array]
  rcases value.evalIn key place σ with fault | v <;> rfl

/-- Each value is the one that its expression has after the stores before it. -/
def InTurn (key : Slot → κ) (place : Float32 → ι) (σ : Store κ ι) (code : List Stmt)
    (items : List Expr) (values : List Value) : Prop :=
  values.length = items.length ∧ ∀ i e v, items[i]? = some e → values[i]? = some v →
    ∃ μ, σ.run key place (code.take i) = .ok μ ∧ e.evalIn key place μ = .ok v

theorem filled_of_run (h : Stores set array x)
    (hrun : σ.run key place (Extract.stores span set array start items n) = .ok σ') :
    ∃ values, Filled key place x start n values σ σ' ∧
      InTurn key place σ (Extract.stores span set array start items n) items values := by
  induction items generalizing n σ with
  | nil =>
    obtain rfl : σ = σ' := Except.ok.inj hrun
    exact ⟨[], .nil σ, rfl, by simp⟩
  | cons e rest ih =>
    rw [Extract.stores, run, execute_store h] at hrun
    obtain ⟨μ, hμ, hrun⟩ := bind_eq_ok.1 hrun
    rcases hv : e.evalIn key place σ with fault | v
    · rw [hv] at hμ
      cases hμ
    · rw [hv] at hμ
      cases hμ
      obtain ⟨values, hfilled, hlength, hturn⟩ := ih hrun
      refine ⟨v :: values, hfilled.cons, by simpa using hlength, fun i e' w he hw ↦ ?_⟩
      cases i with
      | zero =>
        obtain rfl : e = e' := by simpa using he
        obtain rfl : v = w := by simpa using hw
        exact ⟨σ, rfl, hv⟩
      | succ i =>
        obtain ⟨μ, hμ, hw⟩ := hturn i e' w (by simpa using he) (by simpa using hw)
        refine ⟨μ, ?_, hw⟩
        rw [Extract.stores, take_succ_cons, run, execute_store h, hv]
        exact hμ

/-- A list none of whose items reads what is stored before it is stored as it was. Here `μ` is the
memory before all stores and `σ` the one after the first `n` of them. -/
theorem exists_run_of_unread (h : Stores set array x)
    (hvalues : Forall₂ (fun e v ↦ e.evalIn key place μ = .ok v) items values)
    (hcells : σ.cells = μ.cells)
    (hagrees : μ.elements.Agrees (fun k ↦ ∃ i < n, siteAt key place x start i = k) σ.elements)
    (hunread : ∀ i e, items[i]? = some e → ∀ k ∈ e.gets key place μ, ∀ j < n + i,
      siteAt key place x start j ≠ k) :
    ∃ σ', σ.run key place (Extract.stores span set array start items n) = .ok σ' ∧
      Filled key place x start n values σ σ' := by
  induction hvalues generalizing n σ with
  | nil => exact ⟨σ, rfl, .nil σ⟩
  | @cons e v rest values hv _ ih =>
    have hsame : e.evalIn key place σ = .ok v := by
      rw [← hv]
      refine evalIn_congr hcells fun k hk ↦ hagrees k ?_
      rintro ⟨i, hi, heq⟩
      exact hunread 0 e rfl k hk i hi heq
    obtain ⟨σ', hrun, hfilled⟩ := ih
      (σ := { σ with elements := σ.elements.insert (siteAt key place x start n) v }) hcells
      (fun k hk ↦ by
        rw [Table.get?_insert_of_ne _ v fun heq ↦ hk ⟨n, Nat.lt_succ_self n, heq⟩]
        refine hagrees k ?_
        rintro ⟨i, hi, heq⟩
        exact hk ⟨i, Nat.lt_succ_of_lt hi, heq⟩)
      (fun i e' he' k hk j hj ↦ hunread (i + 1) e' he' k hk j (by omega))
    refine ⟨σ', ?_, hfilled.cons⟩
    rw [Extract.stores, run, execute_store h, hsame]
    exact hrun

end Store

end

/-! ### What lists become -/

namespace Extract

variable {ξ ξ' : Extractor}

/-- A list without effects is stored element by element, and nothing else is done. -/
theorem yields_elementStores_of_allPure (harray : array.read? = some x)
    (hitems : allPure items = true)
    (h : Yields (elementStores array start (Plan.operands (exprs items)) span) ξ code ξ') :
    ξ' = ξ ∧ ∃ set, Store.Stores set array x ∧ code = stores span set array start items 0 := by
  unfold elementStores at h
  split at h
  · split at h
    · cases h
    · next set hset =>
      obtain ⟨o, ξ₁, ho, hcode⟩ := yields_bind.1 h
      obtain ⟨rfl, rfl⟩ := (Stands.operands (stands_of_allPure hitems)).of_yields ho
      cases hcode
      refine ⟨rfl, set, ⟨?_, harray⟩, ?_⟩
      · have hnamed : ∀ b ∈ Builtin.named "set", b.emission = .elementStore := by decide +kernel
        obtain ⟨b, hb, t, rfl⟩ := exists_of_resolve hset
        simpa [Callee.builtin?] using hnamed b hb
      · simp only [append_nil]
        exact map_zipIdx_eq_stores (fun _ _ ↦ rfl) items 0
  · cases h

end Extract

/-- The statement stores a literal list to an array, from an index on. -/
inductive Stmt.StoresList (x : Variable) : Stmt → Float32 → List Expr → Prop
  | assign (span : Span) (n : Note) (items : List Expr) :
      StoresList x (.assign span x (.segment n items)) 0 items
  | range {callee : Callee} {array start : Expr} {index : Float32} (span : Span) (n : Note)
      (items : List Expr) (result : Option Variable)
      (hcallee : callee.builtin?.any (·.name == "setRange") = true)
      (harray : array.read? = some x) (hstart : start.constantFloat? = some index) :
      StoresList x (.call span callee [array, start, .segment n items] result) index items

theorem Stmt.StoresList.yields {st : Stmt} {ξ ξ' : Extractor} (h : st.StoresList x start items)
    (hitems : allPure items = true) (hcode : Yields (Extract.stmt st) ξ code ξ') :
    ∃ span set array, Store.Stores set array x ∧
      code = Extract.stores span set array start items 0 := by
  cases h with
  | assign span n items =>
    obtain ⟨-, set, hset, rfl⟩ := Extract.yields_elementStores_of_allPure rfl hitems hcode
    exact ⟨span, set, _, hset, rfl⟩
  | @range callee array first index span n items result hcallee harray hstart =>
    have hrange : Extract.Plan.range? callee [array, first, .segment n items]
        (Extract.exprs [array, first, .segment n items]) =
          some (array, start, Extract.Plan.operands (Extract.exprs items)) := by
      simp [Extract.Plan.range?, Extract.exprs, Extract.expr, hcallee, hstart]
    rw [Extract.stmt, Extract.Plan.callStatement, hrange] at hcode
    obtain ⟨-, set, hset, rfl⟩ := Extract.yields_elementStores_of_allPure harray hitems hcode
    exact ⟨span, set, array, hset, rfl⟩

/-- A list without effects that is stored to an array is stored in turn: an element gets the value
that it has after the stores before it, and only elements of the list are written. If no item reads
an element that is stored before it, all stores run and the elements get the values that they had
before the statement. -/
theorem Stmt.StoresList.stored_inTurn (key : Slot → κ) (place : Float32 → ι) {st : Stmt}
    {x : Variable} {start : Float32} {items : List Expr} {code : List Stmt} {ξ ξ' : Extractor}
    (h : st.StoresList x start items) (hitems : Expr.allPure items = true)
    (hcode : Yields (Extract.stmt st) ξ code ξ') (σ : Store κ ι) :
    (∀ σ', σ.run key place code = .ok σ' → ∃ values,
      Store.Filled key place x start 0 values σ σ' ∧ Store.InTurn key place σ code items values) ∧
    (∀ values, Forall₂ (fun e v ↦ e.evalIn key place σ = .ok v) items values →
      (∀ i e, items[i]? = some e → ∀ k ∈ e.gets key place σ, ∀ j < i,
        Store.siteAt key place x start j ≠ k) →
      ∃ σ', σ.run key place code = .ok σ' ∧ Store.Filled key place x start 0 values σ σ') := by
  obtain ⟨-, set, array, hset, rfl⟩ := h.yields hitems hcode
  refine ⟨fun σ' hrun ↦ Store.filled_of_run hset hrun, fun values hvalues hunread ↦ ?_⟩
  refine Store.exists_run_of_unread hset hvalues rfl (.refl _ _) fun i e he k hk j hj ↦ ?_
  exact hunread i e he k hk j (by omega)

/-- An array of numbers. -/
def numbers : Variable := .slot ⟨.declared 0, "a", .array .float, .global, {}⟩

/-- An element of the array, as a script reads it. -/
def numbersAt (index : Float32) : Expr :=
  Build.call (.builtin ((Builtin.find? "get").getD default) .float)
    [Build.read numbers default, Build.float index default] default

/-- A list stored to the array: `setRange(a, start, items)`. -/
def storeNumbers (start : Float32) (items : List Expr) : Stmt :=
  .call default (.builtin ((Builtin.find? "setRange").getD default) .void)
    [Build.read numbers default, Build.float start default, Build.segment .float items default] none

/-- The array with the numbers one, two and three. -/
def threeNumbers : Store Slot UInt32 where
  elements := ⟨[((numbers.root, 0), .float 1), ((numbers.root, 1), .float 2),
    ((numbers.root, 2), .float 3)]⟩

/-- The last two numbers move to the front. Each of them is read before it is written. -/
theorem Stmt.StoresList.stored_inTurn_moved :
    ∃ code σ', Yields (Extract.stmt (storeNumbers 0 [numbersAt 1, numbersAt 2])) default code default ∧
      threeNumbers.run id Float32.toUInt32 code = .ok σ' ∧
      Store.Filled id Float32.toUInt32 numbers 0 0 [.float 2, .float 3] threeNumbers σ' := by
  obtain ⟨code, hcode⟩ : ∃ code, Yields (Extract.stmt (storeNumbers 0 [numbersAt 1, numbersAt 2]))
      default code default := ⟨_, rfl⟩
  have hstores : (storeNumbers 0 [numbersAt 1, numbersAt 2]).StoresList numbers 0
      [numbersAt 1, numbersAt 2] := .range _ _ _ _ (by decide +kernel) rfl rfl
  have hunread : ∀ i e, [numbersAt 1, numbersAt 2][i]? = some e →
      ∀ k ∈ e.gets id Float32.toUInt32 threeNumbers, ∀ j < i,
        Store.siteAt id Float32.toUInt32 numbers 0 j ≠ k := by
    rintro (- | - | i) e he k hk j hj
    · cases hj
    · cases he
      obtain rfl : j = 0 := by omega
      obtain rfl : k = (numbers.root, 2) := mem_singleton.1 hk
      decide +kernel
    · cases he
  obtain ⟨-, hold⟩ := hstores.stored_inTurn id Float32.toUInt32 (by decide +kernel) hcode
    threeNumbers
  obtain ⟨σ', hrun, hfilled⟩ := hold [.float 2, .float 3] (.cons rfl (.cons rfl .nil)) hunread
  exact ⟨code, σ', hcode, hrun, hfilled⟩

/-- A list that is stored need not be the list that was read. The first two numbers do not change
places if each is stored to where the other one was: `a = [get(a, 1), get(a, 0)]`. And beyond the
numbers that a float counts one by one, two elements are stored to one place. -/
theorem storesList_clobbers : (∃ code σ', Yields (Extract.stmt (.assign default numbers
          (Build.segment .float [numbersAt 1, numbersAt 0] default))) default code default ∧
        (numbersAt 0).evalIn id Float32.toUInt32 threeNumbers = .ok (.float 1) ∧
        threeNumbers.run id Float32.toUInt32 code = .ok σ' ∧
        σ'.elements.get? (numbers.root, 1) = some (.float 2)) ∧
      ∃ code σ', Yields (Extract.stmt (storeNumbers 16777216
            [Build.float 1 default, Build.float 2 default])) default code default ∧
          threeNumbers.run id Float32.toUInt32 code = .ok σ' ∧
          σ'.elements.get? (numbers.root, 16777216) = some (.float 2) ∧
          σ'.elements.get? (numbers.root, 16777217) = none :=
  ⟨⟨_, _, rfl, rfl, rfl, rfl⟩, ⟨_, _, rfl, rfl, rfl, rfl⟩⟩

end Wirescript
