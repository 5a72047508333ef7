import Wirescript.Proofs.Notes
import Wirescript.Proofs.Requests

/-!
# Extraction does everything once

What a body does, apart from control and from reading, are its *deeds*: calls that need an execution
wire, steps of variables, and stores. What flat code does are its *acts*: each assignment is a store,
and a call statement is a call and perhaps a store of the result. Main statement: expressions of an
extracted body have no deeds left in them, and each deed of the body becomes its own acts
(`Deed.Becomes`); besides these there are only stores to temporaries.

Acts are counted in multisets, because what runs before and what runs after the value of an expression
are brought together only later.
-/

namespace Wirescript

open Stmt
open Wirescript.Expr
open List

variable {callee set : Callee} {e : Expr} {arguments es : List Expr}
  {plans : List Extract.Plan} {n : Note} {span : Span} {x : Variable}

/-! ### Deeds -/

/-- Something that a body does. -/
inductive Deed where
  | call (callee : Callee) (arguments : List Expr)
  | step (x : Variable) (down : Bool)
  | store (x : Variable)
  /-- The store of a literal list. -/
  | fill (x : Variable) (items : List Expr)
  /-- A statement in the place of an expression. -/
  | run (body : Stmt)

variable {d : Deed} {ds : List Deed}

/-- A call is a deed if it needs an execution wire. -/
def Callee.deeds (callee : Callee) (arguments : List Expr) : List Deed :=
  if callee.needsStatement then [.call callee arguments] else []

/-- The store of the value. -/
def Expr.stored (x : Variable) : Expr → Deed
  | .segment _ items => .fill x items
  | _ => .store x

/-- A statement that does something, in the place of an expression. -/
def Stmt.wrapped : Stmt → List Deed
  | .nop _ => []
  | s => [.run s]

mutual

/-- What an expression does. -/
def Expr.deeds : Expr → List Deed
  | .literal _ _ | .read _ _ | .error _ => []
  | .unary _ _ operand | .convert _ operand => operand.deeds
  | .binary _ _ left right => left.deeds ++ right.deeds
  | .make _ x y z => x.deeds ++ (y.deeds ++ z.deeds)
  | .call _ callee arguments => allDeeds arguments ++ callee.deeds arguments
  | .step _ x _ down => [.step x down]
  | .segment _ items => allDeeds items
  | .assign _ x value | .compound _ x _ value => value.deeds ++ [value.stored x]
  | .statement _ body => body.wrapped

@[inherit_doc Expr.deeds]
def Expr.allDeeds : List Expr → List Deed
  | [] => []
  | e :: rest => e.deeds ++ allDeeds rest

end

/-- What a flat statement does. The arguments of an event are not looked at. -/
def Stmt.deeds : Stmt → List Deed
  | .define _ _ x value | .assign _ x value => value.deeds ++ [value.stored x]
  | .gotoIf _ _ value _ | .retValue _ value | .expression _ value => value.deeds
  | .call _ callee arguments result =>
    allDeeds arguments ++ (callee.deeds arguments ++ (result.map Deed.store).toList)
  | _ => []

theorem Expr.allDeeds_eq_nil : allDeeds es = [] ↔ ∀ e ∈ es, e.deeds = [] := by
  induction es with
  | nil => simp [allDeeds]
  | cons e rest ih => simp [allDeeds, ih]

/-! ### Acts -/

/-- Something that a flat statement does. -/
inductive Act where
  | call (callee : Callee) (arguments : List Expr)
  /-- A store, of an expression or of the result of a call. -/
  | store (x : Variable) (value : Option Expr)

def Stmt.acts : Stmt → List Act
  | .define _ _ x value | .assign _ x value => [.store x (some value)]
  | .call _ callee arguments result =>
    (if callee.needsStatement then [.call callee arguments] else []) ++
      (result.map (Act.store · none)).toList
  | _ => []

/-- Stores of values to consecutive elements of an array. -/
def elementActs (set : Callee) (array : Expr) (start : Float32) (span : Span)
    (values : List Expr) : List Act :=
  values.zipIdx.map fun entry ↦
    .call set [array, Build.float (start + Float32.ofNat entry.2) span, entry.1]

/-- The built-in function that stores to an element of an array of the type. -/
def Callee.SetsIn (set : Callee) (type : Ty) : Prop :=
  ∃ element, type.element? = some element ∧
    Builtin.resolve "set" [type, .float, element.toTy] .none = .ok set

/-- The acts that a deed becomes: a call is made once, a step is the assignment of the variable counted
up or down, a store is one store to the variable, and a literal list is stored element by element. -/
inductive Deed.Becomes : Deed → List Act → Prop
  | made {callee : Callee} {arguments values : List Expr} (h : callee.range? arguments = none)
      (hlength : values.length = arguments.length) :
      Becomes (.call callee arguments) [.call callee values]
  | spread {callee set : Callee} {arguments items values : List Expr} {array : Expr}
      {start : Float32} (span : Span) (h : callee.range? arguments = some (array, start, items))
      (hset : set.SetsIn array.type) (hlength : values.length = items.length) :
      Becomes (.call callee arguments) (elementActs set array start span values)
  | step (x : Variable) (down : Bool) (span : Span) :
      Becomes (.step x down) [.store x (some (Build.stepped x down span))]
  | store (x : Variable) (value : Option Expr) : Becomes (.store x) [.store x value]
  | fill {set : Callee} {items values : List Expr} (x : Variable) (span : Span)
      (hset : set.SetsIn x.type) (hlength : values.length = items.length) :
      Becomes (.fill x items) (elementActs set (Build.read x span) 0 span values)

/-- What code does. -/
def Stmt.allActs (code : List Stmt) : Multiset Act := (code.flatMap acts : List Act)

@[simp] theorem Stmt.allActs_nil : allActs [] = 0 := rfl

@[simp] theorem Stmt.allActs_cons (s : Stmt) (code : List Stmt) :
    allActs (s :: code) = (s.acts : Multiset Act) + allActs code := by
  simp [allActs]

@[simp] theorem Stmt.allActs_append (code code' : List Stmt) :
    allActs (code ++ code') = allActs code + allActs code' := by
  simp [allActs]

/-- The acts are what the deeds become, and stores to temporaries. -/
def Done (V : Vocabulary) (deeds : List Deed) (acts : Multiset Act) : Prop :=
  ∃ (images : List (List Act)) (temps : List Act), Forall₂ Deed.Becomes deeds images ∧
    (∀ a ∈ temps, ∃ x value, a = .store x value ∧ V.var x) ∧
    acts = (images.flatten : Multiset Act) + (temps : Multiset Act)

namespace Done

variable {V : Vocabulary} {ds' : List Deed} {m m' : Multiset Act}

theorem nil : Done V [] 0 := ⟨[], [], .nil, by simp, rfl⟩

theorem single {image : List Act} (h : d.Becomes image) : Done V [d] image :=
  ⟨[image], [], .cons h .nil, by simp, by simp⟩

theorem append (h : Done V ds m) (h' : Done V ds' m') : Done V (ds ++ ds') (m + m') := by
  obtain ⟨images, temps, himages, htemps, rfl⟩ := h
  obtain ⟨images', temps', himages', htemps', rfl⟩ := h'
  refine ⟨images ++ images', temps ++ temps', rel_append himages himages', ?_, ?_⟩
  · exact forall_mem_append.2 ⟨htemps, htemps'⟩
  · rw [flatten_append, ← Multiset.coe_add, ← Multiset.coe_add]
    abel

/-- The acts in another order. -/
theorem of_eq (h : Done V ds m) (hm : m' = m) : Done V ds m' := hm ▸ h

/-- A store to a temporary is free. -/
theorem temporary (hx : V.var x) (value : Option Expr) :
    Done V [] ({.store x value} : Multiset Act) :=
  ⟨[], [.store x value], .nil, by simpa using hx, by simp⟩

theorem add_temporary (h : Done V ds m) (hx : V.var x) (value : Option Expr) :
    Done V ds (m + {.store x value}) := by
  simpa using h.append (temporary hx value)

end Done

/-! ### Bodies that can be extracted without loss -/

/-- What is asked of a call that stores to a range of an array. -/
structure Callee.Ranges (callee : Callee) (arguments : List Expr) : Prop where
  /-- The array is a variable. -/
  array (h : callee.builtin?.any (·.name == "setRange") = true) :
    ∀ a ∈ arguments.head?, a.read?.isSome = true
  /-- A call that stores a literal list has no result, -/
  void {array : Expr} {start : Float32} {items : List Expr}
    (h : callee.range? arguments = some (array, start, items)) :
    callee.needsStatement = true ∧ callee.returnType.isVoid = true
  /-- and its first index does nothing. -/
  start {array : Expr} {start : Float32} {items : List Expr}
    (h : callee.range? arguments = some (array, start, items)) :
    ∀ a ∈ arguments[1]?, a.deeds = []

/-- The node is no statement, and its call is as it should be. -/
def Expr.Hoisted : Expr → Prop
  | .call _ callee arguments => callee.Ranges arguments
  | .statement _ _ => False
  | _ => True

/-- An expression whose value is used: no call in it is without a result. -/
def Expr.Valued (e : Expr) : Prop := e.Each (fun e ↦ e.Hoisted ∧ ¬ e.IsVoid) fun _ ↦ True

/-- The values of a flat statement are used, but for that of an expression that is the statement. The
result of a call that stores a literal list to a range is not kept. -/
def Stmt.Hoistable : Stmt → Prop
  | .expression _ e => e.Hoisted ∧ ∀ c ∈ e.operands, c.Valued
  | .call _ callee arguments result =>
    callee.Ranges arguments ∧ (result.isSome = true → callee.range? arguments = none) ∧
      ∀ c ∈ arguments, c.Valued
  | s => ∀ c ∈ s.operands, c.Valued

theorem Callee.Ranges.range?_eq_none (h : callee.Ranges arguments)
    (hvoid : ¬ callee.returnType.isVoid = true) : callee.range? arguments = none := by
  rcases hrange : callee.range? arguments with - | ⟨array, start, items⟩
  · rfl
  · exact absurd (h.void hrange).2 hvoid

/-- The root of an expression may be looked at apart from what is below. -/
theorem Expr.Hoisted.each {P : Expr → Prop} (he : e.Hoisted) (h : P e)
    (hoperands : ∀ c ∈ e.operands, c.Each P fun _ ↦ True) : e.Each P fun _ ↦ True := by
  cases e
  case statement => exact he.elim
  all_goals simp_all [Expr.Each, Expr.operands, Expr.allEach_iff]

theorem Expr.Valued.hoisted (h : e.Valued) : e.Each Hoisted fun _ ↦ True :=
  Expr.Each.map₂ (fun _ h _ ↦ h.1) (fun _ _ _ ↦ trivial) h h

theorem Stmt.mem_flattenAll {s t : Stmt} {items : List Stmt} (hs : s ∈ items) (ht : t ∈ s.flatten) :
    t ∈ flattenAll items := by
  rw [flattenAll_eq_flatMap]
  exact mem_flatMap.2 ⟨s, hs, ht⟩

theorem Expr.deeds_of_read? (h : e.read?.isSome = true) : e.deeds = [] := by
  cases e <;> first | rfl | cases h

theorem needsStatement_of_resolve_set {types : List Ty}
    (h : Builtin.resolve "set" types .none = .ok set) : set.needsStatement = true := by
  have hset : ∀ b ∈ Builtin.named "set", b.isStatement = true := by decide +kernel
  obtain ⟨b, hb, t, rfl⟩ := Extract.exists_of_resolve h
  exact hset b hb

namespace Extract

variable {V : Vocabulary}

/-! ### Counting acts -/

/-- Around the value of the expression its deeds are done. -/
def Split.Does (V : Vocabulary) (e : Expr) (s : Split) : Prop :=
  Done V e.deeds (allActs s.before + allActs s.after)

/-- Around the values of the expressions their deeds are done. -/
structure Operands.Does (V : Vocabulary) (es : List Expr) (o : Operands) : Prop where
  done : Done V (allDeeds es) (allActs o.before + allActs o.after)
  length : o.values.node.length = es.length

section

variable {s : Split}

theorem Split.Does.effects (hs : Split.Does V e s) : Done V e.deeds (allActs s.effects) :=
  hs.of_eq (by simp [Split.effects])

/-- A statement that reads the value does what it does besides. -/
theorem Split.Does.around (hs : Split.Does V e s) (use : Expr → Stmt)
    (huse : Done V ds ((use s.value.node).acts : Multiset Act)) :
    Done V (e.deeds ++ ds) (allActs (s.around use)) := by
  refine (hs.append huse).of_eq ?_
  simp only [Split.around, allActs_append, allActs_cons]
  abel

theorem keeps_ahead_does (needed : Bool) (hs : Split.Does V e s) :
    Keeps V (Split.Does V e) (ahead needed s) := by
  unfold ahead
  split
  · split
    · exact .pure (hs.of_eq (by simp))
    · refine (keeps_temporary _).bind fun x hx ↦ .pure ?_
      refine (hs.add_temporary hx (some s.value.node)).of_eq ?_
      simp only [allActs_append, allActs_cons, acts, Multiset.coe_singleton]
      abel
  · exact .pure hs

theorem keeps_gather_does {splits : List Split} (h : Forall₂ (Split.Does V) es splits) :
    Keeps V (Operands.Does V es) (gather splits) := by
  induction h with
  | nil => exact .pure ⟨.nil, rfl⟩
  | cons hs _ ih =>
    refine (keeps_ahead_does _ hs).bind fun s' hs' ↦ ih.bind fun o ho ↦ .pure ⟨?_, ?_⟩
    · refine (hs'.append ho.done).of_eq ?_
      simp only [allActs_append]
      abel
    · exact congrArg (· + 1) ho.length

/-- A store of the value is one store. -/
theorem Split.Does.store (hs : Split.Does V e s) (x : Variable) (span : Span) :
    Done V (e.deeds ++ [.store x]) (allActs (s.around (.assign span x))) :=
  hs.around _ (.single (.store x _))

theorem keeps_shortCircuit_does {op : BinaryOp} {left right : Expr} {l r : Split}
    (hl : Split.Does V left l) (hr : Split.Does V right r) :
    Keeps V (Split.Does V (.binary n op left right)) (shortCircuit op l r span) := by
  refine (keeps_temporary _).bind fun x hx ↦ (keeps_label (by decide)).bind fun skip _ ↦ .pure ?_
  have hleft := hl.around (.assign span x) (.temporary hx (some l.value.node))
  have hright := hr.around (.assign span x) (.temporary hx (some r.value.node))
  rw [append_nil] at hleft hright
  refine (hleft.append hright).of_eq ?_
  simp [acts]

/-- The calls that store to the elements of an array are its acts. -/
theorem allActs_elementStores (hset : set.needsStatement = true) (array : Expr) (start : Float32)
    (span : Span) (values : List Expr) : allActs (values.zipIdx.map fun (value, i) ↦
      Stmt.call span set [array, Build.float (start + Float32.ofNat i) span, value] none) =
      (elementActs set array start span values : Multiset Act) := by
  rw [allActs, flatMap_map, elementActs, map_eq_flatMap]
  simp [acts, hset]

theorem keeps_elementStores_does {array : Expr} {start : Float32} {items : Extract Operands}
    (hitems : Keeps V (Operands.Does V es) items)
    (hd : ∀ set values, set.SetsIn array.type → values.length = es.length →
      d.Becomes (elementActs set array start span values)) :
    Keeps V (fun code ↦ Done V (allDeeds es ++ [d]) (allActs code))
      (elementStores array start items span) := by
  unfold elementStores
  split
  · next element helement =>
    split
    · exact .throw
    · next set hset =>
      refine hitems.bind fun o ho ↦ .pure ?_
      have hstores := hd set o.values.node ⟨element, helement, hset⟩ ho.length
      refine (ho.done.append (.single hstores)).of_eq ?_
      rw [allActs_append, allActs_append,
        allActs_elementStores (needsStatement_of_resolve_set hset)]
      abel
  · exact .throw

end

namespace Plan

/-- The uses of the expression do what it does. -/
structure Does (V : Vocabulary) (e : Expr) (p : Plan) : Prop where
  value : Keeps V (Split.Does V e) p.value
  store (x : Variable) (span : Span) :
    Keeps V (fun code ↦ Done V (e.deeds ++ [e.stored x]) (allActs code)) (p.store x span)
  discard : Keeps V (fun code ↦ Done V e.deeds (allActs code)) p.discard
  items {n : Note} {es : List Expr} (h : e = .segment n es) :
    Keeps V (Operands.Does V es) (operands (exprs es))

variable {value : Extract Split} {effects : Extract (List Stmt)}

theorem does_ofEffects (he : e.IsOperation) (hvalue : Keeps V (Split.Does V e) value)
    (heffects : Keeps V (fun code ↦ Done V e.deeds (allActs code)) effects) :
    (ofEffects effects value).Does V e where
  value := hvalue
  store x span := by
    have hstored : e.stored x = .store x := by
      cases e
      case segment n es => exact absurd rfl (he.noList n es)
      all_goals rfl
    rw [hstored]
    exact hvalue.bind fun s hs ↦ .pure (hs.store x span)
  discard := heffects
  items h := absurd h (he.noList _ _)

theorem does_ofValue (he : e.IsOperation) (hvalue : Keeps V (Split.Does V e) value) :
    (ofValue value).Does V e :=
  does_ofEffects he hvalue (hvalue.bind fun _ hs ↦ .pure hs.effects)

theorem keeps_operands_does (h : Forall₂ (Does V) es plans) :
    Keeps V (Operands.Does V es) (operands plans) :=
  (Keeps.values (h.imp fun _ _ hp ↦ hp.value)).bind fun _ ↦ keeps_gather_does

/-- A call statement makes the call and stores its result. -/
theorem done_call {o : Operands} (ho : Operands.Does V es o) (hrange : callee.range? es = none)
    {result : Option Variable}
    (hresult : Done V ds ((result.map (Act.store · none)).toList : List Act)) :
    Done V (allDeeds es ++ (callee.deeds es ++ ds))
      (allActs (o.before ++ .call span callee o.values.node result :: o.after)) := by
  have hcall : Done V (callee.deeds es)
      ((if callee.needsStatement then [Act.call callee o.values.node] else [] : List Act)) := by
    unfold Callee.deeds
    split
    · exact .single (.made hrange ho.length)
    · exact .nil
  refine (ho.done.append (hcall.append hresult)).of_eq ?_
  simp only [allActs_append, allActs_cons, acts, ← Multiset.coe_add]
  abel

/-- The plans find the same range as the arguments show. -/
theorem range?_exprs (callee : Callee) (arguments : List Expr) :
    (callee.range? arguments = none ∧ range? callee arguments (exprs arguments) = none) ∨
    ∃ array start n es index, arguments = [array, start, .segment n es] ∧
      callee.range? arguments = some (array, index, es) ∧
      range? callee arguments (exprs arguments) = some (array, index, operands (exprs es)) := by
  have hrenders : Forall₂ (Renders Vocabulary.all) arguments (exprs arguments) :=
    renders_exprs arguments
  rcases range?_renders callee hrenders with
    h | ⟨array, start, n, es, index, items, rfl, hrange, hplans, -⟩
  · exact .inl h
  · obtain ⟨_, _, es', heq, -, rfl⟩ := Scheme.Lawful.range?_eq_some hplans
    cases heq
    exact .inr ⟨array, start, n, es, index, rfl, hrange, hplans⟩

theorem keeps_callStatement_does (result : Option Variable) (span : Span)
    (hranges : callee.Ranges arguments)
    (hresult : result.isSome = true → callee.range? arguments = none)
    (h : Forall₂ (Does V) arguments (exprs arguments)) :
    Keeps V (fun code ↦ Done V (allDeeds arguments ++
        (callee.deeds arguments ++ (result.map Deed.store).toList)) (allActs code))
      (callStatement callee arguments (exprs arguments) result span) := by
  unfold callStatement
  rcases range?_exprs callee arguments with
    ⟨hnone, hplans⟩ | ⟨array, start, n, es, index, rfl, hrange, hplans⟩
  · rw [hplans]
    refine (keeps_operands_does h).bind fun o ho ↦ .pure (done_call ho hnone ?_)
    cases result with
    | none => exact .nil
    | some x => exact .single (.store x none)
  · rw [hplans]
    obtain rfl : result = none := by
      cases result with
      | none => rfl
      | some x => simp [hrange] at hresult
    simp only [exprs, forall₂_cons] at h
    -- the array and the first index do nothing
    have harray : array.deeds = [] := by
      obtain ⟨_, _, _, -, hname, -⟩ := Scheme.Lawful.range?_eq_some hplans
      exact deeds_of_read? (hranges.array hname array rfl)
    have hstart : start.deeds = [] := hranges.start hrange start rfl
    have hdeeds : allDeeds [array, start, .segment n es] ++
        (callee.deeds [array, start, .segment n es] ++ (none.map Deed.store).toList) =
        allDeeds es ++ [.call callee [array, start, .segment n es]] := by
      simp [allDeeds, Expr.deeds, harray, hstart, Callee.deeds, (hranges.void hrange).1]
    rw [hdeeds]
    exact keeps_elementStores_does (h.2.2.1.items rfl) fun set values hset hlength ↦
      .spread span hrange hset hlength

theorem keeps_discard_does (n : Note) (hranges : callee.Ranges arguments)
    (h : Forall₂ (Does V) arguments (exprs arguments)) :
    Keeps V (fun code ↦ Done V (Expr.call n callee arguments).deeds (allActs code))
      (callStatement callee arguments (exprs arguments) none n.span) := by
  have hcall := keeps_callStatement_does none n.span hranges (by simp) h
  rwa [Option.map_none, Option.toList_none, append_nil] at hcall

theorem keeps_callValue_does (hranges : callee.Ranges arguments)
    (hvoid : ¬ callee.returnType.isVoid = true) (h : Forall₂ (Does V) arguments plans) :
    Keeps V (Split.Does V (.call n callee arguments)) (callValue n callee plans) := by
  have hnone := hranges.range?_eq_none hvoid
  refine (keeps_operands_does h).bind fun o ho ↦ ?_
  split
  · refine (keeps_temporary _).bind fun x hx ↦ .pure ?_
    have hcall : Done V (allDeeds arguments ++ (callee.deeds arguments ++ []))
        (allActs (o.before ++ .call n.span callee o.values.node (some x) :: o.after)) :=
      done_call ho hnone (.temporary hx none)
    rw [append_nil] at hcall
    exact hcall.of_eq (by simp)
  · next hneeds =>
    have hdeeds : (Expr.call n callee arguments).deeds = allDeeds arguments := by
      simp [Expr.deeds, Callee.deeds, hneeds]
    refine .pure ?_
    rw [Split.Does, hdeeds]
    exact ho.done

theorem keeps_segmentValue_does (h : Forall₂ (Does V) es plans) :
    Keeps V (Split.Does V (.segment n es)) (segmentValue n plans) := by
  refine (keeps_operands_does h).bind fun o ho ↦ ?_
  split
  · exact .pure ho.done
  · exact .throw

end Plan

mutual

/-- The plan of an expression whose value is used does what the expression does. -/
theorem does_expr {e : Expr} (he : e.Valued) : (expr e).Does V e := by
  match e with
  | .literal n value | .read n x | .error n =>
    exact Plan.does_ofValue (by constructor <;> simp) (.pure .nil)
  | .unary n op operand | .convert n operand =>
    exact Plan.does_ofValue (by constructor <;> simp)
      ((does_expr he.2).value.bind fun o ho ↦ .pure ho)
  | .binary n op left right =>
    refine Plan.does_ofValue (by constructor <;> simp) ((does_expr he.2.1).value.bind fun l hl ↦
      (does_expr he.2.2).value.bind fun r hr ↦ ?_)
    split
    · exact keeps_shortCircuit_does hl hr
    · refine (keeps_ahead_does _ hl).bind fun l' hl' ↦ .pure ((hl'.append hr).of_eq ?_)
      simp only [allActs_append]
      abel
  | .make n x y z =>
    refine Plan.does_ofValue (by constructor <;> simp) ((does_expr he.2.1).value.bind fun sx hx ↦
      (does_expr he.2.2.1).value.bind fun sy hy ↦ (does_expr he.2.2.2).value.bind fun sz hz ↦
      (keeps_ahead_does _ hx).bind fun sx' hx' ↦ (keeps_ahead_does _ hy).bind fun sy' hy' ↦
      .pure ((hx'.append (hy'.append hz)).of_eq ?_))
    simp only [allActs_append]
    abel
  | .call n callee arguments =>
    rw [expr]
    have hplans := does_exprs he.2
    have hnone := he.1.1.range?_eq_none he.1.2
    have hvalue : Keeps V (Split.Does V (.call n callee arguments))
        (Plan.callValue n callee (exprs arguments)) :=
      Plan.keeps_callValue_does he.1.1 he.1.2 hplans
    refine ⟨hvalue, fun x span ↦ ?_, ?_, by simp⟩
    · dsimp only
      split
      · rw [Expr.deeds, append_assoc]
        exact Plan.keeps_callStatement_does (some x) span he.1.1 (fun _ ↦ hnone) hplans
      · exact hvalue.bind fun s hs ↦ .pure (hs.store x span)
    · exact Plan.keeps_discard_does n he.1.1 hplans
  | .step n x yieldsNew down =>
    have hstep : Done V [.step x down] (allActs [step x down n.span]) :=
      (Done.single (.step x down n.span)).of_eq (by simp [step, acts])
    refine Plan.does_ofEffects (by constructor <;> simp) (.pure ?_) (.pure hstep)
    cases yieldsNew <;> exact hstep.of_eq (by simp)
  | .segment n items =>
    have hplans := does_exprs he.2
    have hvalue : Keeps V (Split.Does V (.segment n items))
        (Plan.segmentValue n (exprs items)) := Plan.keeps_segmentValue_does hplans
    refine ⟨hvalue, fun x span ↦ ?_, hvalue.bind fun s hs ↦ .pure hs.effects, fun h ↦ ?_⟩
    · exact keeps_elementStores_does (Plan.keeps_operands_does hplans)
        fun set values hset hlength ↦ .fill x span hset hlength
    · cases h
      exact Plan.keeps_operands_does hplans
  | .assign n x value =>
    have heffects := (does_expr he.2).store x n.span
    exact Plan.does_ofEffects (by constructor <;> simp)
      (heffects.bind fun code hcode ↦ .pure (hcode.of_eq (by simp))) heffects
  | .compound n x op value => exact Plan.does_ofValue (by constructor <;> simp) .throw
  | .statement n body => exact he.1.1.elim

theorem does_exprs {es : List Expr}
    (hes : Expr.AllEach (fun e ↦ e.Hoisted ∧ ¬ e.IsVoid) (fun _ ↦ True) es) :
    Forall₂ (Plan.Does V) es (exprs es) := by
  match es with
  | [] => exact .nil
  | e :: rest => exact .cons (does_expr hes.1) (does_exprs hes.2)

end

/-- The code of a statement does what the statement does. -/
theorem does_flat {s : Stmt} (hs : s.Hoistable) (hflat : ∀ span items, s ≠ .block span items) :
    Keeps V (fun code ↦ Done V s.deeds (allActs code)) (stmt s) := by
  cases s with
  | block span items => exact absurd rfl (hflat span items)
  | declare | label | goto | ret | hint | nop | gotoOn | rollback => exact .pure .nil
  | define span nameSpan x value =>
    have hvalue : (expr value).Does V value := does_expr (hs value (by simp [Stmt.operands]))
    cases value
    case segment | call =>
      exact (hvalue.store x span).bind fun code hcode ↦ .pure (hcode.of_eq (by simp [acts]))
    all_goals
      rw [stmt]
      · exact hvalue.value.bind fun v hv ↦ .pure (hv.around _ (.single (.store x _)))
      · simp
      · simp
  | assign span x value => exact (does_expr (hs value (by simp [Stmt.operands]))).store x span
  | gotoIf span target value sense =>
    refine (does_expr (hs value (by simp [Stmt.operands]))).value.bind fun v hv ↦
      (keeps_ahead_does _ hv).bind fun v' hv' ↦ .pure ?_
    have hcode := hv'.around (fun condition ↦ .gotoIf span target condition sense) .nil
    rwa [append_nil] at hcode
  | retValue span value =>
    refine (does_expr (hs value (by simp [Stmt.operands]))).value.bind fun v hv ↦
      (keeps_ahead_does _ hv).bind fun v' hv' ↦ .pure ?_
    have hcode := hv'.around (.retValue span) .nil
    rwa [append_nil] at hcode
  | call span callee arguments result =>
    exact Plan.keeps_callStatement_does result span hs.1 hs.2.1
      (does_exprs (Expr.allEach_iff.2 hs.2.2))
  | expression span e =>
    by_cases hvoid : e.IsVoid
    · -- a call without a result is a statement
      cases e
      case call n callee arguments =>
        exact Plan.keeps_discard_does n hs.1 (does_exprs (Expr.allEach_iff.2 hs.2))
      case statement => exact hs.1.elim
      all_goals exact hvoid.elim
    · exact (does_expr (hs.1.each ⟨hs.1, hvoid⟩ hs.2)).discard
  | compound | ifThen | ifElse | whileLoop | doWhile | on => exact .throw

mutual

theorem does_stmt {s : Stmt} (hs : ∀ t ∈ s.flatten, t.Hoistable) :
    Keeps V (fun code ↦ Done V (s.flatten.flatMap Stmt.deeds) (allActs code)) (stmt s) := by
  by_cases hblock : ∃ span items, s = .block span items
  · obtain ⟨span, items, rfl⟩ := hblock
    exact does_stmts hs
  · have hflat : s.flatten = [s] := by
      cases s
      case block span items => exact absurd ⟨span, items, rfl⟩ hblock
      all_goals rfl
    rw [hflat] at hs ⊢
    rw [flatMap_singleton]
    exact does_flat (hs s (by simp)) fun span items h ↦ hblock ⟨span, items, h⟩
termination_by sizeOf s

theorem does_stmts {items : List Stmt} (hs : ∀ t ∈ flattenAll items, t.Hoistable) :
    Keeps V (fun code ↦ Done V ((flattenAll items).flatMap Stmt.deeds) (allActs code))
      (stmts items) := by
  match items with
  | [] => exact .pure .nil
  | s :: rest =>
    obtain ⟨hs, hrest⟩ := forall_mem_append.1 hs
    refine (does_stmt hs).bind fun code hcode ↦ (does_stmts hrest).bind fun code' hcode' ↦ .pure ?_
    rw [flattenAll, flatMap_append, allActs_append]
    exact hcode.append hcode'
termination_by sizeOf items

end

/-! ### Expressions without deeds -/

/-- What extraction leaves in expressions does nothing. -/
def idleScheme : Scheme where
  fault _ := True
  supply _ := True
  source e := e.Each Hoisted fun _ ↦ True
  sourceStmt s := ∀ t ∈ s.flatten, t.Hoistable
  target _ := True
  calls := Callee.Ranges
  value _ r := r.node.deeds = []
  values _ r := allDeeds r.node = []
  array e := e.deeds = []
  line s := ∀ c ∈ s.operands, c.deeds = []
  code _ code _ := ∀ s ∈ code, ∀ c ∈ s.operands, c.deeds = []

theorem deeds_choose {changed : Bool} {kept derived : Expr} (hkept : kept.deeds = [])
    (hderived : derived.deeds = []) : (Revised.choose changed kept derived).node.deeds = [] := by
  cases changed with
  | true => exact hderived
  | false => exact hkept

theorem lawful_idleScheme : idleScheme.Lawful where
  breach _ := trivial
  fresh _ _ := ⟨trivial, trivial⟩
  skipped _ := trivial
  operand {e} h := by cases e <;> simp_all [idleScheme, Expr.Each, Expr.operands, Expr.allEach_iff]
  operandStmt {s} h c hc := by
    cases s
    case block => cases hc
    case expression span e =>
      obtain rfl := mem_singleton.1 hc
      have he := h _ (mem_singleton.2 rfl)
      exact he.1.each he.1 fun c hc ↦ (he.2 c hc).hoisted
    case call => exact ((h _ (mem_singleton.2 rfl)).2.2 c hc).hoisted
    all_goals exact (h _ (mem_singleton.2 rfl) c hc).hoisted
  body h := h.1.elim
  item h _ hs t ht := h t (mem_flattenAll hs ht)
  written _ _ _ := trivial
  writtenStmt _ _ _ := trivial
  callee h := h.1
  calleeStmt h := (h _ (mem_singleton.2 rfl)).1
  straight h := h
  append h h' := forall_mem_append.2 ⟨h, h'⟩
  skip sense span _ _ h h' := by
    refine forall_mem_append.2 ⟨h, forall_mem_cons.2 ⟨?_, ?_⟩⟩
    · simp [Stmt.operands, Build.read, Expr.deeds]
    · exact forall_mem_append.2 ⟨h', by simp [Stmt.operands]⟩
  plain {e} _ he := by cases e <;> first | rfl | exact he.elim
  unary _ hr := deeds_choose hr hr
  convert _ hr := deeds_choose hr hr
  binary _ hr hr' := deeds_choose (append_eq_nil_iff.2 ⟨hr, hr'⟩)
    (append_eq_nil_iff.2 ⟨hr, hr'⟩)
  make _ ha hb hc := by
    have hnone := append_eq_nil_iff.2 ⟨ha, append_eq_nil_iff.2 ⟨hb, hc⟩⟩
    exact deeds_choose hnone hnone
  call {n c es r} _ hc hr := by
    have hnone : allDeeds r.node ++ c.deeds r.node = [] := by
      rw [Callee.deeds, hc, hr]
      rfl
    exact deeds_choose hnone hnone
  segment _ _ hr := deeds_choose hr hr
  reread _ _ _ _ := rfl
  left _ _ _ _ := rfl
  void _ _ _ _ := rfl
  nil := rfl
  cons hr hrs := append_eq_nil_iff.2 ⟨hr, hrs⟩
  read _ _ := rfl
  range hname hc _ := deeds_of_read? (hc.array hname _ rfl)
  element {a v span _ _ _ _} index ha _ hr hv := by
    simp only [idleScheme, Stmt.operands, forall_mem_cons]
    exact ⟨ha, rfl, allDeeds_eq_nil.1 hr v hv, forall_mem_nil _⟩
  assign _ _ _ hr := by simpa [idleScheme, Stmt.operands] using hr
  stepped _ _ _ := by
    simp [idleScheme, step, Stmt.operands, Build.stepped, Build.binary, Build.read, Build.float,
      Build.literal, Expr.deeds]
  lineCall _ _ hr _ _ := allDeeds_eq_nil.1 hr
  stays {s} _ hs := by cases s <;> first | exact forall_mem_nil _ | exact hs.elim
  declare _ := forall_mem_nil _
  define _ _ _ hr := by simpa [idleScheme, Stmt.operands] using hr
  gotoIf _ hr := by simpa [idleScheme, Stmt.operands] using hr
  retValue _ hr := by simpa [idleScheme, Stmt.operands] using hr

end Extract

/-- Extraction does everything once. No expression of the extracted body does anything. Every call
that needs an execution wire, every step and every store of the body becomes acts of its own, and
these are all that the extracted body does besides stores to temporaries that it made up. -/
theorem Extracted.does_once {routine : Routine} {body : Stmt} {e : Extracted}
    (hbody : ∀ s ∈ body.flatten, s.Hoistable) (h : extract routine body = .ok e) :
    (∀ s ∈ e.statements, ∀ c ∈ s.operands, c.deeds = []) ∧
    ∃ (images : List (List Act)) (temps : List Act),
      Forall₂ Deed.Becomes (body.flatten.flatMap Stmt.deeds) images ∧
      (∀ a ∈ temps, ∃ n type value, a = .store (.slot (Extract.slot routine.id n type)) value) ∧
      (images.flatten ++ temps).Perm (e.statements.flatMap Stmt.acts) := by
  obtain ⟨ξ, hyields⟩ := extract_eq_ok h
  constructor
  · exact (Extract.Scheme.From.of_yields (Extract.lawful_idleScheme.from_stmt hbody) trivial
      hyields).2
  · let V : Vocabulary := { Vocabulary.all with
      var x := ∃ n type, x = .slot (Extract.slot routine.id n type) }
    have hsupplies : Extract.Supplies V (.ofRoutine routine) :=
      ⟨rfl, fun n type ↦ ⟨n, type, rfl⟩, fun _ _ _ ↦ trivial⟩
    obtain ⟨-, images, temps, himages, htemps, hacts⟩ :=
      Extract.does_stmt hbody _ _ ξ hsupplies hyields
    refine ⟨images, temps, himages, fun a ha ↦ ?_, ?_⟩
    · obtain ⟨x, value, rfl, n, type, rfl⟩ := htemps a ha
      exact ⟨n, type, value, rfl⟩
    · rw [Stmt.allActs, Multiset.coe_add, Multiset.coe_eq_coe] at hacts
      exact hacts.symm

/-! ### Small bodies -/

/-- A routine with a result. -/
def teller : Routine := .declare 1 "f" [] .float {}

def tellerCall : Expr := Build.call (.routine teller) [] default

def tally : Variable := .slot ⟨.declared 2, "x", .float, .scoped, {}⟩

/-- A list stored to a range from a first index on, by a call of a given result type. -/
def rangeStore (start : Expr) (items : List Expr) (result : Ty) : Expr :=
  Build.call (.builtin ((Builtin.find? "setRange").getD default) result)
    [Build.read (.slot ⟨.declared 3, "a", .array .float, .scoped, {}⟩) default, start,
      Build.segment .float items default] default

/-- `x = x++ + f(); setRange(a, 1, [f(), x])`. -/
def busy : Stmt :=
  .block default [
    .assign default tally
      (Build.binary .add (Build.step tally false false default) tellerCall default),
    .expression default
      (rangeStore (Build.float 1 default) [tellerCall, Build.read tally default] .void)]

theorem Extracted.does_once_busy : (∀ s ∈ busy.flatten, s.Hoistable) ∧
    ∃ e, extract (.declare 0 "main" [] .void {}) busy = .ok e ∧
      (∀ s ∈ e.statements, ∀ c ∈ s.operands, c.deeds = []) ∧
      ∃ (images : List (List Act)) (temps : List Act),
        Forall₂ Deed.Becomes (busy.flatten.flatMap Stmt.deeds) images ∧
        (∀ a ∈ temps, ∃ n type value, a = .store (.slot (Extract.slot 0 n type)) value) ∧
        (images.flatten ++ temps).Perm (e.statements.flatMap Stmt.acts) := by
  have hcall : tellerCall.Valued :=
    ⟨⟨⟨by decide, by simp [Callee.range?], by simp⟩,
      by simp [tellerCall, Expr.IsVoid, Build.call]; decide⟩, trivial⟩
  have hbusy : ∀ s ∈ busy.flatten, s.Hoistable := by
    refine forall_mem_cons.2 ⟨?_, forall_mem_cons.2 ⟨?_, forall_mem_nil _⟩⟩
    · refine forall_mem_cons.2 ⟨?_, forall_mem_nil _⟩
      exact ⟨⟨trivial, id⟩, ⟨⟨trivial, id⟩, trivial⟩, hcall⟩
    · refine ⟨⟨fun _ ↦ by simp [Build.read, Expr.read?], fun h ↦ ⟨rfl, rfl⟩, fun _ ↦ ?_⟩, ?_⟩
      · simp [Build.float, Build.literal, Expr.deeds]
      · refine forall_mem_cons.2 ⟨⟨⟨trivial, id⟩, trivial⟩, forall_mem_cons.2
          ⟨⟨⟨trivial, id⟩, trivial⟩, forall_mem_cons.2 ⟨?_, forall_mem_nil _⟩⟩⟩
        exact ⟨⟨trivial, id⟩, hcall, ⟨⟨trivial, id⟩, trivial⟩, trivial⟩
  exact ⟨hbusy, _, rfl, Extracted.does_once hbusy rfl⟩

def Deed.routine? : Deed → Option Routine
  | .call callee _ => callee.routine?
  | _ => none

def Deed.variable? : Deed → Option Variable
  | .store x => some x
  | _ => none

def Act.routine? : Act → Option Routine
  | .call callee _ => callee.routine?
  | .store _ _ => none

def Act.variable? : Act → Option Variable
  | .call _ _ => none
  | .store x _ => some x

/-- `setRange(a, f(), [2])`, where the result of `f` is taken to be known. -/
def knownStart : Stmt :=
  .expression default (rangeStore (.call ⟨.float, default, some (.float 1)⟩ (.routine teller) [])
    [Build.float 2 default] .void)

/-- `x = setRange(a, 1, [2])`, where the call is taken to have a result. -/
def keptRange : Stmt :=
  .assign default tally (rangeStore (Build.float 1 default) [Build.float 2 default] .float)

/-- A first index whose value is known is not run, and a store of a literal list to a range leaves no
result to store. -/
theorem Extracted.lost_from_ranges :
    ((knownStart.flatten.flatMap Stmt.deeds).filterMap Deed.routine?).map (·.id) = [1] ∧
    (∃ e, extract (.declare 0 "main" [] .void {}) knownStart = .ok e ∧
      (e.statements.flatMap Stmt.acts).filterMap Act.routine? = []) ∧
    (keptRange.flatten.flatMap Stmt.deeds).filterMap Deed.variable? = [tally] ∧
    ∃ e, extract (.declare 0 "main" [] .void {}) keptRange = .ok e ∧
      (e.statements.flatMap Stmt.acts).filterMap Act.variable? = [] :=
  ⟨rfl, ⟨_, rfl, rfl⟩, rfl, _, rfl, rfl⟩

end Wirescript
