import Wirescript.Proofs.Notes
import Wirescript.Proofs.Preparation

/-!
# Notes stay truthful

Every pass leaves a sound tree sound. Extraction derives notes again above what it takes out, and the
variable that stands for a value has the type of the value. Copying and naming keep the notes and
replace the variables: an expression has a value after that if it has it in the memory where every
cell is looked up under its new name, so a note that was truthful in every memory still is.
-/

namespace Wirescript

open Stmt
open Wirescript.Expr
open List

variable {entry : (Variable × Expr) × Nat} {b flat : Bodies} {callee : Callee} {e : Expr}
  {notices' : List Notice} {inlined : List Routine} {p : Program} {r : Routine} {body s : Stmt}

/-! ### Extraction -/

/-- All statements of the code are sound. -/
def Stmt.CodeSound (code : List Stmt) : Prop := ∀ s ∈ code, s.AllSound

@[simp] theorem Stmt.codeSound_nil : CodeSound [] := by simp [CodeSound]

@[simp] theorem Stmt.codeSound_cons {rest : List Stmt} :
    CodeSound (s :: rest) ↔ s.AllSound ∧ CodeSound rest := forall_mem_cons

@[simp] theorem Stmt.codeSound_append {xs ys : List Stmt} :
    CodeSound (xs ++ ys) ↔ CodeSound xs ∧ CodeSound ys := forall_mem_append

/-- A choice between a node with the note it came with and one with a derived note. -/
theorem Revised.Suits.choose {kept derived : Expr} {changed : Bool} (he : e.AllSound)
    (hkept : changed = false → kept = e) (hderived : derived.AllSound)
    (htype : derived.type = e.type) : (Revised.choose changed kept derived).Suits e := by
  cases changed with
  | true => exact ⟨hderived, htype, Bool.noConfusion⟩
  | false =>
    obtain rfl := hkept rfl
    exact .refl he

namespace Extract

/-- A variable of the type of an expression stands for it. -/
theorem suits_read {x : Variable} (hx : x.type = e.type) (span : Span) :
    (Revised.new (Build.read x span)).Suits e :=
  ⟨.read x span, hx, Bool.noConfusion⟩

/-- Built-in functions take any arguments. -/
theorem takes_resolve {name : String} {types : List Ty} {span : Span}
    (h : Builtin.resolve name types span = .ok callee) (es : List Expr) : callee.Takes es := by
  obtain ⟨b, -, t, rfl⟩ := exists_of_resolve h
  intro r hr
  cases hr

/-- What extraction makes of a sound tree is sound. -/
def soundScheme : Scheme where
  fault _ := True
  supply _ := True
  source := Expr.AllSound
  sourceStmt := Stmt.AllSound
  target _ := True
  calls := Callee.Takes
  value e r := r.Suits e
  values es r := r.SuitsAll es
  array := Expr.AllSound
  line := Stmt.AllSound
  code _ code _ := CodeSound code

theorem lawful_soundScheme : soundScheme.Lawful where
  breach _ := trivial
  fresh _ _ := ⟨trivial, trivial⟩
  skipped _ := trivial
  operand {e} h := by cases e <;> simp_all [soundScheme, Expr.Each, Expr.operands, Expr.allEach_iff]
  operandStmt {s} h := by
    cases s <;> simp_all [soundScheme, Stmt.Each, Stmt.operands, Expr.allEach_iff]
  body h := h.2
  item h := Stmt.allEach_iff.1 h.2
  written _ _ _ := trivial
  writtenStmt _ _ _ := trivial
  callee h := h.sound.regular.shape.2.2
  calleeStmt h := h.1
  straight h := h
  append h h' := codeSound_append.2 ⟨h, h'⟩
  skip _ span _ _ h h' := codeSound_append.2 ⟨h, codeSound_cons.2
    ⟨⟨trivial, AllSound.read _ span⟩, codeSound_append.2
      ⟨h', codeSound_cons.2 ⟨⟨trivial, trivial⟩, codeSound_nil⟩⟩⟩⟩
  plain h _ := .refl h
  unary {n op _ _} h hr := .choose h (fun hc ↦ by rw [hr.same hc]) (.unary op hr.sound n.span)
    ((congrArg op.resultType hr.type).trans h.sound.typed.symm)
  convert {n _ _} h hr := .choose h (fun hc ↦ by rw [hr.same hc])
    (.convert hr.sound n.type n.span) rfl
  binary {n op _ _ _ _} h hr hr' := by
    refine .choose h (fun hc ↦ ?_) (.binary op hr.sound hr'.sound n.span)
      ((congrArg₂ op.resultType hr.type hr'.type).trans h.sound.typed.symm)
    obtain ⟨hc, hc'⟩ := Bool.or_eq_false_iff.1 hc
    rw [hr.same hc, hr'.same hc']
  make {n _ _ _ _ _ _} h ha hb hc := by
    refine .choose h (fun hchanged ↦ ?_)
      (.make h.sound.vectorLike ha.sound hb.sound hc.sound n.span) rfl
    obtain ⟨hab, hcc⟩ := Bool.or_eq_false_iff.1 hchanged
    obtain ⟨hac, hbc⟩ := Bool.or_eq_false_iff.1 hab
    rw [ha.same hac, hb.same hbc, hc.same hcc]
  call h _ hr := by
    obtain ⟨-, hcomputes, htakes⟩ := h.sound.regular.shape
    refine .choose h (fun hc ↦ by rw [hr.same hc]) ⟨?_, hr.sound⟩ h.sound.typed.symm
    exact .of_unknown rfl rfl ⟨by simp [Certain, constant, note], hcomputes,
      htakes.of_types hr.types⟩
  segment {n _ _ element} h hn hr := by
    obtain ⟨element', helement⟩ : ∃ element, n.type = .segment element := h.sound.typed
    rw [helement] at hn
    cases hn
    refine .choose h (fun hc ↦ by rw [hr.same hc]) ⟨?_, hr.sound⟩ helement.symm
    exact .of_unknown ⟨element, rfl⟩ rfl trivial
  reread span _ hr htype := suits_read (htype.trans hr.type) span
  left {e x} span h _ he := by
    refine suits_read ?_ span
    cases e
    case call => exact he.trans h.sound.typed.symm
    case step | assign => exact (congrArg Variable.type he).trans h.sound.typed.symm
    case binary n op left right =>
      refine he.2.trans (.symm (h.sound.typed.trans ?_))
      cases op <;> first | rfl | exact absurd he.1 (by decide)
    all_goals exact he.elim
  void {e} span h he _ := by
    refine ⟨.nop span, ?_, Bool.noConfusion⟩
    cases e
    case call n callee arguments =>
      have hvoid : callee.returnType = .void := by
        have hvoid : callee.returnType.isVoid = true := he
        cases h : callee.returnType <;> rw [h] at hvoid <;> first | rfl | cases hvoid
      exact hvoid.symm.trans h.sound.typed.symm
    case statement => exact h.sound.typed.symm
    all_goals exact he.elim
  nil := ⟨trivial, rfl, fun _ ↦ rfl⟩
  cons hr hrs := .cons hr hrs
  read span _ := .read _ span
  range _ _ h := h
  element _ ha hset hr hv := ⟨takes_resolve hset _, ha, AllSound.literal _ _,
    Expr.allEach_iff.1 hr.sound _ hv, trivial⟩
  assign _ _ _ hr := ⟨trivial, hr.sound⟩
  stepped _ span _ := ⟨trivial, AllSound.binary _ (.read _ span) (.literal _ span) span⟩
  lineCall _ h hr _ _ := ⟨h.of_types hr.types, hr.sound⟩
  stays h _ := h
  declare _ := ⟨trivial, trivial⟩
  define _ _ _ hr := ⟨trivial, hr.sound⟩
  gotoIf _ hr := ⟨trivial, hr.sound⟩
  retValue _ hr := ⟨trivial, hr.sound⟩

end Extract

/-- A sound body is sound when its effects have been extracted. -/
theorem Extracted.allSound {routine : Routine} {e : Extracted} (hbody : body.AllSound)
    (he : extract routine body = .ok e) : e.body.AllSound := by
  obtain ⟨ξ, hyields⟩ := extract_eq_ok he
  have hsound := Extract.Scheme.From.of_yields (Extract.lawful_soundScheme.from_stmt hbody)
    trivial hyields
  exact ⟨trivial, Stmt.allEach_iff.2 hsound.2⟩

/-! ### Replaced symbols -/

/-- What notes depend on stays: the shapes and types of variables and of parameters. What takes the
place of a return is sound. -/
structure Substitution.Faithful (σ : Substitution) (image : Slot → Slot) : Prop where
  moves : σ.Moves image
  type (x : Variable) : (σ.var x).type = x.type
  returnType (r : Routine) : (σ.routine r).returnType = r.returnType
  parameters (r : Routine) : ∃ f : Variable → Variable,
    (σ.routine r).parameters = r.parameters.map f ∧
      ∀ p, (f p).isComponent = p.isComponent ∧ (f p).type = p.type
  ret (span : Span) : (σ.ret span).AllSound
  retValue (span : Span) {e : Expr} (h : e.AllSound) : (σ.retValue span e).AllSound

theorem Expr.note_substitute (σ : Substitution) (e : Expr) : (e.substitute σ).note = e.note := by
  cases e <;> rfl

theorem Expr.type_substitute (σ : Substitution) (e : Expr) : (e.substitute σ).type = e.type :=
  congrArg Note.type (e.note_substitute σ)

theorem Expr.map_type_substituteAll (σ : Substitution) (es : List Expr) :
    (Expr.substituteAll σ es).map Expr.type = es.map Expr.type := by
  rw [Expr.substituteAll_eq_map, map_map]
  exact map_congr_left fun e _ ↦ e.type_substitute σ

namespace Substitution.Faithful

variable {σ : Substitution} {image : Slot → Slot}

section

variable {κ : Type} [DecidableEq κ] (key : Slot → κ) (m : Memory κ)

/-- A replaced variable holds what the variable holds where cells are looked up under the keys of
their images. -/
theorem load (h : σ.Faithful image) (x : Variable) : m.load key (σ.var x) = m.load (key ∘ image) x := by
  obtain ⟨hlike, hroot⟩ := h.moves x
  have htype (s : Slot) : (image s).type = s.type := by
    obtain ⟨hlike, hroot⟩ := h.moves (.slot s)
    have htype := h.type (.slot s)
    rcases hvar : σ.var (.slot s) with t | ⟨base, axis, origin⟩ <;> rw [hvar] at hlike hroot htype
    · have ht : t = image s := hroot
      rw [← ht]
      exact htype
    · exact hlike.elim
  refine Memory.load_like hlike ?_
  rw [hroot, Memory.load, htype]
  rfl

mutual

/-- An expression has after the replacement the values that it had where cells are looked up under the
keys of their images. -/
theorem value? (h : σ.Faithful image) (e : Expr) :
    (e.substitute σ).value? key m = e.value? (key ∘ image) m := by
  match e with
  | .literal n v => rfl
  | .read n x => exact congrArg some (h.load key m x)
  | .unary n op operand =>
    show (Expr.value? key m (operand.substitute σ)).bind _ = _
    rw [h.value? operand]
    rfl
  | .binary n op left right =>
    show (Expr.value? key m (left.substitute σ)).bind
      (fun l ↦ op.lazily? l (Expr.value? key m (right.substitute σ))) = _
    rw [h.value? left, h.value? right]
    rfl
  | .make n x y z =>
    rw [Expr.substitute, Expr.value?, h.value? x, h.value? y, h.value? z]
    rfl
  | .call n callee arguments =>
    rw [Expr.substitute, Expr.value?, σ.builtin?_callee, h.values? arguments]
    rfl
  | .convert n operand =>
    rw [Expr.substitute, Expr.value?, h.value? operand]
    rfl
  | .step .. | .segment .. | .assign .. | .compound .. | .error _ | .statement .. => rfl

@[inherit_doc value?]
theorem values? (h : σ.Faithful image) (es : List Expr) :
    Expr.values? key m (Expr.substituteAll σ es) = Expr.values? (key ∘ image) m es := by
  match es with
  | [] => rfl
  | e :: rest =>
    rw [Expr.substituteAll, Expr.values?, h.value? e, h.values? rest]
    rfl

end

end

variable (h : σ.Faithful image)

include h

theorem returnType_callee (callee : Callee) : (σ.callee callee).returnType = callee.returnType := by
  cases callee with
  | routine r => exact h.returnType r
  | builtin b t => rfl

theorem takes {es : List Expr} (htakes : callee.Takes es) :
    (σ.callee callee).Takes (Expr.substituteAll σ es) := by
  cases callee with
  | builtin b t =>
    intro r hr
    cases hr
  | routine r =>
    intro r' hr' pair hpair
    cases hr'
    obtain ⟨f, hparameters, hf⟩ := h.parameters r
    rw [map_type_substituteAll, hparameters, zip_map_left] at hpair
    obtain ⟨⟨p, t⟩, hmem, rfl⟩ := mem_map.1 hpair
    obtain ⟨hcell, htype⟩ := htakes r rfl (p, t) hmem
    exact ⟨(hf p).1.trans hcell, htype.trans (hf p).2.symm⟩

theorem typed (he : e.Typed) : (e.substitute σ).Typed := by
  cases e with
  | literal | make | convert | segment | error | statement => exact he
  | read n x | step n x | assign n x | compound n x => exact he.trans (h.type x).symm
  | unary n op operand =>
    exact he.trans (congrArg op.resultType (operand.type_substitute σ).symm)
  | binary n op left right =>
    exact he.trans
      (congrArg₂ op.resultType (left.type_substitute σ).symm (right.type_substitute σ).symm)
  | call n callee arguments => exact he.trans (h.returnType_callee callee).symm

theorem honest (he : e.Honest) : (e.substitute σ).Honest := by
  intro v hv κ _ key m w hw
  rw [constant_substitute] at hv
  rw [h.value? key m e] at hw
  exact he v hv (key ∘ image) m w hw

theorem shaped (he : e.Shaped) : (e.substitute σ).Shaped := by
  cases e with
  | call n callee arguments =>
    obtain ⟨hcertain, hcomputes, htakes⟩ := he
    refine ⟨fun v hv κ _ key m ↦ ?_, ?_, h.takes htakes⟩
    · exact (h.value? key m (.call n callee arguments)).trans (hcertain v hv (key ∘ image) m)
    · rw [Callee.Computes, σ.builtin?_callee, h.returnType_callee]
      exact hcomputes
  | _ => trivial

theorem sound (he : e.Sound) : (e.substitute σ).Sound where
  typed := h.typed he.typed
  honest := h.honest he.honest
  regular := by
    refine ⟨fun v hv ↦ ?_, h.shaped he.regular.shape⟩
    rw [constant_substitute] at hv
    rw [type_substitute]
    exact he.regular.constant v hv

/-- What is sound stays sound when its symbols are replaced. -/
theorem allSound_stmt (hs : s.AllSound) : (s.substitute σ).AllSound := by
  refine hs.substitute (fun _ ↦ h.sound) (fun t ht hregular ↦ ?_) h.ret fun span _ ↦ h.retValue span
  cases t
  case ret | retValue => cases ht
  case call => exact h.takes hregular
  all_goals trivial

end Substitution.Faithful

/-- Names are given to cells of any type. -/
theorem Naming.faithful (st : Naming) : st.substitution.Faithful st.image where
  moves := st.moves
  type x := by cases x <;> rfl
  returnType _ := rfl
  parameters r := ⟨st.variableOf, rfl, fun p ↦ by cases p <;> exact ⟨rfl, rfl⟩⟩
  ret _ := ⟨trivial, trivial⟩
  retValue _ _ h := ⟨trivial, h⟩

/-! ### Expansion -/

namespace Expand

variable {routine : Routine} {site : Nat} {span : Span} {written : List Variable}

/-- Parameters are cells, and stand for cells of their types. -/
def Seated (bound : Table Variable Variable) : Prop :=
  ∀ x y, bound.get? x = some y → x.isComponent = false ∧ y.isComponent = false ∧ y.type = x.type

theorem faithful_copy {bound : Table Variable Variable} (h : Seated bound) (site : Nat)
    (result : Option Variable) (exit : Label) :
    (copy site bound result exit).Faithful (copySlot site bound) where
  moves := moves_copy fun x y hxy ↦ ⟨(h x y hxy).1, (h x y hxy).2.1⟩
  type x := by
    show (copyVariable site bound x).type = x.type
    rcases hx : bound.get? x with - | y
    · cases x with
      | slot s =>
        simp only [copyVariable, hx]
        split <;> rfl
      | component base axis origin =>
        rw [copyVariable, hx]
        rfl
    · rw [copyVariable_of_bound hx]
      exact (h x y hx).2.2
  returnType _ := rfl
  parameters r := ⟨id, (map_id _).symm, fun _ ↦ ⟨rfl, rfl⟩⟩
  ret _ := ⟨trivial, ⟨trivial, trivial⟩, trivial⟩
  retValue span e he := by
    cases result with
    | none => exact ⟨trivial, ⟨trivial, trivial⟩, trivial⟩
    | some x => exact ⟨trivial, ⟨trivial, he⟩, ⟨trivial, trivial⟩, trivial⟩

/-- What takes the place of a parameter has its type if the argument has. -/
theorem type_seat (he : entry.1.2.AllSound) (htype : entry.1.2.type = entry.1.1.type) :
    (seat site written entry).isComponent = false ∧
      (seat site written entry).type = entry.1.1.type := by
  rw [seat]
  rcases halias : alias? entry.1.1 entry.1.2 written with - | x
  · exact ⟨rfl, rfl⟩
  · obtain ⟨-, -, hread, -, hcell⟩ := alias?_eq_some halias
    refine ⟨hcell, ?_⟩
    rw [← htype]
    have htyped := he.sound.typed
    cases hargument : entry.1.2 <;> rw [hargument] at hread htyped <;> cases hread
    exact htyped.symm

/-- The bindings of sound arguments are sound. -/
theorem sound_bindArguments {arguments : List Expr} {b : Bindings}
    (harguments : Expr.AllEach Expr.Sound Stmt.Regular arguments)
    (htakes : (Callee.routine routine).Takes arguments)
    (h : bindArguments routine site span written arguments = .ok b) :
    Seated b.images ∧ CodeSound b.before ∧ CodeSound b.after := by
  have hentry : ∀ entry ∈ (routine.parameters.zip arguments).zipIdx, entry.1.2.AllSound ∧
      entry.1.1.isComponent = false ∧ entry.1.2.type = entry.1.1.type := by
    intro entry hentry
    have hmem : (entry.1.1, entry.1.2) ∈ routine.parameters.zip arguments :=
      mem_of_getElem? (mem_zipIdx_iff_getElem?.1 hentry)
    refine ⟨Expr.allEach_iff.1 harguments _ (of_mem_zip hmem).2, htakes routine rfl
      (entry.1.1, entry.1.2.type) ?_⟩
    rw [zip_map_right]
    exact mem_map_of_mem hmem
  refine ⟨?_, ?_⟩
  · have hfold {entries : List ((Variable × Expr) × Nat)} {b₀ : Bindings}
        (hentries : ∀ entry ∈ entries, entry.1.2.AllSound ∧ entry.1.1.isComponent = false ∧
          entry.1.2.type = entry.1.1.type) (hseated : Seated b₀.images)
        (h : entries.foldlM (bindArgument routine site span written) b₀ = .ok b) :
        Seated b.images := by
      induction entries generalizing b₀ with
      | nil =>
        cases h
        exact hseated
      | cons entry rest ih =>
        obtain ⟨b₁, hfirst, h⟩ := bind_eq_ok.1 h
        obtain ⟨himages, -⟩ := bindArgument_eq_ok hfirst
        obtain ⟨⟨he, hcell, htype⟩, hrest⟩ := forall_mem_cons.1 hentries
        refine ih hrest (fun x y hxy ↦ ?_) h
        rw [himages] at hxy
        by_cases hx : entry.1.1 = x
        · subst hx
          rw [Table.get?_insert_self] at hxy
          cases hxy
          exact ⟨hcell, type_seat he htype⟩
        · rw [Table.get?_insert_of_ne _ _ hx] at hxy
          exact hseated x y hxy
    exact hfold hentry (fun x y hxy ↦ by cases hxy) h
  · exact forall_bindArguments (fun _ a ha ↦ ⟨trivial, Expr.allEach_iff.1 harguments a ha⟩)
      (fun _ _ ↦ ⟨trivial, AllSound.read _ _⟩) h

variable {i : Inliner} {k k' : Nat} {X : List Stmt}

/-- Sound code stays sound when calls of sound bodies are expanded in it. -/
theorem sound_stmts (hbodies : ∀ r body, i.bodies.get? r = some body → body.AllSound) {depth : Nat}
    {code : List Stmt} (hcode : CodeSound code) (h : Yields (stmts i depth r code) k X k') :
    CodeSound X := by
  refine forall_stmts (P := fun _ _ X _ ↦ CodeSound X) (fun _ ↦ codeSound_nil)
    (fun h h' ↦ codeSound_append.2 ⟨h, h'⟩)
    (fun _ _ hs ↦ codeSound_cons.2 ⟨hs, codeSound_nil⟩) ?_ hcode h
  intro _ q _ ih span arguments result k X k' hs h
  obtain ⟨body, b, copied, hbody, -, hb, hinner, rfl⟩ := yields_call h
  obtain ⟨hseated, hbefore, hbehind⟩ := sound_bindArguments hs.2 hs.1 hb
  have hcopy := (faithful_copy hseated (k + 1) result (q.exit (k + 1))).allSound_stmt
    (hbodies q body hbody)
  have hcopied : CodeSound copied := ih (fun t ht ↦ hcopy.of_mem_flatten ht) hinner
  exact codeSound_append.2 ⟨hbefore, codeSound_append.2 ⟨hcopied,
    codeSound_cons.2 ⟨⟨trivial, trivial⟩, hbehind⟩⟩⟩

end Expand

theorem Inliner.allSound_expand {i : Inliner}
    (hbodies : ∀ r body, i.bodies.get? r = some body → body.AllSound) (hbody : body.AllSound)
    {k k' : Nat} {e : Expanded} (h : Yields (i.expand r body) k e k') : e.body.AllSound :=
  ⟨trivial, Stmt.allEach_iff.2 (Expand.sound_stmts hbodies (fun _ ht ↦ hbody.of_mem_flatten ht)
    (Inliner.yields_expand h))⟩

/-! ### Programs -/

/-- Every body is sound. -/
def Bodies.AllSound (b : Bodies) : Prop := ∀ entry ∈ b.entries, entry.2.AllSound

theorem Bodies.AllSound.get? (h : b.AllSound) (hbody : b.get? r = some body) :
    body.AllSound := h _ (Table.mem_of_get? hbody)

theorem Bodies.AllSound.named (h : b.AllSound) : b.named.bodies.AllSound := by
  intro entry hentry
  obtain ⟨source, hsource, rfl⟩ := mem_map.1 hentry
  exact (Naming.faithful _).allSound_stmt (h source hsource)

theorem Program.allSound_flat (hp : p.bodies.AllSound) {notices : List Notice}
    (h : Yields p.flat notices flat notices') : flat.AllSound := by
  rintro ⟨r, code⟩ hentry
  obtain ⟨body, hbody, l, e, hl, he, rfl⟩ := mem_entries_flat h hentry
  exact Extracted.allSound (Lowered.allSound (hp _ hbody) hl) he

theorem Program.allSound_expand {expanded : Bodies} (hflat : flat.AllSound) {notices : List Notice}
    (h : Yields (expand flat inlined) notices expanded notices') : expanded.AllSound := by
  obtain ⟨entries, _, heach, hpure⟩ := yields_bind.1 h
  cases hpure
  exact forall_expandEach (fun _ h _ _ _ ↦ Inliner.allSound_expand (fun _ _ ↦ hflat.get?) h)
    (fun entry hentry ↦ hflat entry (mem_filter.1 hentry).1) heach

/-- What every pass leaves of the program is truthful: lowering, extraction, the expansion of any calls
in the flat bodies, and the choice of names for what is kept of the expanded ones. -/
structure Program.StaysTruthful (p : Program) : Prop where
  lowered {r : Routine} {body : Stmt} (hbody : (r, body) ∈ p.bodies.entries) {l : Lowered}
    (hl : lower r body = .ok l) : l.body.Truthful
  extracted {r : Routine} {body : Stmt} (hbody : (r, body) ∈ p.bodies.entries) {l : Lowered}
    (hl : lower r body = .ok l) {e : Extracted} (he : extract r l.body = .ok e) : e.body.Truthful
  expanded {flat : Bodies} {notices notices' : List Notice}
    (hflat : Yields p.flat notices flat notices') (inlined : List Routine) {r : Routine} {body : Stmt}
    (hbody : (r, body) ∈ flat.entries) {k k' : Nat} {e : Expanded}
    (he : Yields ((⟨inlined, flat⟩ : Inliner).expand r body) k e k') : e.body.Truthful
  named {flat expanded kept : Bodies} {notices notices₁ notices₂ : List Notice}
    (hflat : Yields p.flat notices flat notices₁) {inlined : List Routine}
    (hexpanded : Yields (expand flat inlined) notices₁ expanded notices₂)
    (hkept : kept.entries ⊆ expanded.entries) {r : Routine} {body : Stmt}
    (hbody : (r, body) ∈ kept.named.bodies.entries) : body.Truthful

/-- Notes stay truthful through every pass, if the trees of the program are regular. -/
theorem Program.staysTruthful_of_regular {p : Program}
    (htruthful : ∀ entry ∈ p.bodies.entries, entry.2.Truthful)
    (hregular : ∀ entry ∈ p.bodies.entries, entry.2.AllRegular) : p.StaysTruthful := by
  have hp : p.bodies.AllSound := fun entry hentry ↦
    .of_truthful (htruthful entry hentry) (hregular entry hentry)
  refine ⟨fun hbody _ hl ↦ ?_, fun hbody _ hl _ he ↦ ?_, fun hflat inlined _ _ hbody _ _ _ he ↦ ?_,
    fun hflat _ hexpanded hkept _ _ hbody ↦ ?_⟩
  · exact (Lowered.allSound (hp _ hbody) hl).truthful
  · exact (Extracted.allSound (Lowered.allSound (hp _ hbody) hl) he).truthful
  · have hsound := allSound_flat hp hflat
    exact (Inliner.allSound_expand (fun _ _ ↦ hsound.get?) (hsound _ hbody) he).truthful
  · have hsound := allSound_expand (allSound_flat hp hflat) hexpanded
    have hkept : Bodies.AllSound _ := fun entry hentry ↦ hsound entry (hkept hentry)
    exact (hkept.named _ hbody).truthful

/-! ### A program with notes of all kinds -/

/-- A number of a small program. -/
def numeral (id : Nat) (name : String) (role : Role) (modifiers : Modifiers := {}) : Slot :=
  ⟨.declared id, name, .float, role, modifiers⟩

/-- A built-in function of a small program. -/
def builtinNamed (name : String) : Builtin := (Builtin.find? name).getD default

/-- A call of a built-in function. -/
def callOf (name : String) (arguments : List Expr) : Expr :=
  Build.call (.builtin (builtinNamed name) .float) arguments default

/-- `abs(-1)`, which is known to be 1. -/
def knownCall : Expr :=
  (callOf "abs" [Build.float (-1) default]).withNote ⟨.float, default, some (.float 1)⟩

def clampedP : Slot := numeral 1 "p" .parameter { readonly := true }

/-- Takes a number that it does not change. -/
def clamping : Routine := .declare 1 "f" [.slot clampedP] .float {}

/-- `g = f(x)` with `f(p) { return min(p, abs(-1)) }` -/
def clamped : Program :=
  twoRoutines clamping
    [.assign default (.slot (numeral 2 "g" .global)) (Build.call (.routine clamping)
      [Build.read (.slot (numeral 3 "x" .scoped)) default] default)]
    [.retValue default (callOf "min" [Build.read (.slot clampedP) default, knownCall])]

theorem allSound_knownCall : knownCall.AllSound := by
  have hcertain : knownCall.Certain := by
    intro v hv κ _ key m
    cases hv
    show some (Value.float (Float32.abs (-1))) = _
    decide +kernel
  refine ⟨⟨rfl, hcertain.honest, fun v hv ↦ ?_, hcertain, ?_, ?_⟩, AllSound.literal _ _, trivial⟩
  · cases hv
    rfl
  · exact Builtin.computes_of_mem (b := builtinNamed "abs") (by decide +kernel)
  · intro r hr
    cases hr

theorem allSound_clamped : clamped.bodies.AllSound := by
  have hmain : (Expr.call ⟨.float, default, none⟩ (.routine clamping)
      [Build.read (.slot (numeral 3 "x" .scoped)) default]).AllSound := by
    refine ⟨.of_unknown rfl rfl ⟨?_, ?_, ?_⟩, AllSound.read _ _, trivial⟩
    · intro v hv
      cases hv
    · intro e he
      cases he
    · intro r hr pair hpair
      cases hr
      obtain rfl := mem_singleton.1 hpair
      exact ⟨rfl, rfl⟩
  have hmin : (callOf "min" [Build.read (.slot clampedP) default, knownCall]).AllSound := by
    refine ⟨.of_unknown rfl rfl ⟨?_, ?_, ?_⟩, AllSound.read _ _, allSound_knownCall, trivial⟩
    · intro v hv
      cases hv
    · exact Builtin.computes_of_mem (b := builtinNamed "min") (by decide +kernel)
    · intro r hr
      cases hr
  exact forall_mem_cons.2 ⟨⟨trivial, ⟨trivial, hmain⟩, trivial⟩,
    forall_mem_cons.2 ⟨⟨trivial, ⟨trivial, hmin⟩, trivial⟩, by simp⟩⟩

theorem Program.staysTruthful_of_regular_clamped :
    (∀ entry ∈ clamped.bodies.entries, entry.2.Truthful) ∧
      (∀ entry ∈ clamped.bodies.entries, entry.2.AllRegular) ∧ clamped.StaysTruthful := by
  have htruthful : ∀ entry ∈ clamped.bodies.entries, entry.2.Truthful :=
    fun entry hentry ↦ (allSound_clamped entry hentry).truthful
  have hregular : ∀ entry ∈ clamped.bodies.entries, entry.2.AllRegular :=
    fun entry hentry ↦ (allSound_clamped entry hentry).allRegular
  exact ⟨htruthful, hregular, Program.staysTruthful_of_regular htruthful hregular⟩

/-! ### Programs whose notes do not stay truthful -/

/-- The arguments have the types of the parameters. -/
def Callee.Fits (callee : Callee) (arguments : List Expr) : Prop :=
  arguments.map Expr.type = match callee with
    | .routine r => r.parameters.map Variable.type
    | .builtin b _ => b.parameters.map Parameter.type

/-- The arguments of every call have the types of the parameters. -/
def Stmt.CallsFit (s : Stmt) : Prop :=
  s.Each (fun | .call _ callee arguments => callee.Fits arguments | _ => True)
    fun | .call _ callee arguments _ => callee.Fits arguments | _ => True

/-- A program with truthful notes, whose arguments have the types of their parameters, of which some
pass leaves notes that are wrong. -/
structure Program.Misled (p : Program) : Prop where
  truthful : ∀ entry ∈ p.bodies.entries, entry.2.Truthful
  fits : ∀ entry ∈ p.bodies.entries, entry.2.CallsFit
  misled : ¬ p.StaysTruthful

/-- An expression without a value and a note that names one for it: `error as float`, known to be
what is given. -/
def phantom (value : Value) : Expr :=
  (Build.convert (Build.error default) .float default).withNote ⟨.float, default, some value⟩

/-- `g = min(x, phantom)`, known to be 7: the call has a value when a number takes the place of its
argument. -/
def staleCall : Stmt :=
  .block default [.assign default (.slot (numeral 2 "g" .global))
    ((callOf "min" [Build.read (.slot (numeral 3 "x" .scoped)) default, phantom (.float 3)]).withNote
      ⟨.float, default, some (.float 7)⟩)]

theorem truthful_phantom (value : Value) :
    (phantom value).Each (fun e ↦ e.Typed ∧ e.Honest) fun _ ↦ True :=
  ⟨⟨⟨.float, rfl⟩, .of_valueless fun _ _ ↦ rfl⟩, ⟨rfl, .of_none rfl⟩, trivial⟩

theorem Program.misled_staleCall : Program.Misled ⟨⟨[(hostMain, staleCall)]⟩, hostMain⟩ where
  truthful := by
    simp only [forall_mem_singleton]
    refine ⟨trivial, ⟨trivial, ⟨rfl, .of_valueless fun _ _ ↦ rfl⟩, ⟨⟨rfl, .of_none rfl⟩, trivial⟩,
      truthful_phantom _, trivial⟩, trivial⟩
  fits := by
    simp only [forall_mem_singleton]
    exact ⟨trivial, ⟨trivial, rfl, ⟨trivial, trivial⟩, ⟨trivial, trivial, trivial⟩, trivial⟩, trivial⟩
  misled h := by
    have hlowered := h.lowered (.head _) rfl
    have hhonest := hlowered.2.1.2.1.2
    -- in this memory the call is the minimum of 1 and 3
    have hvalue := hhonest (.float 7) rfl id
      (Table.insert {} (numeral 3 "x" .scoped) (.float 1)) (.float 1) (by decide +kernel)
    exact absurd hvalue (by decide +kernel)

/-- The entry of the program as flat code in which calls have been expanded. -/
def Program.expandedEntry (p : Program) (inlined : List Routine) : Option (List Stmt) :=
  match p.flat.run [] with
  | (.error _, _) => none
  | (.ok flat, _) =>
    match flat.get? p.entry with
    | none => none
    | some body =>
      match ((⟨inlined, flat⟩ : Inliner).expand p.entry body).run 0 with
      | (.error _, _) => none
      | (.ok e, _) => some e.statements

/-- A mention of a variable that is said to be of another type, or of a component whose value is said
to be known. -/
def Stmt.misreads : Stmt → Bool
  | .assign _ _ (.read n (.slot s)) => decide (n.type ≠ s.type)
  | .assign _ _ (.read n (.component (.slot _) _ _)) => n.constant.isSome
  | _ => false

/-- A component may have any value, so a truthful note names none. -/
theorem Expr.Honest.constant_component {n : Note} {s : Slot} {axis : Axis} {origin : Origin}
    (h : (Expr.read n (.component (.slot s) axis origin)).Honest) : n.constant = none := by
  rcases hv : n.constant with - | v
  · rfl
  · have hload (c : Float32) : Value.float c = v := by
      refine h v hv id (Table.insert {} s (.vector3 ⟨c, c, c⟩)) _ ?_
      show some (Memory.load id _ _) = _
      rw [Memory.load, Memory.load, id, Table.get?_insert_self]
      cases axis <;> rfl
    exact absurd ((hload 0).trans (hload 1).symm) (by decide +kernel)

theorem Stmt.Truthful.misreads (h : s.Truthful) : s.misreads = false := by
  unfold Stmt.misreads
  split
  · have htyped := h.2.1.1
    exact decide_eq_false (not_not_intro htyped)
  · rw [Honest.constant_component h.2.1.2]
    rfl
  · rfl

theorem Program.not_staysTruthful
    (hany : (p.expandedEntry inlined).any (·.any Stmt.misreads) = true) : ¬ p.StaysTruthful := by
  intro h
  unfold expandedEntry at hany
  split at hany
  · cases hany
  · next flat notices hflat =>
    split at hany
    · cases hany
    · next body hbody =>
      split at hany
      · cases hany
      · next e k hexpand =>
        obtain ⟨s, hs, hmisreads⟩ := any_eq_true.1 hany
        have htruthful := h.expanded hflat inlined (Table.mem_of_get? hbody) hexpand
        have hs : s.Truthful := Stmt.allEach_iff.1 htruthful.2 s hs
        rw [hs.misreads] at hmisreads
        cases hmisreads

/-- Computes a number when it is called. -/
def oneRoutine : Routine := .declare 2 "h" [] .float {}

/-- A routine that stores its first parameter. -/
def keeping (type : Ty) : Routine :=
  .declare 1 "f" [.slot ⟨.declared 1, "p", type, .parameter, { readonly := true }⟩,
    .slot (numeral 4 "q" .parameter)] .void {}

/-- `f(e * x, h())` with `f(p, q) { g = p }`: the product is kept in a variable while `h` is called,
and that variable stands for the parameter. -/
def keptProduct (type : Ty) (e : Expr) : Program where
  entry := hostMain
  bodies := ⟨[
    (hostMain, .block default [.call default (.routine (keeping type))
      [Build.binary .multiply e (Build.read (.slot (numeral 3 "x" .scoped)) default) default,
        Build.call (.routine oneRoutine) [] default] none]),
    (keeping type, .block default [.assign default (.slot ⟨.declared 2, "g", type, .global, {}⟩)
      (Build.read (.slot ⟨.declared 1, "p", type, .parameter, { readonly := true }⟩) default)]),
    (oneRoutine, .block default [.retValue default (Build.float 1 default)])]⟩

/-- A function of numbers that is said to have vectors as values. -/
def vectorCall : Expr :=
  Build.call (.builtin (builtinNamed "abs") .vector3) [Build.float (-1) default] default

/-- A routine with a component of another variable as its parameter. -/
def componentParameter : Variable := (Variable.slot ⟨.declared 1, "v", .vector3, .scoped, {}⟩).onAxis .x

@[inherit_doc componentParameter]
def componentTaking : Routine := .declare 1 "f" [componentParameter] .void {}

/-- `f(1)` with `f(v.x) { g = v.x.y }`: a component of a number is always 0. -/
def componentRead : Program :=
  twoRoutines componentTaking [callFor componentTaking [Build.float 1 default]]
    [.assign default (.slot (numeral 2 "g" .global))
      ((Build.read (componentParameter.onAxis .y) default).withNote
        ⟨.float, default, some (.float 0)⟩)]

/-- A product whose left factor is truthful and of the type of the parameter misleads if another type
is stored. -/
theorem Program.misled_keptProduct {type : Ty}
    (he : e.Each (fun e ↦ e.Typed ∧ e.Honest) fun _ ↦ True)
    (hfits : (Stmt.expression default e).CallsFit)
    (htype : BinaryOp.resultType .multiply e.type .float = type)
    (hconstant : Build.binaryConstant .multiply e.constant none = none)
    (hany : ((keptProduct type e).expandedEntry [keeping type]).any (·.any Stmt.misreads) = true) :
    (keptProduct type e).Misled where
  truthful := by
    simp only [keptProduct, forall_mem_cons]
    refine ⟨?_, ⟨trivial, ⟨trivial, ⟨rfl, .of_none rfl⟩, trivial⟩, trivial⟩,
      ⟨trivial, ⟨trivial, ⟨rfl, (AllSound.literal _ _).sound.honest⟩, trivial⟩, trivial⟩, by simp⟩
    refine ⟨trivial, ⟨trivial, ?_, ⟨⟨rfl, .of_none rfl⟩, trivial⟩, trivial⟩, trivial⟩
    exact ⟨⟨rfl, .of_none hconstant⟩, he, ⟨rfl, .of_none rfl⟩, trivial⟩
  fits := by
    simp only [keptProduct, forall_mem_cons]
    refine ⟨?_, ⟨trivial, ⟨trivial, trivial, trivial⟩, trivial⟩,
      ⟨trivial, ⟨trivial, trivial, trivial⟩, trivial⟩, by simp⟩
    refine ⟨trivial, ⟨?_, ⟨trivial, hfits.2, trivial, trivial⟩, ⟨rfl, trivial⟩, trivial⟩, trivial⟩
    exact congrArg (fun t : Ty ↦ [t, .float]) htype
  misled := not_staysTruthful hany

theorem Program.misled_componentRead : componentRead.Misled where
  truthful := by
    simp only [componentRead, twoRoutines, forall_mem_cons]
    refine ⟨⟨trivial, ⟨trivial, ⟨rfl, .of_none rfl⟩, ⟨⟨rfl, ?_⟩, trivial⟩, trivial⟩, trivial⟩,
      ⟨trivial, ⟨trivial, ⟨rfl, ?_⟩, trivial⟩, trivial⟩, by simp⟩
    · exact (AllSound.literal _ _).sound.honest
    · intro v hv κ _ key m w hw
      cases hv
      cases hw
      rfl
  fits := by
    simp only [componentRead, twoRoutines, forall_mem_cons]
    exact ⟨⟨trivial, ⟨trivial, rfl, ⟨trivial, trivial⟩, trivial⟩, trivial⟩,
      ⟨trivial, ⟨trivial, trivial, trivial⟩, trivial⟩, by simp⟩
  misled := by
    have hany : (componentRead.expandedEntry [componentTaking]).any (·.any Stmt.misreads) = true := by
      decide +kernel
    exact not_staysTruthful hany

/-- Each thing that is asked of a program besides its notes and the types of its arguments is needed:
that a call whose value is named has it in every memory, that a value that is named has the type of
the expression, that built-in functions compute values of the types they are called at, and that
parameters are cells. -/
theorem Program.misled_excluded : Program.Misled ⟨⟨[(hostMain, staleCall)]⟩, hostMain⟩ ∧
      (keptProduct .float (phantom (.vector3 ⟨1, 2, 3⟩))).Misled ∧
      (keptProduct .vector3 vectorCall).Misled ∧ componentRead.Misled := by
  refine ⟨misled_staleCall, misled_keptProduct (truthful_phantom _) ?_ rfl rfl ?_,
    misled_keptProduct ?_ ?_ rfl rfl ?_, misled_componentRead⟩
  · exact ⟨trivial, trivial, trivial, trivial⟩
  · decide +kernel
  · exact ⟨⟨rfl, .of_none rfl⟩, ⟨⟨rfl, (Expr.AllSound.literal _ _).sound.honest⟩, trivial⟩, trivial⟩
  · exact ⟨trivial, rfl, ⟨trivial, trivial⟩, trivial⟩
  · decide +kernel

end Wirescript
