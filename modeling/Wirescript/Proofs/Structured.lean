import Wirescript.Proofs.Lowering

/-!
# Lowering keeps structured control flow

Structured execution is defined on the statements of a script, with no labels and no flow graph: a
condition is evaluated, a branch is taken, a loop goes round or ends. What a simple statement does is
what the machine does. The main result is that the lowered body, run by the machine, ends in the
memory in which the structured execution ends.

The proof is an induction on the execution, for any code that stands after the statement. A loop goes
round through its label, which is found because the labels of lowered code all differ.
-/

namespace Wirescript

open Stmt
open List

variable {sense : Bool} {condition : Expr} {target : Label} {rest whole : List Stmt}
  {s : Stmt} {α : Type}

variable {κ : Type} [DecidableEq κ]

/-- How a statement ends: control goes on after it, or the routine returns. -/
inductive Ending where
  | through
  | returned
  deriving DecidableEq, Repr

variable {e : Ending}

section

variable (key : Slot → κ) (calls : Routine → Memory κ → Except Fault (Memory κ))
  (routine : Routine)

/-- Direct execution of a statement. Calls of routines change the memory as `calls` says. -/
inductive Stmt.Executes : Stmt → Memory κ → Ending → Memory κ → Prop
  | simple {s : Stmt} {m m' : Memory κ}
      (h : Yields (Exec.stmt key (Exec.ofCalls calls) routine s.plain) { memory := m } .next
        { memory := m' }) : Executes s m .through m'
  | simpleReturn {s : Stmt} {m m' : Memory κ}
      (h : Yields (Exec.stmt key (Exec.ofCalls calls) routine s.plain) { memory := m } .stop
        { memory := m' }) : Executes s m .returned m'
  | blockNil {span : Span} {m : Memory κ} : Executes (.block span []) m .through m
  | blockCons {span : Span} {s : Stmt} {rest : List Stmt} {m m₁ m' : Memory κ} {e : Ending}
      (hfirst : Executes s m .through m₁) (hrest : Executes (.block span rest) m₁ e m') :
      Executes (.block span (s :: rest)) m e m'
  | blockReturn {span : Span} {s : Stmt} {rest : List Stmt} {m m' : Memory κ}
      (hfirst : Executes s m .returned m') : Executes (.block span (s :: rest)) m .returned m'
  | ifThenTrue {span : Span} {condition : Expr} {body : Stmt} {m m' : Memory κ} {e : Ending}
      (hcondition : condition.eval key m = .ok (.bool true)) (hbody : Executes body m e m') :
      Executes (.ifThen span condition body) m e m'
  | ifThenFalse {span : Span} {condition : Expr} {body : Stmt} {m : Memory κ}
      (hcondition : condition.eval key m = .ok (.bool false)) :
      Executes (.ifThen span condition body) m .through m
  | ifElseTrue {span : Span} {condition : Expr} {body alternative : Stmt} {m m' : Memory κ}
      {e : Ending} (hcondition : condition.eval key m = .ok (.bool true))
      (hbody : Executes body m e m') : Executes (.ifElse span condition body alternative) m e m'
  | ifElseFalse {span : Span} {condition : Expr} {body alternative : Stmt} {m m' : Memory κ}
      {e : Ending} (hcondition : condition.eval key m = .ok (.bool false))
      (halternative : Executes alternative m e m') :
      Executes (.ifElse span condition body alternative) m e m'
  | whileDone {span : Span} {condition : Expr} {body : Stmt} {m : Memory κ}
      (hcondition : condition.eval key m = .ok (.bool false)) :
      Executes (.whileLoop span condition body) m .through m
  | whileNext {span : Span} {condition : Expr} {body : Stmt} {m m₁ m' : Memory κ} {e : Ending}
      (hcondition : condition.eval key m = .ok (.bool true)) (hbody : Executes body m .through m₁)
      (hrest : Executes (.whileLoop span condition body) m₁ e m') :
      Executes (.whileLoop span condition body) m e m'
  | whileReturn {span : Span} {condition : Expr} {body : Stmt} {m m' : Memory κ}
      (hcondition : condition.eval key m = .ok (.bool true))
      (hbody : Executes body m .returned m') :
      Executes (.whileLoop span condition body) m .returned m'
  | doDone {span : Span} {condition : Expr} {body : Stmt} {m m₁ : Memory κ}
      (hbody : Executes body m .through m₁)
      (hcondition : condition.eval key m₁ = .ok (.bool false)) :
      Executes (.doWhile span body condition) m .through m₁
  | doNext {span : Span} {condition : Expr} {body : Stmt} {m m₁ m' : Memory κ} {e : Ending}
      (hbody : Executes body m .through m₁)
      (hcondition : condition.eval key m₁ = .ok (.bool true))
      (hrest : Executes (.doWhile span body condition) m₁ e m') :
      Executes (.doWhile span body condition) m e m'
  | doReturn {span : Span} {condition : Expr} {body : Stmt} {m m' : Memory κ}
      (hbody : Executes body m .returned m') :
      Executes (.doWhile span body condition) m .returned m'

end

variable {key : Slot → κ} {calls : Routine → Memory κ → Except Fault (Memory κ)} {routine : Routine}
  {m M : Memory κ}

/-! ### Flat code that stands for a statement -/

/-- What flat code does, when calls change the memory in a given way. -/
abbrev CodeStep (key : Slot → κ) (calls : Routine → Memory κ → Except Fault (Memory κ))
    (routine : Routine) : Stmt → Memory κ → Control → Memory κ → Prop :=
  Step key (fun r m m' ↦ calls r m = .ok m') routine

theorem step_of_yields_ofCalls {m' : Memory κ} {c : Control}
    (h : Yields (Exec.stmt key (Exec.ofCalls calls) routine s) { memory := m } c { memory := m' }) :
    CodeStep key calls routine s m c m' := by
  refine (Exec.step_of_yields h).mono fun r m m' h ↦ ?_
  obtain ⟨m'', hm'', heq⟩ := Exec.yields_ofCalls.1 h
  cases heq
  exact hm''

/-- Code after a statement leads to the end of the body, unless the statement has returned. -/
def Continues (step : Stmt → Memory κ → Control → Memory κ → Prop) (code rest : List Stmt) :
    Ending → Memory κ → Memory κ → Prop
  | .through, m, m' => Runs step code rest m m'
  | .returned, m, m' => m' = m

omit [DecidableEq κ] in
/-- A statement that only goes on may stand before the code. -/
theorem Continues.next {step : Stmt → Memory κ → Control → Memory κ → Prop} (hs : step s m .next m)
    (h : Continues step whole rest e m M) : Continues step whole (s :: rest) e m M := by
  cases e with
  | through => exact Runs.next hs h
  | returned => exact h

omit [DecidableEq κ] in
/-- A jump to the code may stand before any code. -/
theorem Continues.jump {step : Stmt → Memory κ → Control → Memory κ → Prop} {there : List Stmt}
    {l : Label} (hs : step s m (.jump l) m) (hthere : from? l whole = some there)
    (h : Continues step whole there e m M) : Continues step whole (s :: rest) e m M := by
  cases e with
  | through => exact Runs.jump hs hthere h
  | returned => exact h

theorem suffix_of_cons {a : α} {l whole : List α} (h : (a :: l) <:+ whole) : l <:+ whole :=
  (suffix_cons a l).trans h

theorem suffix_of_append {l l' whole : List α} (h : (l ++ l') <:+ whole) : l' <:+ whole :=
  (suffix_append l l').trans h

theorem Stmt.Tests.next {b : Bool} (h : Tests condition target sense s)
    (hcondition : condition.eval key m = .ok (.bool b)) (hb : b ≠ sense) :
    CodeStep key calls routine s m .next m := by
  have hstep : CodeStep key calls routine s m (if b = sense then .jump target else .next) m :=
    h.2 hcondition
  rwa [if_neg hb] at hstep

theorem Stmt.Tests.jump (h : Tests condition target sense s)
    (hcondition : condition.eval key m = .ok (.bool sense)) :
    CodeStep key calls routine s m (.jump target) m := by
  have hstep : CodeStep key calls routine s m (if sense = sense then .jump target else .next) m :=
    h.2 hcondition
  rwa [if_pos rfl] at hstep

/-- An execution of a statement is a run of the code that stands for it, whatever comes after. -/
theorem Stmt.Executes.runs {m₁ : Memory κ} (h : s.Executes key calls routine m e m₁)
    {σ σ' : LabelSupply} {code : List Stmt} (hlowers : Lowers s σ code σ')
    (hnodup : (labels whole).Nodup) (hwhole : (code ++ rest) <:+ whole)
    (hrest : Continues (CodeStep key calls routine) whole rest e m₁ M) :
    Runs (CodeStep key calls routine) whole (code ++ rest) m M := by
  induction h generalizing σ σ' code rest M with
  | simple h =>
    have hstep := step_of_yields_ofCalls h
    cases hlowers with
    | simple _ _ hsim => exact .next (hsim hstep) hrest
    | _ => exact hstep.elim
  | simpleReturn h =>
    have hstep := step_of_yields_ofCalls h
    cases hlowers with
    | simple _ _ hsim =>
      obtain rfl := hrest
      exact .stop (hsim hstep)
    | _ => exact hstep.elim
  | blockNil =>
    cases hlowers with
    | simple hs => cases hs
    | blockNil => exact hrest
  | blockCons _ _ ih ih' =>
    cases hlowers with
    | simple hs => cases hs
    | blockCons hfirst hothers =>
      rw [append_assoc] at hwhole ⊢
      exact ih hfirst hwhole (ih' hothers (suffix_of_append hwhole) hrest)
  | blockReturn _ ih =>
    cases hlowers with
    | simple hs => cases hs
    | blockCons hfirst hothers =>
      rw [append_assoc] at hwhole ⊢
      exact ih hfirst hwhole hrest
  | ifThenTrue hcondition _ ih =>
    cases hlowers with
    | simple hs => cases hs
    | ifThen hbody htest =>
      simp only [cons_append, append_assoc] at hwhole ⊢
      refine .next (htest.next hcondition (by simp)) (.next step_hint ?_)
      refine ih hbody (suffix_of_cons (suffix_of_cons hwhole)) ?_
      exact .next step_hint (.next step_label hrest)
  | ifThenFalse hcondition =>
    cases hlowers with
    | simple hs => cases hs
    | ifThen hbody htest =>
      simp only [cons_append, append_assoc] at hwhole ⊢
      have hend := suffix_of_cons (suffix_of_append (suffix_of_cons (suffix_of_cons hwhole)))
      exact .jump (htest.jump hcondition) (from?_of_suffix hnodup hend rfl)
        (.next step_label hrest)
  | ifElseTrue hcondition _ ih =>
    cases hlowers with
    | simple hs => cases hs
    | ifElse hbody halternative htest =>
      simp only [cons_append, append_assoc] at hwhole ⊢
      have htail := suffix_of_cons (suffix_of_cons hwhole)
      have helse := suffix_of_cons (suffix_of_cons (suffix_of_append htail))
      have hend := suffix_of_cons (suffix_of_append (suffix_of_cons (suffix_of_cons helse)))
      refine .next (htest.next hcondition (by simp)) (.next step_hint (ih hbody htail ?_))
      exact .next step_hint (.jump step_goto (from?_of_suffix hnodup hend rfl)
        (.next step_label hrest))
  | ifElseFalse hcondition _ ih =>
    cases hlowers with
    | simple hs => cases hs
    | ifElse hbody halternative htest =>
      simp only [cons_append, append_assoc] at hwhole ⊢
      have helse := suffix_of_cons (suffix_of_cons (suffix_of_append
        (suffix_of_cons (suffix_of_cons hwhole))))
      refine .jump (htest.jump hcondition) (from?_of_suffix hnodup helse rfl)
        (.next step_label (.next step_hint ?_))
      refine ih halternative (suffix_of_cons (suffix_of_cons helse)) ?_
      exact .next step_hint (.next step_label hrest)
  | whileDone hcondition =>
    cases hlowers with
    | simple hs => cases hs
    | whileLoop hbody htest =>
      simp only [cons_append, append_assoc] at hwhole ⊢
      have hbreak := suffix_of_cons (suffix_of_append (suffix_of_cons (suffix_of_cons hwhole)))
      exact .next step_label (.jump (htest.jump hcondition)
        (from?_of_suffix hnodup hbreak rfl) (.next step_label hrest))
  | whileNext hcondition _ _ ih ih' =>
    cases hlowers with
    | simple hs => cases hs
    | whileLoop hbody htest =>
      have hagain := ih' (.whileLoop hbody htest) hwhole hrest
      simp only [cons_append, append_assoc] at hwhole hagain ⊢
      refine .next step_label (.next (htest.next hcondition (by simp)) ?_)
      refine ih hbody (suffix_of_cons (suffix_of_cons hwhole)) ?_
      -- the label is where the loop itself begins
      exact .jump step_goto (from?_of_suffix hnodup hwhole rfl) hagain
  | whileReturn hcondition _ ih =>
    cases hlowers with
    | simple hs => cases hs
    | whileLoop hbody htest =>
      simp only [cons_append, append_assoc] at hwhole ⊢
      refine .next step_label (.next (htest.next hcondition (by simp)) ?_)
      exact ih hbody (suffix_of_cons (suffix_of_cons hwhole)) hrest
  | doDone _ hcondition ih =>
    cases hlowers with
    | simple hs => cases hs
    | doWhile hbody htest =>
      simp only [cons_append, append_assoc] at hwhole ⊢
      refine .next step_label (ih hbody (suffix_of_cons hwhole) ?_)
      exact .next step_label (.next (htest.next hcondition (by simp))
        (.next step_label hrest))
  | doNext _ hcondition _ ih ih' =>
    cases hlowers with
    | simple hs => cases hs
    | doWhile hbody htest =>
      have hagain := ih' (.doWhile hbody htest) hwhole hrest
      simp only [cons_append, append_assoc] at hwhole hagain ⊢
      refine .next step_label (ih hbody (suffix_of_cons hwhole) ?_)
      exact .next step_label (.jump (htest.jump hcondition)
        (from?_of_suffix hnodup hwhole rfl) hagain)
  | doReturn _ ih =>
    cases hlowers with
    | simple hs => cases hs
    | doWhile hbody htest =>
      simp only [cons_append, append_assoc] at hwhole ⊢
      exact .next step_label (ih hbody (suffix_of_cons hwhole) hrest)

/-! ### The lowered body -/

/-- A structured execution of a body is a run of the lowered body. -/
theorem Lowered.runs {body : Stmt} {l : Lowered} (hbody : body.Structured)
    (hl : lower routine body = .ok l) (h : body.Executes key calls routine m e M) :
    Runs (CodeStep key calls routine) l.statements l.statements m M := by
  obtain ⟨r, σ, code, hr, hcode, hlive⟩ := lower_eq_ok hl
  have hlowers := Lower.lowers_stmt hbody hr
  have hnodup := hlowers.fresh.nodup
  refine Runs.of_dropUnreachable directed_step hlive ?_
  rcases closeFlat_eq_ok hcode with rfl | rfl
  · have hend : Continues (CodeStep key calls routine) r.node.flatten [] e M M := by
      cases e with
      | through => exact .done M
      | returned => rfl
    simpa using h.runs hlowers hnodup (by simp) hend
  · refine h.runs hlowers ?_ (suffix_refl _) ?_
    · rwa [labels_append, labels_cons_of_none rfl, labels_nil, append_nil]
    · cases e with
      | through => exact .stop step_ret
      | returned => rfl

/-- **Lowering keeps structured control flow.** Whatever memory a structured execution of a body
ends in, by running off its end or by a return, the machine ends in the same memory when it runs the
lowered body, unless it is stopped for having taken too many steps. -/
theorem Lowered.loop_of_executes {κ : Type} [DecidableEq κ] (key : Slot → κ)
    (calls : Routine → Memory κ → Except Fault (Memory κ)) (routine : Routine) (body : Stmt)
    (hbody : body.Structured) (m M : Memory κ) (e : Ending)
    (h : body.Executes key calls routine m e M) (l : Lowered)
    (hl : lower routine body = .ok l) :
    ∃ least, ∀ limit ≥ least, ∃ steps,
      (Exec.loop key limit (Exec.ofCalls calls) routine l.body.flatten (limit + 1)
        l.body.flatten).run { memory := m } = (.ok (), { memory := M, steps := steps }) := by
  rw [Lowered.flatten_body hl]
  have hcalls (r : Routine) (m m' : Memory κ) (h : calls r m = .ok m') :
      Takes (fun _ _ ↦ Exec.ofCalls calls r) m () m' :=
    .of_yields fun _ _ _ ↦ Exec.yields_ofCalls.2 ⟨m', h, rfl⟩
  obtain ⟨count, hcount⟩ := Runs.exists_loop hcalls (Lowered.runs hbody hl h)
  exact ⟨count, fun limit hlimit ↦
    ⟨0 + count, hcount limit count (limit + 1) 0 (by omega) (by omega) (Nat.le_refl _)⟩⟩

/-- The flag of the loop below. -/
def loopFlag : Variable := .slot ⟨.declared 0, "flag", .bool, .scoped, {}⟩

/-- A loop that runs as long as the flag is true, with a conditional inside that clears it. -/
def flagLoop : Stmt :=
  let flag := Build.read loopFlag default
  .whileLoop default flag
    (.ifThen default flag (.assign default loopFlag (Build.unary .not flag default)))

theorem executes_flagLoop (routine : Routine) :
    flagLoop.Executes Memory.storageKey (fun _ m ↦ .ok m) routine
      ⟨[("flag", .bool true)]⟩ .through ⟨[("flag", .bool false)]⟩ :=
  .whileNext rfl (.ifThenTrue rfl (.simple rfl)) (.whileDone rfl)

/-- The loop is lowered, goes round once and clears the flag. -/
theorem Lowered.loop_of_executes_flagLoop :
    flagLoop.Structured ∧ ∃ l, lower (.declare 0 "main" [] .void {}) flagLoop = .ok l ∧
      ∃ least, ∀ limit ≥ least, ∃ steps,
        (Exec.loop Memory.storageKey limit (Exec.ofCalls fun _ m ↦ .ok m)
          (.declare 0 "main" [] .void {}) l.body.flatten (limit + 1) l.body.flatten).run
            { memory := ⟨[("flag", .bool true)]⟩ } =
          (.ok (), { memory := ⟨[("flag", .bool false)]⟩, steps := steps }) := by
  have hstructured : flagLoop.Structured := ⟨rfl, rfl, rfl, rfl⟩
  have hok : (lower (.declare 0 "main" [] .void {}) flagLoop).isOk = true := by decide +kernel
  rcases hl : lower (.declare 0 "main" [] .void {}) flagLoop with fault | l
  · rw [hl] at hok
    cases hok
  · exact ⟨hstructured, l, rfl, Lowered.loop_of_executes _ _ _ _ hstructured _ _ _
      (executes_flagLoop _) l hl⟩

end Wirescript
