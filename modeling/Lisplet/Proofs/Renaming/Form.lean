import Lisplet.Proofs.Renaming.Engine

/-!
# Special forms with new serial numbers

Each special form takes the same step when its parts have new serial numbers: which rule applies
does not depend on them, and every evaluation inside the rule does the same.  A closure gets the new
number of the one that it would get, and so does the code of a template.
-/

set_option autoImplicit false

namespace Lisplet

/-- What a step comes to, with new serial numbers. -/
def Step.rename (ρ : Nat → Nat) : Step → Step
  | .done v => .done (v.rename ρ)
  | .next task => .next (task.rename ρ)
  | .code task site => .code (task.rename ρ) site

theorem SpecialForm.catchClause?_rename (ρ : Nat → Nat) (clause : Value) :
    catchClause? (clause.rename ρ) =
      (catchClause? clause).map fun p ↦ (p.1, p.2.rename ρ) := by
  cases clause with
  | list l items =>
    rcases items with _ | ⟨head, _ | ⟨name, _ | ⟨handler, _ | ⟨extra, rest⟩⟩⟩⟩
    · simp [catchClause?]
    · simp [catchClause?]
    · simp [catchClause?]
    · cases head with
      | sym head =>
        cases name with
        | sym name =>
          by_cases hhead : head = "catch*" <;> simp [catchClause?, hhead]
        | _ => simp [catchClause?]
      | _ => simp [catchClause?]
    · simp [catchClause?]
  | _ => simp [catchClause?]

namespace Renumbering

variable {R : Renumbering} (eng : Engine) (scope : FrameId)

namespace Tracks

/-- A value to end with. -/
theorem done (v : Value) : R.Tracks (Step.rename R.serial) (Pure.pure (Step.done v))
    (Pure.pure (Step.done (v.rename R.serial))) :=
  pure (Step.done v)

/-- A form to go on with. -/
theorem next (form : Value) (f : FrameId) :
    R.Tracks (Step.rename R.serial) (Pure.pure (Step.next (.eval form f)))
      (Pure.pure (Step.next (.eval (form.rename R.serial) f))) :=
  pure (Step.next (.eval form f))

theorem misshapen {α β : Type} {k : α → β} (f : SpecialForm) :
    R.Tracks k (SpecialForm.misshapen eng f) (SpecialForm.misshapen eng f) :=
  fail eng _

theorem newClosure (params : Params) (body : Value) (isMacro : Bool) :
    R.Tracks (Closure.rename R.serial) (SpecialForm.newClosure params body scope isMacro)
      (SpecialForm.newClosure params (body.rename R.serial) scope isMacro) :=
  bind nextSerial fun n ↦ pure (⟨n, params, body, scope, isMacro⟩ : Closure Value)

theorem stepFunction (parts : List Value) :
    R.Tracks (Step.rename R.serial) (SpecialForm.stepFunction eng scope parts)
      (SpecialForm.stepFunction eng scope (parts.map (Value.rename R.serial))) := by
  rcases parts with _ | ⟨params, _ | ⟨body, _ | ⟨extra, rest⟩⟩⟩
  · exact fail eng _
  · exact fail eng _
  · refine bind (accept eng (.ofForm params)) fun params ↦ ?_
    refine bind (newClosure scope params body false) fun c ↦ ?_
    exact pure_of_eq (congrArg Step.done (Value.rename_fn R.serial c))
  · exact fail eng _

theorem codeOf (form : Value) :
    R.Tracks (Value.rename R.serial) (SpecialForm.codeOf eng form)
      (SpecialForm.codeOf eng (form.rename R.serial)) :=
  bind newLabel fun l ↦ lift eng (.code eng.room l form)

theorem stepOnly (f : SpecialForm) {rule : Value → Eval Step}
    (h : ∀ v, R.Tracks (Step.rename R.serial) (rule v) (rule (v.rename R.serial)))
    (parts : List Value) :
    R.Tracks (Step.rename R.serial) (SpecialForm.stepOnly eng f rule parts)
      (SpecialForm.stepOnly eng f rule (parts.map (Value.rename R.serial))) := by
  rcases parts with _ | ⟨part, _ | ⟨extra, rest⟩⟩
  · exact fail eng _
  · exact h part
  · exact fail eng _

theorem handle (clause payload : Value) :
    R.Tracks (Step.rename R.serial) (SpecialForm.handle eng scope clause payload)
      (SpecialForm.handle eng scope (clause.rename R.serial) (payload.rename R.serial)) := by
  rw [SpecialForm.handle, SpecialForm.handle, SpecialForm.catchClause?_rename]
  cases SpecialForm.catchClause? clause with
  | none => exact fail eng _
  | some p =>
    refine bind (discard (print eng .readable "" [payload])) fun _ ↦ ?_
    have hframe := addFrame (R := R) (some scope) (.ofList [(p.1, payload)])
    rw [Dict.map_ofList] at hframe
    exact bind hframe fun inner ↦ next p.2 inner

end Tracks

namespace Blind

variable {eng} (h : R.Blind eng)
include h

theorem stepDefine (parts : List Value) :
    R.Tracks (Step.rename R.serial) (SpecialForm.stepDefine eng scope parts)
      (SpecialForm.stepDefine eng scope (parts.map (Value.rename R.serial))) := by
  have hmisshapen := Tracks.misshapen (R := R) (k := Step.rename R.serial) eng .define
  rcases parts with _ | ⟨target, _ | ⟨form, _ | ⟨extra, rest⟩⟩⟩
  · exact hmisshapen
  · simpa [SpecialForm.stepDefine] using hmisshapen
  · have hfail := Tracks.fail (R := R) (f := Step.rename R.serial) eng (.definedName target)
    cases target with
    | sym name =>
      rw [List.map_cons, List.map_cons, List.map_nil, Value.rename_sym]
      exact .bind (h.eval scope form) fun v ↦ .bind (.define scope name v) fun _ ↦ .done v
    | _ => simpa [SpecialForm.stepDefine, EvalError.rename] using hfail
  · simpa [SpecialForm.stepDefine] using hmisshapen

theorem stepDefineMacro (parts : List Value) :
    R.Tracks (Step.rename R.serial) (SpecialForm.stepDefineMacro eng scope parts)
      (SpecialForm.stepDefineMacro eng scope (parts.map (Value.rename R.serial))) := by
  have hmisshapen := Tracks.misshapen (R := R) (k := Step.rename R.serial) eng .defineMacro
  rcases parts with _ | ⟨target, _ | ⟨form, _ | ⟨extra, rest⟩⟩⟩
  · exact hmisshapen
  · simpa [SpecialForm.stepDefineMacro] using hmisshapen
  · have hfail := Tracks.fail (R := R) (f := Step.rename R.serial) eng (.macroName target)
    cases target with
    | sym name =>
      rw [List.map_cons, List.map_cons, List.map_nil, Value.rename_sym]
      refine .bind (h.eval scope form) fun v ↦ ?_
      rw [Value.bare_rename]
      generalize v.bare = w
      have hfail := Tracks.fail (R := R) (f := Step.rename R.serial) eng (.type (.macroSource w))
      cases w with
      | fn c =>
        rw [Value.rename_fn]
        refine .bind (.newClosure c.scope c.params c.body true) fun c' ↦ ?_
        rw [← Value.rename_fn]
        exact .bind (.define scope name (.fn c')) fun _ ↦ .done (.fn c')
      | _ => simpa [EvalError.rename, TypeError.rename] using hfail
    | _ => simpa [SpecialForm.stepDefineMacro, EvalError.rename] using hfail
  · simpa [SpecialForm.stepDefineMacro] using hmisshapen

theorem bindLocal (binding : Value × Value) :
    R.Tracks id (SpecialForm.bindLocal eng scope binding)
      (SpecialForm.bindLocal eng scope
        (binding.map (Value.rename R.serial) (Value.rename R.serial))) := by
  obtain ⟨target, form⟩ := binding
  have hfail := Tracks.fail (R := R) (f := (id : Unit → Unit)) eng (.bindingName target)
  rw [SpecialForm.bindLocal, SpecialForm.bindLocal, Prod.map]
  cases target with
  | sym name =>
    simp only [Value.rename_sym]
    exact .bind (h.eval scope form) fun v ↦ .define scope name v
  | _ =>
    simp only [Value.rename, EvalError.rename] at hfail ⊢
    exact hfail

theorem stepLet (parts : List Value) :
    R.Tracks (Step.rename R.serial) (SpecialForm.stepLet eng scope parts)
      (SpecialForm.stepLet eng scope (parts.map (Value.rename R.serial))) := by
  rcases parts with _ | ⟨bindings, _ | ⟨body, _ | ⟨extra, rest⟩⟩⟩
  · exact .misshapen eng _
  · exact .misshapen eng _
  · -- a list of bindings is gone through as a vector is
    have hvec (items : List Value) : R.Tracks (Step.rename R.serial)
        (SpecialForm.stepLet eng scope [.vec items, body])
        (SpecialForm.stepLet eng scope
          [.vec (items.map (Value.rename R.serial)), body.rename R.serial]) := by
      rw [SpecialForm.stepLet.eq_def, SpecialForm.stepLet.eq_def]
      simp only [Option.bind_some, pairs?_map]
      cases pairs? items with
      | none => exact .fail eng _
      | some pairs =>
        refine .bind (.addFrame (some scope) .empty) fun inner ↦ ?_
        exact .bind (.forM fun p _ ↦ h.bindLocal inner p) fun _ ↦ .next body inner
    cases bindings with
    | list l items =>
      rw [List.map_cons, List.map_cons, List.map_nil, Value.rename_list]
      exact hvec items
    | vec items =>
      rw [List.map_cons, List.map_cons, List.map_nil, Value.rename_vec]
      exact hvec items
    | _ =>
      simp only [List.map_cons, List.map_nil, Value.rename]
      exact .fail eng _
  · exact .misshapen eng _

theorem stepSequence (parts : List Value) :
    R.Tracks (Step.rename R.serial) (SpecialForm.stepSequence eng scope parts)
      (SpecialForm.stepSequence eng scope (parts.map (Value.rename R.serial))) := by
  rw [SpecialForm.stepSequence, SpecialForm.stepSequence, List.getLast?_map]
  cases parts.getLast? with
  | none => exact .pure_of_eq (congrArg Step.done (Value.rename_nil R.serial))
  | some last =>
    rw [← List.map_dropLast]
    exact .bind (.forM fun form _ ↦ .discard (h.eval scope form)) fun _ ↦ .next last scope

theorem stepChoice (parts : List Value) :
    R.Tracks (Step.rename R.serial) (SpecialForm.stepChoice eng scope parts)
      (SpecialForm.stepChoice eng scope (parts.map (Value.rename R.serial))) := by
  have hmisshapen := Tracks.misshapen (R := R) (k := Step.rename R.serial) eng .choice
  have hnext (form : Value) := Tracks.next (R := R) form scope
  rcases parts with _ | ⟨condition, _ | ⟨positive, _ | ⟨negative, _ | ⟨extra, rest⟩⟩⟩⟩
  · simpa [SpecialForm.stepChoice, Direct.misshapen_bind] using hmisshapen
  · simpa [SpecialForm.stepChoice, Direct.misshapen_bind] using hmisshapen
  · simp only [List.map_cons, List.map_nil, SpecialForm.stepChoice, pure_bind]
    refine .bind (h.eval scope condition) fun v ↦ ?_
    rw [Value.isTruthy_rename]
    cases v.isTruthy with
    | true => exact hnext positive
    | false => exact .pure_of_eq (congrArg Step.done (Value.rename_nil R.serial))
  · simp only [List.map_cons, List.map_nil, SpecialForm.stepChoice, pure_bind]
    refine .bind (h.eval scope condition) fun v ↦ ?_
    rw [Value.isTruthy_rename]
    cases v.isTruthy with
    | true => exact hnext positive
    | false => exact hnext negative
  · simpa [SpecialForm.stepChoice, Direct.misshapen_bind] using hmisshapen

theorem stepAttempt (parts : List Value) :
    R.Tracks (Step.rename R.serial) (SpecialForm.stepAttempt eng scope parts)
      (SpecialForm.stepAttempt eng scope (parts.map (Value.rename R.serial))) := by
  rcases parts with _ | ⟨body, _ | ⟨clause, _ | ⟨extra, rest⟩⟩⟩
  · exact .fail eng _
  · exact .bind (h.eval scope body) fun v ↦ .done v
  · refine .bind (.catchThrown (h.eval scope body)) fun r ↦ ?_
    cases r with
    | ok v => exact .done v
    | error payload => exact .handle eng scope clause payload
  · exact .fail eng _

/-- **A special form takes the same step with new serial numbers.** -/
theorem formStep (f : SpecialForm) (parts : List Value) :
    R.Tracks (Step.rename R.serial) (f.step eng scope parts)
      (f.step eng scope (parts.map (Value.rename R.serial))) := by
  cases f with
  | define => exact h.stepDefine scope parts
  | defineMacro => exact h.stepDefineMacro scope parts
  | letIn => exact h.stepLet scope parts
  | sequence => exact h.stepSequence scope parts
  | choice => exact h.stepChoice scope parts
  | function => exact .stepFunction eng scope parts
  | quotation => exact .stepOnly eng _ (fun form ↦ .done form) parts
  | template =>
    exact .stepOnly eng _ (fun form ↦ .bind (.codeOf eng form) fun c ↦ .next c scope) parts
  | templateCode =>
    exact .stepOnly eng _ (fun form ↦ .bind (.codeOf eng form) fun c ↦ .done c) parts
  | expansion => exact .stepOnly eng _ (fun form ↦ .pure (Step.next (.expand form scope))) parts
  | attempt => exact h.stepAttempt scope parts

end Blind

end Renumbering

end Lisplet
