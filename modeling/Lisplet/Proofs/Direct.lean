import Lisplet.Eval.Run

/-!
# Evaluation in direct style

Evaluation as a language definition would have it: the value of a form is that of its parts, put
together, and whatever stands in tail position is evaluated by a recursive call like everything
else.  There are no steps, no tasks that stand for others and no frames where code is still awaited.
The body of a macro is evaluated to a value, in the frame that binds the forms the macro was given,
and that value is then evaluated where the macro was called.

The rules are written against an engine, whose evaluation is this very evaluation, nested one level
deeper.  So each of them is an ordinary definition, and `Direct.evaluate` ties the knot: it is the
limit over the depth that is granted, which bounds nesting and whatever else takes room.

What a special form does besides evaluating (naming, complaining, making closures, frames and code)
is the same as in `SpecialForm.step` and is not written twice.
-/

set_option autoImplicit false

namespace Lisplet.Direct

open SpecialForm (misshapen newClosure bindLocal catchClause? codeOf)

variable (eng : Engine)

/-- Calls a closure: its body is evaluated in a frame of its own. -/
def apply (c : Closure Value) (args : List Value) : Eval Value := do
  let inner ← eng.enter c args
  eng.eval inner c.body

/-! ## Special forms -/

/-- Binds a name in the current frame. -/
def define (scope : FrameId) : List Value → Eval Value
  | [.sym name, form] => do
    let v ← eng.eval scope form
    modify fun s ↦ s.define scope name v
    return v
  | [target, _] => eng.fail (.definedName target)
  | _ => misshapen eng .define

/-- Binds a name to a macro that is made from a function. -/
def defineMacro (scope : FrameId) : List Value → Eval Value
  | [.sym name, form] => do
    match (← eng.eval scope form).bare with
    | .fn c =>
      let v := Value.fn (← newClosure c.params c.body c.scope true)
      modify fun s ↦ s.define scope name v
      return v
    | v => eng.fail (.type (.macroSource v))
  | [target, _] => eng.fail (.macroName target)
  | _ => misshapen eng .defineMacro

/-- The pairs of a list or a vector of local bindings. -/
def bindings? : Value → Option (List (Value × Value))
  | .list _ vs | .vec vs => pairs? vs
  | _ => none

/-- Evaluates a body in a new frame, in which the bindings are made one after the other. -/
def letIn (scope : FrameId) : List Value → Eval Value
  | [bindings, body] => do
    match bindings? bindings with
    | none => eng.fail .bindingList
    | some pairs =>
      let inner ← modifyGet fun s ↦ s.addFrame (some scope) .empty
      pairs.forM (bindLocal eng inner)
      eng.eval inner body
  | _ => misshapen eng .letIn

/-- Evaluates forms in order, and has the value of the last. -/
def sequence (scope : FrameId) : List Value → Eval Value
  | [] => return .nil
  | [last] => eng.eval scope last
  | form :: rest => do
    discard (eng.eval scope form)
    sequence scope rest

/-- Evaluates the first branch if the condition is true, else the second, if there is one. -/
def choice (scope : FrameId) : List Value → Eval Value
  | [condition, positive] => do
    if (← eng.eval scope condition).isTruthy then eng.eval scope positive else return .nil
  | [condition, positive, negative] => do
    if (← eng.eval scope condition).isTruthy then eng.eval scope positive
    else eng.eval scope negative
  | _ => misshapen eng .choice

/-- Makes a function that closes over the current frame. -/
def function (scope : FrameId) : List Value → Eval Value
  | [params, body] => do
    let params ← eng.accept (Params.ofForm params)
    return .fn (← newClosure params body scope false)
  | _ => misshapen eng .function

/-- Hands the only part of a form to a rule. -/
def only (f : SpecialForm) (rule : Value → Eval Value) : List Value → Eval Value
  | [part] => rule part
  | _ => misshapen eng f

/-- Evaluates a body, and the handler of a clause if the body throws. -/
def attempt (scope : FrameId) : List Value → Eval Value
  | [body] => eng.eval scope body
  | [body, clause] => do
    match ← Eval.catchThrown (eng.eval scope body) with
    | .ok v => return v
    | .error payload =>
      match catchClause? clause with
      | none => eng.fail (.catchClause clause)
      | some (name, handler) =>
        discard (eng.print .readable "" [payload])
        let inner ← modifyGet fun s ↦ s.addFrame (some scope) (.ofList [(name, payload)])
        eng.eval inner handler
  | _ => misshapen eng .attempt

/-- **The value of a special form** with its parts in a frame. -/
def special (f : SpecialForm) (scope : FrameId) (parts : List Value) : Eval Value :=
  match f with
  | .define => define eng scope parts
  | .defineMacro => defineMacro eng scope parts
  | .letIn => letIn eng scope parts
  | .sequence => sequence eng scope parts
  | .choice => choice eng scope parts
  | .function => function eng scope parts
  | .quotation => only eng f pure parts
  | .template => only eng f (fun form ↦ do eng.eval scope (← codeOf eng form)) parts
  | .templateCode => only eng f (codeOf eng) parts
  | .expansion => only eng f (fun form ↦ eng.run (.expand form scope)) parts
  | .attempt => attempt eng scope parts

/-! ## Forms, calls and expansions -/

/-- Evaluates a call.  The code that a macro gives is evaluated where the macro was called. -/
def combination (scope : FrameId) (head : Value) (args : List Value) : Eval Value := do
  match (← eng.eval scope head).bare with
  | .fn c =>
    if c.isMacro then
      let code ← apply eng c args
      eng.eval scope code
    else
      let vs ← args.mapM (eng.eval scope)
      apply eng c vs
  | .builtin _ op =>
    let vs ← args.mapM (eng.eval scope)
    op.call eng scope vs
  | v => eng.fail (.notFunction head v)

/-- **The value of a form** in a frame. -/
def form (scope : FrameId) : Value → Eval Value
  | .sym name => Scope.lookup eng scope name
  | .vec items => return .vec (← items.mapM (eng.eval scope))
  | .map _ d => do
    let entries ← d.entries.mapM fun e ↦ return (e.1, ← eng.eval scope e.2)
    Eval.labelled (.map none ⟨entries⟩)
  | .list _ (head :: args) =>
    match SpecialForm.ofHead? head with
    | some f => special eng f scope args
    | none => combination eng scope head args
  | v => return v

/-- The value of a call with arguments that are already evaluated. -/
def call (scope : FrameId) (fn : Value) (args : List Value) : Eval Value := do
  match fn.bare with
  | .fn c => apply eng c args
  | .builtin _ op => op.call eng scope args
  | _ => eng.fail (.notApplicable fn)

/-- Expands a form as long as a macro heads it. -/
def expand (scope : FrameId) (form : Value) : Eval Value := do
  match (← get).macroCall? scope form with
  | none => return form
  | some (c, args) =>
    discard (eng.print .readable "" [form])
    let expansion ← apply eng c args
    eng.run (.expand expansion scope)

/-- The value of a task. -/
def value : Task → Eval Value
  | .eval v scope => form eng scope v
  | .call fn args scope => call eng scope fn args
  | .expand v scope => expand eng scope v

/-- **Evaluation in direct style**, as deep as is granted. -/
def evaluate (disk : Disk) : (depth : Nat) → Task → Eval Value
  | 0, _ => throw .overflow
  | depth + 1, task => value ⟨depth, disk, evaluate disk depth⟩ task

/-! ## Steps in direct style

Each rule is what the step of the same name comes to, evaluated to the end.  The rules differ in
nothing but how they go on: a step names the task that stands in its place, a rule evaluates it. -/

/-- What a step comes to, evaluated to the end. -/
def finish : Step → Eval Value
  | .done v => return v
  | .next task => eng.run task
  | .code task site => do eng.eval site (← eng.run task)

theorem fail_bind {α β : Type} (e : EvalError) (f : α → Eval β) :
    eng.fail e >>= f = eng.fail e := by
  rw [Engine.fail, bind_assoc]
  refine congrArg _ (funext fun s ↦ ?_)
  rw [bind_assoc]
  rfl

theorem misshapen_bind {α β : Type} (f : SpecialForm) (g : α → Eval β) :
    SpecialForm.misshapen eng f >>= g = SpecialForm.misshapen eng f :=
  fail_bind eng _ g

theorem define_eq (scope : FrameId) (parts : List Value) :
    define eng scope parts = SpecialForm.stepDefine eng scope parts >>= finish eng := by
  rw [define.eq_def]
  split
  · rw [SpecialForm.stepDefine]
    simp only [bind_assoc, pure_bind, finish]
  · rw [SpecialForm.stepDefine, fail_bind]
    assumption
  · rw [SpecialForm.stepDefine, misshapen_bind] <;> assumption

theorem defineMacro_eq (scope : FrameId) (parts : List Value) :
    defineMacro eng scope parts = SpecialForm.stepDefineMacro eng scope parts >>= finish eng := by
  rw [defineMacro.eq_def]
  split
  · rw [SpecialForm.stepDefineMacro, bind_assoc]
    refine congrArg _ (funext fun v ↦ ?_)
    generalize v.bare = b
    cases b with
    | fn c => simp only [bind_assoc, pure_bind, finish]
    | _ => exact (fail_bind eng _ _).symm
  · rw [SpecialForm.stepDefineMacro, fail_bind]
    assumption
  · rw [SpecialForm.stepDefineMacro, misshapen_bind] <;> assumption

theorem stepLet_eq (scope : FrameId) (bindings body : Value) :
    SpecialForm.stepLet eng scope [bindings, body] =
      match bindings? bindings with
      | none => eng.fail .bindingList
      | some pairs => do
        let inner ← modifyGet fun s ↦ s.addFrame (some scope) .empty
        pairs.forM (SpecialForm.bindLocal eng inner)
        return .next (.eval body inner) := by
  cases bindings <;> rfl

theorem letIn_eq (scope : FrameId) (parts : List Value) :
    letIn eng scope parts = SpecialForm.stepLet eng scope parts >>= finish eng := by
  rw [letIn.eq_def]
  split
  · rename_i bindings body
    rw [stepLet_eq]
    generalize bindings? bindings = found
    cases found with
    | none => exact (fail_bind eng _ _).symm
    | some pairs =>
      simp only [bind_assoc, pure_bind, finish]
      rfl
  · rename_i hshape
    rw [SpecialForm.stepLet.eq_def]
    split
    · exact (hshape _ _ rfl).elim
    · exact (misshapen_bind eng _ _).symm

theorem sequence_eq (scope : FrameId) (parts : List Value) :
    sequence eng scope parts = SpecialForm.stepSequence eng scope parts >>= finish eng := by
  fun_induction sequence eng scope parts with
  | case1 => rfl
  | case2 last => rfl
  | case3 form rest hrest ih =>
    cases rest with
    | nil => exact (hrest rfl).elim
    | cons next rest =>
      have hlast : (next :: rest).getLast? = some ((next :: rest).getLast hrest) :=
        List.getLast?_eq_some_getLast hrest
      rw [ih, SpecialForm.stepSequence, SpecialForm.stepSequence, List.getLast?_cons_cons, hlast,
        List.dropLast_cons_cons]
      simp only [List.forM, bind_assoc]

theorem choice_eq (scope : FrameId) (parts : List Value) :
    choice eng scope parts = SpecialForm.stepChoice eng scope parts >>= finish eng := by
  rw [choice.eq_def]
  split
  · rw [SpecialForm.stepChoice, pure_bind, bind_assoc]
    refine congrArg _ (funext fun v ↦ ?_)
    dsimp only
    cases v.isTruthy <;> rfl
  · rw [SpecialForm.stepChoice, pure_bind, bind_assoc]
    refine congrArg _ (funext fun v ↦ ?_)
    dsimp only
    cases v.isTruthy <;> rfl
  · rw [SpecialForm.stepChoice, misshapen_bind, misshapen_bind] <;> assumption

theorem function_eq (scope : FrameId) (parts : List Value) :
    function eng scope parts = SpecialForm.stepFunction eng scope parts >>= finish eng := by
  rw [function.eq_def]
  split
  · rw [SpecialForm.stepFunction]
    simp only [bind_assoc, pure_bind, finish]
  · rw [SpecialForm.stepFunction, misshapen_bind]
    assumption

theorem only_eq (f : SpecialForm) {rule : Value → Eval Value} {rule' : Value → Eval Step}
    (h : ∀ v, rule v = rule' v >>= finish eng) (parts : List Value) :
    only eng f rule parts = SpecialForm.stepOnly eng f rule' parts >>= finish eng := by
  rw [only.eq_def]
  split
  · rw [SpecialForm.stepOnly, h]
  · rw [SpecialForm.stepOnly, misshapen_bind]
    assumption

theorem attempt_eq (scope : FrameId) (parts : List Value) :
    attempt eng scope parts = SpecialForm.stepAttempt eng scope parts >>= finish eng := by
  rw [attempt.eq_def]
  split
  · rw [SpecialForm.stepAttempt]
    simp only [bind_assoc, pure_bind, finish, bind_pure]
  · rw [SpecialForm.stepAttempt, bind_assoc]
    refine congrArg _ (funext fun r ↦ ?_)
    cases r with
    | ok v => rfl
    | error payload =>
      dsimp only
      rw [SpecialForm.handle]
      generalize SpecialForm.catchClause? _ = clause
      cases clause with
      | none => exact (fail_bind eng _ _).symm
      | some named =>
        simp only [bind_assoc, pure_bind, finish]
        rfl
  · rw [SpecialForm.stepAttempt, misshapen_bind] <;> assumption

theorem special_eq (f : SpecialForm) (scope : FrameId) (parts : List Value) :
    special eng f scope parts = f.step eng scope parts >>= finish eng := by
  cases f with
  | define => exact define_eq eng scope parts
  | defineMacro => exact defineMacro_eq eng scope parts
  | letIn => exact letIn_eq eng scope parts
  | sequence => exact sequence_eq eng scope parts
  | choice => exact choice_eq eng scope parts
  | function => exact function_eq eng scope parts
  | quotation => exact only_eq eng _ (fun v ↦ by rw [pure_bind, finish]) parts
  | template =>
    exact only_eq eng _ (fun v ↦ by simp only [bind_assoc, pure_bind, finish]; rfl) parts
  | templateCode =>
    exact only_eq eng _ (fun v ↦ by simp only [bind_assoc, pure_bind, finish, bind_pure]) parts
  | expansion => exact only_eq eng _ (fun v ↦ by rw [pure_bind, finish]) parts
  | attempt => exact attempt_eq eng scope parts

theorem combination_eq (scope : FrameId) (head : Value) (args : List Value) :
    combination eng scope head args =
      Task.stepCombination eng scope head args >>= finish eng := by
  rw [combination, Task.stepCombination, bind_assoc]
  refine congrArg _ (funext fun v ↦ ?_)
  generalize v.bare = b
  cases b with
  | fn c =>
    dsimp only
    split
    · simp only [apply, bind_assoc, pure_bind, finish]
      rfl
    · simp only [apply, bind_assoc, pure_bind, finish]
      rfl
  | builtin home op => simp only [bind_assoc, pure_bind, finish, bind_pure]
  | _ => exact (fail_bind eng _ _).symm

theorem form_eq (scope : FrameId) (v : Value) :
    form eng scope v = Task.stepEval eng scope v >>= finish eng := by
  rw [form.eq_def]
  split
  · rw [Task.stepEval]
    simp only [bind_assoc, pure_bind, finish, bind_pure]
  · rw [Task.stepEval]
    simp only [bind_assoc, pure_bind, finish]
  · rw [Task.stepEval]
    simp only [bind_assoc, pure_bind, finish, bind_pure]
  · rename_i head args
    rw [Task.stepEval]
    generalize SpecialForm.ofHead? head = found
    cases found with
    | none => exact combination_eq eng scope head args
    | some f => exact special_eq eng f scope args
  · rw [Task.stepEval]
    · rfl
    all_goals assumption

theorem call_eq (scope : FrameId) (fn : Value) (args : List Value) :
    call eng scope fn args = Task.stepCall eng scope fn args >>= finish eng := by
  rw [call, Task.stepCall]
  generalize fn.bare = b
  cases b with
  | fn c =>
    simp only [apply, bind_assoc, pure_bind, finish]
    rfl
  | builtin home op => simp only [bind_assoc, pure_bind, finish, bind_pure]
  | _ => exact (fail_bind eng _ _).symm

theorem expand_eq (scope : FrameId) (form : Value) :
    expand eng scope form = Task.stepExpand eng scope form >>= finish eng := by
  rw [expand, Task.stepExpand, bind_assoc]
  refine congrArg _ (funext fun s ↦ ?_)
  generalize s.macroCall? scope form = found
  cases found with
  | none => rfl
  | some called => simp only [apply, bind_assoc, pure_bind, finish]

/-- **The value of a task is what its step comes to, evaluated to the end.** -/
theorem value_eq (task : Task) : value eng task = task.step eng >>= finish eng := by
  cases task with
  | eval v scope => exact form_eq eng scope v
  | call fn args scope => exact call_eq eng scope fn args
  | expand v scope => exact expand_eq eng scope v

end Lisplet.Direct
