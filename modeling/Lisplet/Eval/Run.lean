import Lisplet.Builtin.Call
import Lisplet.Eval.Form
import Lisplet.Eval.Scope

/-!
# Evaluation

`Task.step` is one step; `run` takes steps until a value is there.  The value of a macro's body is
code, to be evaluated where the macro was called, so `run` keeps a stack of the frames where code is
still awaited (`sites`): a body may itself end in a macro call.

Two numbers bound a run.  `room` bounds nesting: each evaluation inside a step has one unit less,
while all the steps of one run have the same.  Programs meet this bound as an overflow.  `steps`
bounds the work, so that `run` is a total function; running out of steps is no answer, and a run
that ends is not changed by granting it more.
-/

set_option autoImplicit false

namespace Lisplet

/-- The special form that heads a list. -/
def SpecialForm.ofHead? : Value → Option SpecialForm
  | .sym name => SpecialForm.ofName? name
  | _ => none

/-- The macro that heads a form in a frame, and the forms it is given. -/
def Store.macroCall? (s : Store) (scope : FrameId) : Value → Option (Closure Value × List Value)
  | .list _ (.sym name :: args) =>
    match (s.get? scope name).map Value.bare with
    | some (.fn c) => if c.isMacro then some (c, args) else none
    | _ => none
  | _ => none

namespace Task

variable (eng : Engine)

/-- Evaluates a call: a macro takes its arguments as they are, anything else takes their values,
computed from left to right. -/
def stepCombination (scope : FrameId) (head : Value) (args : List Value) : Eval Step := do
  match (← eng.eval scope head).bare with
  | .fn c =>
    if c.isMacro then return .code (.eval c.body (← eng.enter c args)) scope
    else
      let vs ← args.mapM (eng.eval scope)
      return .next (.eval c.body (← eng.enter c vs))
  | .builtin _ op =>
    let vs ← args.mapM (eng.eval scope)
    return .done (← op.call eng scope vs)
  | v => eng.fail (.notFunction head v)

/-- Evaluates a form: a symbol by looking it up, a vector or a map by evaluating what is in it, a
list as a special form or as a call.  Everything else, the empty list included, is its own value. -/
def stepEval (scope : FrameId) : Value → Eval Step
  | .sym name => return .done (← Scope.lookup eng scope name)
  | .vec items => return .done (.vec (← items.mapM (eng.eval scope)))
  | .map _ d => do
    let entries ← d.entries.mapM fun e ↦ return (e.1, ← eng.eval scope e.2)
    return .done (← Eval.labelled (.map none ⟨entries⟩))
  | .list _ (head :: args) =>
    match SpecialForm.ofHead? head with
    | some f => f.step eng scope args
    | none => stepCombination eng scope head args
  | form => return .done form

/-- Calls a function on arguments that are already evaluated; a macro is called like any other. -/
def stepCall (scope : FrameId) (fn : Value) (args : List Value) : Eval Step := do
  match fn.bare with
  | .fn c => return .next (.eval c.body (← eng.enter c args))
  | .builtin _ op => return .done (← op.call eng scope args)
  | _ => eng.fail (.notApplicable fn)

/-- Expands a form once if a macro heads it.  The form has to fit into the room for printing. -/
def stepExpand (scope : FrameId) (form : Value) : Eval Step := do
  match (← get).macroCall? scope form with
  | none => return .done form
  | some (c, args) =>
    discard (eng.print .readable "" [form])
    let inner ← eng.enter c args
    return .next (.expand (← eng.eval inner c.body) scope)

/-- **One step of evaluation.** -/
def step : Task → Eval Step
  | eval form scope => stepEval eng scope form
  | call fn args scope => stepCall eng scope fn args
  | expand form scope => stepExpand eng scope form

end Task

/-- **Takes steps until a value is there**, evaluating code where it is awaited. -/
def run (disk : Disk) : (steps room : Nat) → (sites : List FrameId) → Task → Eval Value
  | 0, _, _, _ => throw .exhausted
  | steps + 1, room, sites, task => do
    let below (t : Task) : Eval Value :=
      match room with
      | 0 => throw .overflow
      | room + 1 => run disk steps room [] t
    match ← task.step ⟨room, disk, below⟩ with
    | .next task => run disk steps room sites task
    | .code task site => run disk steps room (site :: sites) task
    | .done v =>
      match sites with
      | [] => return v
      | site :: sites => run disk steps room sites (.eval v site)

end Lisplet
