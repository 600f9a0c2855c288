import Lisplet.Eval.Engine
import Lisplet.Pairs
import Lisplet.Template

/-!
# The rules of the special forms

Each rule takes the parts of its form unevaluated.  Whatever stands in tail position, that is a
branch, a body, a last form, a handler or the code of a template, is handed on as the next task.
-/

set_option autoImplicit false

namespace Lisplet.SpecialForm

variable (eng : Engine)

/-- Complains about a wrong number of parts. -/
def misshapen {α : Type} (f : SpecialForm) : Eval α := eng.fail (.arity (.form f))

/-- A closure with a number of its own. -/
def newClosure (params : Params) (body : Value) (scope : FrameId) (isMacro : Bool) :
    Eval (Closure Value) := do
  return ⟨← modifyGet Store.nextSerial, params, body, scope, isMacro⟩

/-- Binds a name in the current frame; the value is the value of the form. -/
def stepDefine (scope : FrameId) : List Value → Eval Step
  | [.sym name, form] => do
    let v ← eng.eval scope form
    modify fun s ↦ s.define scope name v
    return .done v
  | [target, _] => eng.fail (.definedName target)
  | _ => misshapen eng .define

/-- Binds a name to a macro that is made from a function.  The function itself stays as it is. -/
def stepDefineMacro (scope : FrameId) : List Value → Eval Step
  | [.sym name, form] => do
    match (← eng.eval scope form).bare with
    | .fn c =>
      let v := Value.fn (← newClosure c.params c.body c.scope true)
      modify fun s ↦ s.define scope name v
      return .done v
    | v => eng.fail (.type (.macroSource v))
  | [target, _] => eng.fail (.macroName target)
  | _ => misshapen eng .defineMacro

/-- Evaluates the form of a local binding and binds its name. -/
def bindLocal (scope : FrameId) (binding : Value × Value) : Eval Unit := do
  match binding.1 with
  | .sym name =>
    let v ← eng.eval scope binding.2
    modify fun s ↦ s.define scope name v
  | target => eng.fail (.bindingName target)

/-- Evaluates a body in a new frame, in which the bindings are made one after the other. -/
def stepLet (scope : FrameId) : List Value → Eval Step
  | [bindings, body] => do
    let items := match bindings with
      | .list _ vs | .vec vs => some vs
      | _ => none
    match items.bind pairs? with
    | none => eng.fail .bindingList
    | some pairs =>
      let inner ← modifyGet fun s ↦ s.addFrame (some scope) .empty
      pairs.forM (bindLocal eng inner)
      return .next (.eval body inner)
  | _ => misshapen eng .letIn

/-- Evaluates forms in order. -/
def stepSequence (scope : FrameId) (parts : List Value) : Eval Step := do
  match parts.getLast? with
  | none => return .done .nil
  | some last =>
    parts.dropLast.forM fun form ↦ discard (eng.eval scope form)
    return .next (.eval last scope)

/-- Evaluates the first branch if the condition is true, else the second; a second branch that is
missing is `nil`. -/
def stepChoice (scope : FrameId) (parts : List Value) : Eval Step := do
  let (condition, positive, negative) ← match parts with
    | [condition, positive] => pure (condition, positive, none)
    | [condition, positive, negative] => pure (condition, positive, some negative)
    | _ => misshapen eng .choice
  if (← eng.eval scope condition).isTruthy then return .next (.eval positive scope)
  else
    match negative with
    | some form => return .next (.eval form scope)
    | none => return .done .nil

/-- Makes a function that closes over the current frame. -/
def stepFunction (scope : FrameId) : List Value → Eval Step
  | [params, body] => do
    let params ← eng.accept (Params.ofForm params)
    return .done (.fn (← newClosure params body scope false))
  | _ => misshapen eng .function

/-- Hands the only part of a form to a rule. -/
def stepOnly (f : SpecialForm) (rule : Value → Eval Step) : List Value → Eval Step
  | [part] => rule part
  | _ => misshapen eng f

/-- The name and the handler of a clause that catches. -/
def catchClause? : Value → Option (String × Value)
  | .list _ [.sym head, .sym name, handler] =>
    if head = "catch*" then some (name, handler) else none
  | _ => none

/-- Evaluates a handler in a new frame that binds a thrown value.  The value has to fit into the
room for printing. -/
def handle (scope : FrameId) (clause payload : Value) : Eval Step := do
  match catchClause? clause with
  | none => eng.fail (.catchClause clause)
  | some (name, handler) =>
    discard (eng.print .readable "" [payload])
    let inner ← modifyGet fun s ↦ s.addFrame (some scope) (.ofList [(name, payload)])
    return .next (.eval handler inner)

/-- Evaluates a body, and the handler of a clause if the body throws. -/
def stepAttempt (scope : FrameId) : List Value → Eval Step
  | [body] => return .done (← eng.eval scope body)
  | [body, clause] => do
    match ← Eval.catchThrown (eng.eval scope body) with
    | .ok v => return .done v
    | .error payload => handle eng scope clause payload
  | _ => misshapen eng .attempt

/-- The code of a template, under a label of its own. -/
def codeOf (form : Value) : Eval Value := do
  eng.lift (Template.code eng.room (← Eval.newLabel) form)

/-- **The step that a special form takes** with its parts in a frame. -/
def step (f : SpecialForm) (scope : FrameId) (parts : List Value) : Eval Step :=
  match f with
  | define => stepDefine eng scope parts
  | defineMacro => stepDefineMacro eng scope parts
  | letIn => stepLet eng scope parts
  | sequence => stepSequence eng scope parts
  | choice => stepChoice eng scope parts
  | function => stepFunction eng scope parts
  | quotation => stepOnly eng f (fun form ↦ return .done form) parts
  | template =>
    stepOnly eng f (fun form ↦ return .next (.eval (← codeOf eng form) scope)) parts
  | templateCode => stepOnly eng f (fun form ↦ return .done (← codeOf eng form)) parts
  | expansion => stepOnly eng f (fun form ↦ return .next (.expand form scope)) parts
  | attempt => stepAttempt eng scope parts

end Lisplet.SpecialForm
