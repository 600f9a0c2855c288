import Lisplet.Error
import Lisplet.Params

/-!
# What evaluation is made of

Evaluation is cut into *steps*.  A step takes a task (`Task`) and either has its value, or hands on
another task that stands in its place (`Step`).  A function body, a branch, the last form of a
sequence are such tasks, so that a loop written as a tail call takes many steps but never nests.
What a step needs the value of at once, such as an argument, it evaluates through its `Engine`, and
only there does evaluation nest.

The engine holds what a step may use: the room that is left for nesting, the disk, and evaluation
one level further down.  The rules for special forms and built-in functions are written against an
engine, without knowing how evaluation continues, so that each of them is an ordinary definition
that can be reasoned about by itself.

Failing keeps the store as it is at that moment: effects are not undone.
-/

set_option autoImplicit false

namespace Lisplet

/-- Computations that read and change the store and may fail. -/
abbrev Eval := EStateM Failure Store

/-- Something to compute. -/
inductive Task
  /-- The value of a form in a frame. -/
  | eval (form : Value) (scope : FrameId)
  /-- The value of a call with arguments that are already evaluated, made from a frame. -/
  | call (fn : Value) (args : List Value) (scope : FrameId)
  /-- The expansion of a form in a frame, as long as its head names a macro there. -/
  | expand (form : Value) (scope : FrameId)
  deriving Inhabited

/-- What a step comes to. -/
inductive Step
  /-- The value. -/
  | done (v : Value)
  /-- The task whose value it is. -/
  | next (task : Task)
  /-- A task whose value is code, to be evaluated in a frame. -/
  | code (task : Task) (site : FrameId)
  deriving Inhabited

/-- What a step may use. -/
structure Engine where
  /-- How much deeper evaluation, printing, comparing and reading may nest. -/
  room : Nat
  disk : Disk
  /-- Evaluation one level further down. -/
  run : Task → Eval Value

namespace Eval

variable {α : Type}

/-- Throws a value of the language. -/
def throwValue (payload : Value) : Eval α := throw (.thrown payload)

/-- Runs a computation and intercepts a thrown value, but no other failure. -/
def catchThrown (x : Eval α) : Eval (Except Value α) := fun s ↦
  match x s with
  | .ok a s' => .ok (.ok a) s'
  | .error (.thrown payload) s' => .ok (.error payload) s'
  | .error f s' => .error f s'

/-- A label that nothing has yet. -/
def newLabel : Eval Label := do
  return ⟨← modifyGet Store.nextSerial, []⟩

/-- A value that has just been made: a list or a map gets a label of its own. -/
def labelled : Value → Eval Value
  | .list none items => return .list (some (← newLabel)) items
  | .map none entries => return .map (some (← newLabel)) entries
  | v => return v

end Eval

namespace Engine

variable (eng : Engine) {α : Type}

/-- The value of a form in a frame. -/
def eval (scope : FrameId) (form : Value) : Eval Value := eng.run (.eval form scope)

/-- A result for which there has to be room. -/
def fit : Option α → Eval α
  | some a => pure a
  | none => throw .overflow

/-- Fails with an error, worded now. -/
def fail (e : EvalError) : Eval α := do
  let message ← fit (e.message (← get).atoms eng.room)
  throw (.error e message)

/-- The result of a computation that does not need the store. -/
def lift : Except Fault α → Eval α
  | .ok a => pure a
  | .error (.error e) => eng.fail e
  | .error (.thrown payload) => throw (.thrown payload)
  | .error .tooDeep => throw .overflow

/-- The value that a computation makes anew. -/
def make (x : Except Fault Value) : Eval Value := do Eval.labelled (← eng.lift x)

/-- The result of a computation that can only be in error. -/
def accept : Except EvalError α → Eval α
  | .ok a => pure a
  | .error e => eng.fail e

/-- The printed form of some values. -/
def print (style : PrintStyle) (sep : String) (vs : List Value) : Eval String := do
  fit (Value.printAll (← get).atoms style eng.room sep vs)

/-- A frame with the parameters of a function bound to arguments, inside the frame that the function
closes over. -/
def enter (c : Closure Value) (args : List Value) : Eval FrameId := do
  let label ← c.params.rest.mapM fun _ ↦ Eval.newLabel
  let pairs ← eng.accept (c.params.bind label args)
  modifyGet fun s ↦ s.addFrame (some c.scope) (.ofList pairs)

end Engine

end Lisplet
