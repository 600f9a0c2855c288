/-!
# Special forms

A list whose first element is one of these names is not a call: the form itself says which of its
parts are evaluated, and when.  The names are taken before any binding is looked at, so a binding of
such a name has no effect on evaluation.
-/

set_option autoImplicit false

namespace Lisplet

/-- A form with a rule of its own. -/
inductive SpecialForm
  /-- Binds a name in the current frame. -/
  | define
  /-- Binds a name to a function as a macro. -/
  | defineMacro
  /-- Evaluates a body with further names, each bound to a value that may use the earlier ones. -/
  | letIn
  /-- Evaluates forms in order, and has the value of the last. -/
  | sequence
  /-- Evaluates one of two branches. -/
  | choice
  /-- Makes a function. -/
  | function
  /-- Has its argument as value, unevaluated. -/
  | quotation
  /-- Builds a value after a template. -/
  | template
  /-- Has the code that builds a value after a template as value. -/
  | templateCode
  /-- Has the expansion of a macro call as value. -/
  | expansion
  /-- Evaluates a body, and a handler if the body throws. -/
  | attempt
  deriving DecidableEq, Repr, Inhabited

namespace SpecialForm

/-- The name of a special form. -/
def name : SpecialForm → String
  | define => "def!"
  | defineMacro => "defmacro!"
  | letIn => "let*"
  | sequence => "do"
  | choice => "if"
  | function => "fn*"
  | quotation => "quote"
  | template => "quasiquote"
  | templateCode => "quasiquoteexpand"
  | expansion => "macroexpand"
  | attempt => "try*"

/-- The parts that a special form has to have, as its complaint about a wrong number words them. -/
def shape : SpecialForm → String
  | define => "requires exactly 2 arguments"
  | defineMacro => "requires a name and a function"
  | letIn => "requires a binding list and a body"
  | sequence => "takes any number of forms"
  | choice => "requires a condition, a then-branch and an optional else-branch"
  | function => "requires a parameter list and a body"
  | quotation | template | templateCode | expansion => "expects exactly 1 argument"
  | attempt => "requires a body and an optional catch* clause"

/-- All special forms. -/
def all : List SpecialForm :=
  [define, defineMacro, letIn, sequence, choice, function, quotation, template, templateCode,
   expansion, attempt]

/-- The special form of a name. -/
def ofName? (s : String) : Option SpecialForm := all.find? fun f ↦ f.name == s

theorem ofName?_name (f : SpecialForm) : ofName? f.name = some f := by
  cases f <;> decide

end SpecialForm

end Lisplet
