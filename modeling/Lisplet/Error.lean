import Lisplet.Files
import Lisplet.Reader.Error
import Lisplet.SpecialForm
import Lisplet.Store
import Lisplet.Value.Print

/-!
# Why evaluation fails

An error has one constructor for each cause, holding the values it is about, and one function
(`EvalError.message`) words all of them.  A message shows values, atoms with the contents they have
at that moment, so it is made when the error is raised.  Making it takes room like any other
printing, and can be what overflows.

Only a thrown value can be caught.  It is not an error of this kind but travels as it is, and is
printed only where it is reported.

Some things are foreseen nowhere (`Crash`): a numeral with thousands of digits, a file that is no
text, a path that the system does not take.  They are no errors of the language, have no wording in
it, and end the whole run.
-/

set_option autoImplicit false

namespace Lisplet

/-- A wrong number of things. -/
inductive ArityError
  /-- A built-in function wants a fixed number of arguments. -/
  | exactly (op : Builtin) (wanted got : Nat)
  /-- A built-in function lacks arguments that it cannot do without. -/
  | lacking (op : Builtin)
  /-- The last key given to a built-in function has no value. -/
  | oddPairs (op : Builtin)
  /-- A special form has the wrong number of parts. -/
  | form (f : SpecialForm)
  /-- A mark inside a template has other than one argument. -/
  | marker (head : String)
  /-- A function was called with the wrong number of arguments. -/
  | call (params : Params) (got : Nat)
  deriving Inhabited

/-- What a built-in function wants an argument to be. -/
inductive Wanted
  | sequence
  | map
  | string
  | atom
  | index
  | subject
  deriving DecidableEq, Repr, Inhabited

/-- A value of the wrong kind. -/
inductive TypeError
  /-- A built-in function wants something else. -/
  | operand (op : Builtin) (wanted : Wanted) (got : Value)
  /-- Arithmetic wants two integers. -/
  | integers (op : Builtin) (a b : Value)
  /-- A map wants keys. -/
  | key (op : Builtin) (got : Value)
  /-- A text that is to be a name cannot be read. -/
  | unreadableName (op : Builtin) (text : String) (cause : ReadError)
  /-- A text that is to be a name reads as something else. -/
  | otherName (op : Builtin) (text : String)
  /-- A macro is to be made of something other than a function. -/
  | macroSource (got : Value)
  /-- Something other than a list or a vector stands for parameters. -/
  | parameterList (got : Value)
  /-- Something other than a symbol stands for a parameter. -/
  | parameterName (got : Value)
  deriving Inhabited

/-- The cause that makes an evaluation fail beyond rescue. -/
inductive EvalError
  /-- The head of a call is no function. -/
  | notFunction (head value : Value)
  /-- A built-in function was given something to call that is no function. -/
  | notApplicable (value : Value)
  | arity (e : ArityError)
  | type (e : TypeError)
  /-- The marker of further parameters is not followed by exactly one name. -/
  | restMarker
  | unbound (name : String)
  /-- Something other than a symbol is to be bound. -/
  | definedName (got : Value)
  /-- Something other than a symbol is to be bound to a macro. -/
  | macroName (got : Value)
  /-- The local bindings are no list or vector of pairs. -/
  | bindingList
  /-- Something other than a symbol is to be bound locally. -/
  | bindingName (got : Value)
  /-- A value was thrown, and what should catch it is malformed. -/
  | catchClause (clause : Value)
  /-- A text cannot be read. -/
  | unreadable (cause : ReadError)
  /-- A file cannot be read. -/
  | file (path : String) (fault : FileFault)
  deriving Inhabited

/-! ## Wording -/

/-- The arguments that a built-in function cannot do without, in words. -/
def Builtin.essentials : Builtin → String
  | conj => "a collection"
  | assoc | dissoc => "a map"
  | swap => "an atom and a function"
  | apply => "a function and a list of arguments"
  | _ => "arguments"

/-- The wording of a wrong number. -/
def ArityError.message : ArityError → String
  | exactly op wanted got =>
    op.name ++ " requires exactly " ++ Nat.repr wanted ++ " argument(s), got " ++ Nat.repr got
  | lacking op => op.name ++ " requires " ++ op.essentials
  | oddPairs op => op.name ++ " requires an even number of key/value arguments"
  | form f => f.name ++ " " ++ f.shape
  | marker head => head ++ " expects exactly 1 argument"
  | call params got =>
    "Wrong number of arguments: expected " ++ (if params.rest.isSome then "at least " else "") ++
      Nat.repr params.formals.length ++ ", got " ++ Nat.repr got

/-- A wanted kind of argument, in words. -/
def Wanted.words : Wanted → String
  | sequence => "a list or vector"
  | map => "a map"
  | string => "a string"
  | atom => "an atom"
  | index => "an integer index"
  | subject => "a collection or function"

/-- The wording of a wrong kind. -/
def TypeError.message (heap : Heap) (room : Nat) : TypeError → Option String
  | operand op wanted got =>
    (got.print heap .readable room).map fun t ↦
      op.name ++ " expects " ++ wanted.words ++ ", got " ++ t
  | integers op a b => do
    let s ← a.print heap .readable room
    let t ← b.print heap .readable room
    some (op.name ++ " expects two integers, got " ++ s ++ " and " ++ t)
  | key op got =>
    (got.print heap .readable room).map fun t ↦
      op.name ++ ": map keys must be strings or keywords, got " ++ t
  | unreadableName op text _ =>
    some (op.name ++ ": " ++ Text.inspect text ++ " is not a valid name")
  | otherName op text =>
    some (op.name ++ ": " ++ Text.quote text ++ " does not name a " ++ op.name)
  | macroSource got =>
    (got.print heap .readable room).map fun t ↦ "defmacro! needs a function, got " ++ t
  | parameterList got =>
    (got.describe heap room).map fun t ↦ "Parameter list must be a list or vector, got " ++ t
  | parameterName got =>
    (got.describe heap room).map fun t ↦ "Parameter names must be symbols, got " ++ t

/-- **The wording of every error of evaluation.**  There is none only if a value it has to show does
not fit into the room. -/
def EvalError.message (heap : Heap) (room : Nat) : EvalError → Option String
  | notFunction head value => do
    let s ← head.print heap .readable room
    let t ← value.print heap .readable room
    some (s ++ " is not a function: " ++ t)
  | notApplicable value =>
    (value.print heap .readable room).map fun t ↦ "Cannot apply non-function " ++ t
  | arity e => some e.message
  | type e => e.message heap room
  | restMarker => some "'&' must be followed by exactly one parameter name"
  | unbound name => some ("'" ++ name ++ "' not found")
  | definedName got => (got.describe heap room).map fun t ↦ "Cannot define " ++ t ++ " as a symbol"
  | macroName got =>
    (got.describe heap room).map fun t ↦ "Macro name must be a Symbol, got " ++ t
  | bindingList => some "let* bindings must be an even-length list or vector"
  | bindingName got =>
    (got.describe heap room).map fun t ↦ "let* binding name must be a symbol, got " ++ t
  | catchClause clause =>
    (clause.print heap .readable room).map fun t ↦ "malformed catch* clause: " ++ t
  | unreadable cause => (cause.message room).map fun t ↦ "read-string: " ++ t
  | file path fault => some ("slurp: cannot read " ++ path ++ ": " ++ fault.message path)

/-! ## Failures -/

/-- How a computation that neither prints nor runs code can fail. -/
inductive Fault
  | error (e : EvalError)
  /-- A value was thrown. -/
  | thrown (payload : Value)
  /-- Something is nested too deeply. -/
  | tooDeep
  deriving Inhabited

/-- What brings the program down.  It is no error: nothing words it and nothing handles it. -/
inductive Crash
  /-- A numeral has so many digits that it is not converted. -/
  | numeral (digits : Nat)
  /-- The bytes of a file are no text. -/
  | undecodable (path : String)
  /-- A path holds the character NUL. -/
  | path (path : String)
  deriving DecidableEq, Repr, Inhabited

/-- How an evaluation can fail. -/
inductive Failure
  /-- An error, with the message it had when it was raised. -/
  | error (e : EvalError) (message : String)
  /-- A value was thrown and not caught. -/
  | thrown (payload : Value)
  /-- Evaluation, or something it does, is nested too deeply. -/
  | overflow
  /-- The program has crashed. -/
  | crashed (c : Crash)
  /-- The steps that were granted are used up. -/
  | exhausted
  /-- The disk does not know yet what is at a path. -/
  | unread (path : String)
  deriving Inhabited

end Lisplet
