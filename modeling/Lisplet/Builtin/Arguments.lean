import Lisplet.Error

/-!
# Arguments of built-in functions

The checks that built-in functions share: how many arguments there are, and what kind each is.  The
number is checked first.  A list-like argument, a map or a key is looked for under its metadata; a
string, an integer or an atom never has any, so these are wanted as they are.
-/

set_option autoImplicit false

namespace Lisplet

/-- The answers of a built-in function that does not need the store. -/
abbrev Answer := Except Fault

namespace Builtin

variable {α : Type}

/-- Fails with an error. -/
def refuse (e : EvalError) : Answer α := .error (.error e)

/-- Fails because an argument is of the wrong kind. -/
def unwanted (op : Builtin) (wanted : Wanted) (got : Value) : Answer α :=
  refuse (.type (.operand op wanted got))

/-- The only argument. -/
def one (op : Builtin) : List Value → Answer Value
  | [a] => .ok a
  | args => refuse (.arity (.exactly op 1 args.length))

/-- The two arguments. -/
def two (op : Builtin) : List Value → Answer (Value × Value)
  | [a, b] => .ok (a, b)
  | args => refuse (.arity (.exactly op 2 args.length))

/-- The elements of a list or a vector. -/
def items (op : Builtin) (v : Value) : Answer (List Value) :=
  match v.items? with
  | some vs => .ok vs
  | none => unwanted op .sequence v

/-- The elements of a list or a vector; `nil` has none. -/
def itemsOrNil (op : Builtin) : Value → Answer (List Value)
  | .nil => .ok []
  | v => items op v

/-- The entries of a map. -/
def entries (op : Builtin) (v : Value) : Answer (Dict Key Value) :=
  match v.bare with
  | .map _ d => .ok d
  | w => unwanted op .map w

/-- The text of a string. -/
def text (op : Builtin) : Value → Answer String
  | .str s => .ok s
  | v => unwanted op .string v

/-- The number of an atom. -/
def cell (op : Builtin) : Value → Answer AtomId
  | .atom a => .ok a
  | v => unwanted op .atom v

/-- The key that an argument makes. -/
def key (op : Builtin) (v : Value) : Answer Key :=
  match v.key? with
  | some k => .ok k
  | none => refuse (.type (.key op v))

end Builtin

end Lisplet
