/-!
# The built-in functions, by name

Every top-level scope starts with these names bound.  Which function a name stands for is settled
once, here: a built-in value carries the constructor, not the name, so that it can be matched on,
and `Builtin.name` is what it is called in programs, in messages and in print.

`Builtin.all` lists them in the order in which a fresh scope binds them.
-/

set_option autoImplicit false

namespace Lisplet

/-- A built-in function. -/
inductive Builtin
  | equal
  | add | sub | mul | div | less | lessEq | greater | greaterEq
  | list | isList | vector | isVector | vec | isSequential | isEmpty | count | cons | concat
  | first | rest | nth | conj | seq
  | hashMap | isMap | get | contains | assoc | dissoc | keys | vals
  | atom | isAtom | deref | reset | swap
  | prStr | str | prn | println | readString | slurp
  | eval | evalHere | throw | map | apply
  | isNil | isTrue | isFalse | isSymbol | isKeyword | isString | isNumber | isFn | isMacro
  | symbol | keyword
  | metadata | withMeta
  deriving DecidableEq, Repr, Inhabited

namespace Builtin

/-- What a built-in function is called in programs. -/
def name : Builtin → String
  | equal => "="
  | add => "+"
  | sub => "-"
  | mul => "*"
  | div => "/"
  | less => "<"
  | lessEq => "<="
  | greater => ">"
  | greaterEq => ">="
  | list => "list"
  | isList => "list?"
  | vector => "vector"
  | isVector => "vector?"
  | vec => "vec"
  | isSequential => "sequential?"
  | isEmpty => "empty?"
  | count => "count"
  | cons => "cons"
  | concat => "concat"
  | first => "first"
  | rest => "rest"
  | nth => "nth"
  | conj => "conj"
  | seq => "seq"
  | hashMap => "hash-map"
  | isMap => "map?"
  | get => "get"
  | contains => "contains?"
  | assoc => "assoc"
  | dissoc => "dissoc"
  | keys => "keys"
  | vals => "vals"
  | atom => "atom"
  | isAtom => "atom?"
  | deref => "deref"
  | reset => "reset!"
  | swap => "swap!"
  | prStr => "pr-str"
  | str => "str"
  | prn => "prn"
  | println => "println"
  | readString => "read-string"
  | slurp => "slurp"
  | eval => "eval"
  | evalHere => "eval*"
  | throw => "throw"
  | map => "map"
  | apply => "apply"
  | isNil => "nil?"
  | isTrue => "true?"
  | isFalse => "false?"
  | isSymbol => "symbol?"
  | isKeyword => "keyword?"
  | isString => "string?"
  | isNumber => "number?"
  | isFn => "fn?"
  | isMacro => "macro?"
  | symbol => "symbol"
  | keyword => "keyword"
  | metadata => "meta"
  | withMeta => "with-meta"

/-- All built-in functions, in the order in which a fresh scope binds them. -/
def all : List Builtin :=
  [equal, add, sub, mul, div, less, lessEq, greater, greaterEq,
   list, isList, vector, isVector, vec, isSequential, isEmpty, count, cons, concat,
   first, rest, nth, conj, seq,
   hashMap, isMap, get, contains, assoc, dissoc, keys, vals,
   atom, isAtom, deref, reset, swap,
   prStr, str, prn, println, readString, slurp,
   eval, evalHere, throw, map, apply,
   isNil, isTrue, isFalse, isSymbol, isKeyword, isString, isNumber, isFn, isMacro,
   symbol, keyword,
   metadata, withMeta]

/-- The built-in function of a name. -/
def ofName? (s : String) : Option Builtin := all.find? fun b ↦ b.name == s

theorem mem_all (b : Builtin) : b ∈ all := by
  cases b <;> decide

end Builtin

end Lisplet
