import Lisplet.Builtin
import Lisplet.Dict

/-!
# Values

Code is data: the forms that the reader yields and the evaluator runs are the values that programs
compute with, so there is one type for both.

Two kinds of value refer to something outside themselves.  A closure names the frame it closes
over (`FrameId`) and an atom names its cell (`AtomId`); both live in a store.  Functions are equal
only to themselves, so a closure carries the serial number under which it was made, and a built-in
function the frame that it was made for.

A list or a map that evaluation makes carries a `Label`, which tells it from every other one, equal
or not.  Passing it on, storing it and taking it out of a collection keep the label.  Nothing that
the language computes depends on it; only a diagnostic looks at labels, to notice that an atom leads
back to a list or a map that it is already inside of.  What is written in a source text holds no
atom and needs no label.
-/

set_option autoImplicit false

namespace Lisplet

/-- The number of a frame: frames are numbered as they are made. -/
abbrev FrameId := Nat

/-- The number of an atom's cell: cells are numbered as they are made. -/
abbrev AtomId := Nat

/-- What tells a list or a map from every other one. -/
structure Label where
  /-- A number that is handed out once. -/
  serial : Nat
  /-- The way to it, innermost step first, inside code that was made as a whole. -/
  place : List Nat
  deriving DecidableEq, Repr, Inhabited

/-- The label of a part of some code. -/
def Label.part (l : Label) (i : Nat) : Label := { l with place := i :: l.place }

/-- A key of a map. -/
inductive Key
  | str (text : String)
  | kw (name : String)
  deriving DecidableEq, Repr, Inhabited

/-- The parameters of a function: fixed names, then perhaps a name for all further arguments. -/
structure Params where
  /-- The names of the fixed parameters. -/
  formals : List String
  /-- The name that takes the list of further arguments. -/
  rest : Option String
  deriving DecidableEq, Repr, Inhabited

/-- A function of the language, over the type of forms its body is written in. -/
structure Closure (α : Type) where
  /-- The number under which it was made; no two closures share one. -/
  serial : Nat
  params : Params
  body : α
  /-- The frame it closes over. -/
  scope : FrameId
  /-- Whether calls pass the argument forms and evaluate the result once more. -/
  isMacro : Bool
  deriving Inhabited

/-- A value, or a form: the same thing.  The name of a keyword is kept without its leading colon.  A
list or a map has no label if it is written in a source text or has only just been made. -/
inductive Value
  | nil
  | bool (b : Bool)
  | int (n : Int)
  | str (text : String)
  | sym (name : String)
  | kw (name : String)
  | list (label : Option Label) (items : List Value)
  | vec (items : List Value)
  | map (label : Option Label) (entries : Dict Key Value)
  | fn (closure : Closure Value)
  | builtin (home : FrameId) (op : Builtin)
  | atom (id : AtomId)
  | withMeta (value data : Value)
  deriving Inhabited

namespace Value

/-! ## Views

Most operations look at a value in one of a few ways: through its metadata, as a truth value, as a
sequence or as a key. -/

/-- The value under any metadata. -/
def bare : Value → Value
  | withMeta v _ => v.bare
  | v => v

/-- Everything is true save `nil` and `false`. -/
def isTruthy : Value → Bool
  | nil | bool false => false
  | _ => true

/-- The integer that a value is; metadata is not looked through. -/
def int? : Value → Option Int
  | int n => some n
  | _ => none

/-- The elements of a list or a vector, under any metadata. -/
def items? (v : Value) : Option (List Value) :=
  match v.bare with
  | list _ items | vec items => some items
  | _ => none

/-- The key that a string or a keyword makes, under any metadata. -/
def key? (v : Value) : Option Key :=
  match v.bare with
  | str s => some (.str s)
  | kw s => some (.kw s)
  | _ => none

/-- A key as a value. -/
def ofKey : Key → Value
  | .str s => str s
  | .kw s => kw s

/-- The keyword of a name that may be written with a leading colon. -/
def keyword (name : String) : Value :=
  match name.toList with
  | ':' :: rest => kw (String.ofList rest)
  | _ => kw name

@[simp] theorem bare_withMeta (v d : Value) : (withMeta v d).bare = v.bare := by
  rw [bare]

theorem bare_bare (v : Value) : v.bare.bare = v.bare := by
  fun_induction bare v with
  | case1 v d ih => exact ih
  | case2 v h =>
    rw [bare]
    exact h

theorem items?_bare (v : Value) : v.bare.items? = v.items? := by
  rw [items?, items?, bare_bare]

theorem key?_bare (v : Value) : v.bare.key? = v.key? := by
  rw [key?, key?, bare_bare]

@[simp] theorem key?_ofKey (k : Key) : (ofKey k).key? = some k := by
  cases k <;> rfl

end Value

/-- The contents of the atoms, by number. -/
abbrev Heap := Array Value

/-- The content of an atom; one that was never made holds `nil`. -/
def Heap.content (h : Heap) (a : AtomId) : Value := h[a]?.getD .nil

end Lisplet
