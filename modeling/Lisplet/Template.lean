import Lisplet.Error

/-!
# Templates

A template is a form with holes.  `(unquote e)` is a hole for one value, `(splice-unquote e)` inside
a list or a vector a hole for any number of them.  `Template.code` gives ordinary code that builds
the form with the holes filled: a chain of `cons` and `concat` for the elements of a list, `vec` of
such a chain for a vector, `quote` for what would otherwise be evaluated.

The chain is built from its last element backwards, so of several malformed holes the last one is
the one that is reported.  When the code runs, it fills the holes from left to right.

All lists of the code are new, save the empty one at the end of a chain, and each has the label of
its place in the code: of a call with an element and a tail, the code for the element has the place
1 and the tail the place 2; of a call of `vec`, the chain has the place 1.
-/

set_option autoImplicit false

namespace Lisplet.Template

/-- The argument of a form that is headed by the marker.  Such a form has exactly one. -/
def argument? (marker : String) (form : Value) : Except Fault (Option Value) :=
  match form.items? with
  | some (.sym head :: args) =>
    if head = marker then
      match args with
      | [arg] => .ok (some arg)
      | _ => .error (.error (.arity (.marker marker)))
    else .ok none
  | _ => .ok none

/-- The head of a hole for one value. -/
def one : String := "unquote"

/-- The head of a hole for any number of values. -/
def many : String := "splice-unquote"

/-- A call of a function by its name, as a list with a label. -/
def callOf (label : Label) (head : String) (args : List Value) : Value :=
  .list (some label) (.sym head :: args)

/-- Puts the code for one element before the code for the elements behind it. -/
def prepend (code : Label → Value → Except Fault Value) (label : Label) (elem tail : Value) :
    Except Fault Value := do
  match ← argument? one elem with
  | some arg => .ok (callOf label "cons" [arg, tail])
  | none =>
    match ← argument? many elem with
    | some arg => .ok (callOf label "concat" [arg, tail])
    | none => return callOf label "cons" [← code (label.part 1) elem, tail]

/-- The code for the elements of a list or a vector. -/
def elements (code : Label → Value → Except Fault Value) :
    Label → List Value → Except Fault Value
  | _, [] => .ok (.list none [])
  | label, elem :: rest => do prepend code label elem (← elements code (label.part 2) rest)

/-- **The code that builds the form of a template**, if there is room: each level of nesting takes
one unit of it. -/
def code : (room : Nat) → Label → Value → Except Fault Value
  | 0, _, _ => .error .tooDeep
  | room + 1, label, t =>
    match t.bare with
    | .list _ items => do
      match ← argument? one t with
      | some arg => .ok arg
      | none => elements (code room) label items
    | .vec items => return callOf label "vec" [← elements (code room) (label.part 1) items]
    | .sym _ | .map _ _ => .ok (callOf label "quote" [t])
    | _ => .ok t

end Lisplet.Template
