import Lisplet.Value

/-!
# Equality of the language

Neither metadata nor labels count.  A list equals a vector with equal elements; two maps are equal
when they have the same keys, in whatever order, with equal values; values of different kinds are
never equal.  Functions and atoms are equal to themselves alone, so the contents of atoms are not
looked at.

Elements are compared from the left, and a difference ends the comparison, so that a nest that is
too deep to compare matters only if it is reached.
-/

set_option autoImplicit false

namespace Lisplet.Value

/-- Equality of values that hold no others; false for collections. -/
def sameLeaf : Value → Value → Bool
  | nil, nil => true
  | bool a, bool b => a == b
  | int a, int b => a == b
  | str a, str b => a == b
  | sym a, sym b => a == b
  | kw a, kw b => a == b
  | fn a, fn b => a.serial == b.serial
  | builtin home a, builtin home' b => home == home' && a == b
  | atom a, atom b => a == b
  | _, _ => false

/-- **Equality of the language**, if comparing fits into the room: each level of nesting takes one
unit. -/
def equal? : (room : Nat) → Value → Value → Option Bool
  | 0, _, _ => none
  | room + 1, a, b =>
    match a.items?, b.items? with
    | some xs, some ys =>
      if xs.length = ys.length then (xs.zip ys).allM fun p ↦ equal? room p.1 p.2 else some false
    | some _, none | none, some _ => some false
    | none, none =>
      match a.bare, b.bare with
      | map _ m, map _ m' =>
        if m.size = m'.size && m.keys.all m'.contains then
          m.entries.allM fun e ↦
            match m'.get? e.1 with
            | some w => equal? room e.2 w
            | none => some false
        else some false
      | a, b => some (sameLeaf a b)

end Lisplet.Value
