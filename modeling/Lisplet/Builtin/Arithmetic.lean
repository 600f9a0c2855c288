import Lisplet.Builtin.Arguments
import Lisplet.Integer

/-!
# Arithmetic

Sums, differences and products are exact and then checked: a result that is out of range throws,
and so does a division by zero.  Division cuts off toward zero, so its only result out of range is
that of the least integer by minus one.
-/

set_option autoImplicit false

namespace Lisplet.Builtin.Arithmetic

/-- The two integers that arithmetic works on. -/
def operands (op : Builtin) (args : List Value) : Answer (Int × Int) := do
  match ← two op args with
  | (.int a, .int b) => .ok (a, b)
  | (a, b) => refuse (.type (.integers op a b))

/-- An integer that has to be in range. -/
def checked (op : Builtin) (n : Int) : Answer Value :=
  if Integer.InRange n then .ok (.int n)
  else .error (.thrown (.str ("integer overflow in " ++ op.name)))

/-- A checked operation. -/
def operate (op : Builtin) (f : Int → Int → Int) (args : List Value) : Answer Value := do
  let (a, b) ← operands op args
  checked op (f a b)

/-- Division, cutting off toward zero. -/
def divide (args : List Value) : Answer Value := do
  let (a, b) ← operands .div args
  if b = 0 then .error (.thrown (.str "division by zero")) else checked .div (Integer.quotient a b)

/-- A comparison. -/
def compare (op : Builtin) (holds : Int → Int → Bool) (args : List Value) : Answer Value := do
  let (a, b) ← operands op args
  .ok (.bool (holds a b))

end Lisplet.Builtin.Arithmetic
