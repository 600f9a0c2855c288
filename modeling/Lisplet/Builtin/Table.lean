import Lisplet.Builtin.Arguments
import Lisplet.Pairs

/-!
# Maps

Maps are never changed: `assoc` and `dissoc` give new ones, which have no label yet.  What is no key
is refused where a map would take it in, and counts as absent where it is only looked for.
-/

set_option autoImplicit false

namespace Lisplet.Builtin.Table

/-- A map with further keys and values, given alternately. -/
def extend (op : Builtin) (d : Dict Key Value) (args : List Value) : Answer Value :=
  match pairs? args with
  | none => refuse (.arity (.oddPairs op))
  | some pairs => do
    let keyed ← pairs.mapM fun p ↦ return (← key op p.1, p.2)
    .ok (.map none (d.insertAll keyed))

/-- The map of keys and values, given alternately. -/
def hashMap (args : List Value) : Answer Value := extend .hashMap .empty args

/-- The value of a key, or `nil`. -/
def get (args : List Value) : Answer Value := do
  match ← two .get args with
  | (.nil, _) => .ok .nil
  | (m, k) =>
    let d ← entries .get m
    .ok ((k.key?.bind d.get?).getD .nil)

/-- Whether a key has a value. -/
def contains (args : List Value) : Answer Value := do
  let (m, k) ← two .contains args
  let d ← entries .contains m
  .ok (.bool (k.key?.any d.contains))

/-- A map with further keys and values. -/
def assoc : List Value → Answer Value
  | [] => refuse (.arity (.lacking .assoc))
  | m :: args => do extend .assoc (← entries .assoc m) args

/-- A map without some keys. -/
def dissoc : List Value → Answer Value
  | [] => refuse (.arity (.lacking .dissoc))
  | m :: ks => do
    let d ← entries .dissoc m
    .ok (.map none ((ks.filterMap Value.key?).foldl Dict.erase d))

/-- The list of the keys. -/
def keys (args : List Value) : Answer Value := do
  let d ← entries .keys (← one .keys args)
  .ok (.list none (d.keys.map Value.ofKey))

/-- The list of the values. -/
def vals (args : List Value) : Answer Value := do
  let d ← entries .vals (← one .vals args)
  .ok (.list none d.values)

end Lisplet.Builtin.Table
