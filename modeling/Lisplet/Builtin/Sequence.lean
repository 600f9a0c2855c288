import Lisplet.Builtin.Arguments

/-!
# Lists and vectors

Lists and vectors are alike to most functions; `nil` stands for the empty list wherever a sequence
is only read through.  What is built is a list, save by `vector`, `vec` and by `conj` onto a vector;
it has no label yet.
-/

set_option autoImplicit false

namespace Lisplet.Builtin.Sequence

/-- Whether a value is a list or a vector without elements. -/
def isEmpty (v : Value) : Bool := v.items?.any List.isEmpty

/-- The vector of the elements of a sequence. -/
def vec (args : List Value) : Answer Value := do
  let v ← one .vec args
  .ok (.vec (← items .vec v))

/-- The number of elements. -/
def count (args : List Value) : Answer Value := do
  let v ← one .count args
  .ok (.int (← itemsOrNil .count v).length)

/-- The list with one more element in front. -/
def cons (args : List Value) : Answer Value := do
  let (head, tail) ← two .cons args
  .ok (.list none (head :: (← itemsOrNil .cons tail)))

/-- The list of the elements of all sequences. -/
def concat (args : List Value) : Answer Value := do
  let parts ← args.mapM (itemsOrNil .concat)
  .ok (.list none parts.flatten)

/-- The first element, or `nil`. -/
def first (args : List Value) : Answer Value := do
  let v ← one .first args
  .ok ((← itemsOrNil .first v).headD .nil)

/-- The list of all elements but the first. -/
def rest (args : List Value) : Answer Value := do
  let v ← one .rest args
  .ok (.list none (← itemsOrNil .rest v).tail)

/-- The element at an index, counted from zero.  An index outside the sequence throws. -/
def nth (args : List Value) : Answer Value := do
  let (v, index) ← two .nth args
  let vs ← items .nth v
  match index with
  | .int n =>
    match (if n < 0 then none else vs[n.toNat]?) with
    | some elem => .ok elem
    | none => .error (.thrown (.str ("nth: index " ++ Int.repr n ++ " out of range")))
  | _ => unwanted .nth .index index

/-- Adds elements where a collection grows: in front of a list, one after the other, or behind a
vector. -/
def conj : List Value → Answer Value
  | [] => refuse (.arity (.lacking .conj))
  | collection :: elems =>
    match collection.bare with
    | .vec vs => .ok (.vec (vs ++ elems))
    | .list _ vs => .ok (.list none (elems.reverse ++ vs))
    | v => unwanted .conj .sequence v

/-- The list of the elements of a sequence or of the characters of a string; `nil` if there are
none. -/
def seq (args : List Value) : Answer Value := do
  let v := (← one .seq args).bare
  let vs ← match v with
    | .nil => .ok []
    | .str s => .ok (s.toList.map fun c ↦ .str (String.singleton c))
    | _ => items .seq v
  .ok (if vs.isEmpty then .nil else .list none vs)

end Lisplet.Builtin.Sequence
