import Lisplet.Builtin.Arguments

/-!
# Kinds of value, and metadata

Each kind has a test; all but that for atoms look under metadata.  Metadata goes onto a collection
or a function, and replaces what metadata it had.
-/

set_option autoImplicit false

namespace Lisplet.Builtin.Kind

/-- Whether the only argument, under its metadata, passes a test. -/
def test (op : Builtin) (holds : Value → Bool) (args : List Value) : Answer Value := do
  let v ← one op args
  .ok (.bool (holds v.bare))

/-- The value `nil`. -/
def isNil : Value → Bool
  | .nil => true
  | _ => false

/-- One of the two truth values. -/
def isBool (b : Bool) : Value → Bool
  | .bool b' => b == b'
  | _ => false

/-- A symbol. -/
def isSymbol : Value → Bool
  | .sym _ => true
  | _ => false

/-- A keyword. -/
def isKeyword : Value → Bool
  | .kw _ => true
  | _ => false

/-- A string. -/
def isString : Value → Bool
  | .str _ => true
  | _ => false

/-- An integer. -/
def isNumber : Value → Bool
  | .int _ => true
  | _ => false

/-- A list. -/
def isList : Value → Bool
  | .list _ _ => true
  | _ => false

/-- A vector. -/
def isVector : Value → Bool
  | .vec _ => true
  | _ => false

/-- A list or a vector. -/
def isSequential (v : Value) : Bool := v.items?.isSome

/-- A map. -/
def isMap : Value → Bool
  | .map _ _ => true
  | _ => false

/-- A function that is no macro. -/
def isFn : Value → Bool
  | .fn c => !c.isMacro
  | .builtin _ _ => true
  | _ => false

/-- A macro. -/
def isMacro : Value → Bool
  | .fn c => c.isMacro
  | _ => false

/-- Whether the argument itself is an atom. -/
def isAtom (args : List Value) : Answer Value := do
  match ← one .isAtom args with
  | .atom _ => .ok (.bool true)
  | _ => .ok (.bool false)

/-- The metadata of a value, or `nil`. -/
def metadata (args : List Value) : Answer Value := do
  match ← one .metadata args with
  | .withMeta _ data => .ok data
  | _ => .ok .nil

/-- Whether a value without metadata can take some. -/
def takesMetadata : Value → Bool
  | .list _ _ | .vec _ | .map _ _ | .fn _ | .builtin _ _ => true
  | _ => false

/-- A collection or a function with metadata. -/
def withMeta (args : List Value) : Answer Value := do
  let (v, data) ← two .withMeta args
  if takesMetadata v.bare then .ok (.withMeta v.bare data)
  else unwanted .withMeta .subject v.bare

end Lisplet.Builtin.Kind
