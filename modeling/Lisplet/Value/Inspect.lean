import Lisplet.Text.Blank
import Lisplet.Text.Inspect
import Lisplet.Value

/-!
# Values inside diagnostics

Some messages are about the make of a form rather than about its meaning, and show a value by its
constructors: `Symbol('a')`, `Vector([1, 2])`, `WithMeta([], meta=nil)`.  At the top of such a
message a string, a symbol or a keyword is written plainly (`describe`); inside a collection it is
written by its constructor too (`inspect`).

As in printing, each level of nesting uses one unit of room.  An atom may bring a value back inside
itself.  A list or a map that is met again inside itself is only hinted at, by `[...]` or
`{...}`; a vector is not, so a ring of atoms and vectors alone fits into no room.

Meeting again is a matter of labels, not of equality: a fresh copy of a list is shown in full even
inside the list that it is a copy of.
-/

set_option autoImplicit false

namespace Lisplet

/-- A parameter list as a diagnostic shows it. -/
def Params.describe (p : Params) : String :=
  let formals := " ".intercalate p.formals
  match p.rest with
  | none => formals
  | some rest => Text.trim (formals ++ " & " ++ rest)

/-- A key by its constructor. -/
def Key.inspect : Key → String
  | .str s => Text.inspect s
  | .kw name => "Keyword(" ++ Text.inspect name ++ ")"

namespace Value

/-- Texts between brackets, with a comma and a space from each to the next. -/
def enumerated (opener : String) (texts : List String) (closer : String) : String :=
  opener ++ ", ".intercalate texts ++ closer

/-- A value by its constructors, if it fits into the room, inside the lists and maps that have the
labels `around`. -/
def inspectWithin (heap : Heap) : (room : Nat) → (around : List Label) → Value → Option String
  | 0, _, _ => none
  | room + 1, around, v =>
    match v with
    | nil => some "nil"
    | bool b => some (if b then "True" else "False")
    | int n => some (Int.repr n)
    | str s => some (Text.inspect s)
    | sym name => some ("Symbol(" ++ Text.inspect name ++ ")")
    | kw name => some (Key.kw name).inspect
    | list label items =>
      if label.any around.contains then some "[...]"
      else
        (items.mapM (inspectWithin heap room (label.toList ++ around))).map (enumerated "[" · "]")
    | vec items =>
      (items.mapM (inspectWithin heap room around)).map (enumerated "Vector([" · "])")
    | map label entries =>
      if label.any around.contains then some "\x7b...\x7d"
      else
        (entries.entries.mapM fun e ↦
            (inspectWithin heap room (label.toList ++ around) e.2).map fun t ↦
              e.1.inspect ++ ": " ++ t).map
          (enumerated "\x7b" · "\x7d")
    | fn closure =>
      some ("<Lambda " ++ (if closure.isMacro then "macro" else "fn*") ++ " (" ++
        closure.params.describe ++ ")>")
    | builtin _ op => some ("Builtin(" ++ Text.inspect op.name ++ ")")
    | atom a =>
      (inspectWithin heap room around (heap.content a)).map fun t ↦ "Atom(" ++ t ++ ")"
    | withMeta v d => do
      let value ← inspectWithin heap room around v
      let data ← inspectWithin heap room around d
      some ("WithMeta(" ++ value ++ ", meta=" ++ data ++ ")")

/-- A value by its constructors, if it fits into the room. -/
def inspect (heap : Heap) (room : Nat) (v : Value) : Option String :=
  inspectWithin heap room [] v

/-- A value at the top of a diagnostic: text and names plainly, the rest by its constructors. -/
def describe (heap : Heap) (room : Nat) : Value → Option String
  | str s => some s
  | sym name => some name
  | kw name => some (":" ++ name)
  | v => inspect heap room v

end Value

end Lisplet
