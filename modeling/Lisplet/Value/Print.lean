import Lisplet.Text.Quoted
import Lisplet.Value

/-!
# Printing

There are two ways to print a value.  The *readable* one quotes strings, so that reading the text
gives the value back; the *display* one writes strings as they are.  Everything else prints alike:
an atom as the form that would make it, a value under metadata as the value alone, and a function as
a tag that nothing reads.

An atom may reach itself, so printing takes the room it has: each level of nesting uses one unit,
and a value that does not fit has no text.
-/

set_option autoImplicit false

namespace Lisplet

/-- Whether strings print quoted or as they are. -/
inductive PrintStyle
  | readable
  | display
  deriving DecidableEq, Repr, Inhabited

/-- A string in a style. -/
def PrintStyle.text : PrintStyle → String → String
  | readable, s => Text.quote s
  | display, s => s

/-- A key in a style. -/
def PrintStyle.key (style : PrintStyle) : Key → String
  | .str s => style.text s
  | .kw name => ":" ++ name

namespace Value

/-- Texts between brackets, with a space from each to the next. -/
def bracketed (opener : String) (texts : List String) (closer : String) : String :=
  opener ++ " ".intercalate texts ++ closer

/-- **The printed form of a value**, if it fits into the room: each level of nesting takes one
unit. -/
def print (heap : Heap) (style : PrintStyle) : (room : Nat) → Value → Option String
  | 0, _ => none
  | room + 1, v =>
    match v with
    | nil => some "nil"
    | bool b => some (if b then "true" else "false")
    | int n => some (Int.repr n)
    | str s => some (style.text s)
    | sym name => some name
    | kw name => some (":" ++ name)
    | list _ items => (items.mapM (print heap style room)).map (bracketed "(" · ")")
    | vec items => (items.mapM (print heap style room)).map (bracketed "[" · "]")
    | map _ entries =>
      (entries.entries.mapM fun e ↦
          (print heap style room e.2).map fun t ↦ [style.key e.1, t]).map
        fun pairs ↦ bracketed "\x7b" pairs.flatten "\x7d"
    | fn closure => some (if closure.isMacro then "#<macro>" else "#<function>")
    | builtin _ op => some ("#<builtin " ++ op.name ++ ">")
    | atom a => (print heap style room (heap.content a)).map fun t ↦ "(atom " ++ t ++ ")"
    | withMeta v _ => print heap style room v

/-- The printed forms of some values, with a separator from each to the next. -/
def printAll (heap : Heap) (style : PrintStyle) (room : Nat) (sep : String)
    (vs : List Value) : Option String :=
  (vs.mapM (print heap style room)).map sep.intercalate

end Value

end Lisplet
