import Lisplet.Eval.Engine

/-!
# Names in scopes

Looking a name up and binding names.  What is to be bound is given as a value, and only a symbol is
a name; to bind anything else is an error.
-/

set_option autoImplicit false

namespace Lisplet.Scope

variable (eng : Engine)

/-- The value of a name in a frame. -/
def lookup (f : FrameId) (name : String) : Eval Value := do
  match (← get).get? f name with
  | some v => return v
  | none => eng.fail (.unbound name)

/-- Binds a name in one frame. -/
def define (f : FrameId) (target v : Value) : Eval Unit := do
  match target with
  | .sym name => modify fun s ↦ s.define f name v
  | _ => eng.fail (.definedName target)

/-- Binds many names at once: each takes the last value given for it, in the place where it is given
first.  Whatever stands in front of a target that cannot be bound is bound. -/
def update (f : FrameId) (pairs : List (Value × Value)) : Eval Unit := do
  let symbolic (p : Value × Value) : Option (String × Value) :=
    match p.1 with
    | .sym name => some (name, p.2)
    | _ => none
  let last := Dict.ofList (pairs.filterMap symbolic)
  pairs.forM fun p ↦
    match p.1 with
    | .sym name => define eng f p.1 ((last.get? name).getD p.2)
    | target => define eng f target p.2

end Lisplet.Scope
