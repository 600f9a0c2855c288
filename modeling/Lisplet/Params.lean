import Lisplet.Error

/-!
# Parameters and arguments

A parameter list is a list or a vector of symbols.  The symbol `&` may stand in it once, in the last
place but one; the symbol behind it then takes the list of all arguments that are left over.

Binding pairs each fixed name with its argument and the rest name with the list of what is left.  A
frame made from these pairs keeps the last value of a repeated name, so the rest name wins over a
fixed name that is spelled like it.
-/

set_option autoImplicit false

namespace Lisplet.Params

/-- The symbol in front of the rest name. -/
def restMarker : String := "&"

/-- Splits names into fixed ones and perhaps a rest name. -/
def ofNames (names : List String) : Except EvalError Params :=
  if !names.contains restMarker then .ok ⟨names, none⟩
  else
    match names.reverse with
    | rest :: marker :: formals =>
      if marker = restMarker && !(rest :: formals).contains restMarker then
        .ok ⟨formals.reverse, some rest⟩
      else .error .restMarker
    | _ => .error .restMarker

/-- The name of a parameter. -/
def nameOf : Value → Except EvalError String
  | .sym name => .ok name
  | v => .error (.type (.parameterName v))

/-- The parameters that a form writes. -/
def ofForm (form : Value) : Except EvalError Params :=
  match form.items? with
  | none => .error (.type (.parameterList form.bare))
  | some items => do ofNames (← items.mapM nameOf)

/-- Whether a number of arguments fits. -/
def Accepts (p : Params) (n : Nat) : Prop :=
  p.formals.length ≤ n ∧ (p.rest.isNone → n ≤ p.formals.length)

instance (p : Params) (n : Nat) : Decidable (p.Accepts n) :=
  inferInstanceAs (Decidable (_ ∧ (_ → _)))

/-- Pairs names with arguments; the list of what is left has the given label. -/
def bind (p : Params) (label : Option Label) (args : List Value) :
    Except EvalError (List (String × Value)) :=
  if p.Accepts args.length then
    .ok (p.formals.zip args ++
      (p.rest.map fun name ↦ (name, Value.list label (args.drop p.formals.length))).toList)
  else .error (.arity (.call p args.length))

end Lisplet.Params
