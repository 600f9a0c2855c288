import Lisplet.Reader.Delimiter
import Lisplet.Token
import Lisplet.Value.Inspect

/-!
# Why a text cannot be read

One constructor for each cause, and one function (`ReadError.message`) with the wording of all of
them.
-/

set_option autoImplicit false

namespace Lisplet

/-- The cause that makes a text unreadable. -/
inductive ReadError
  /-- There is no form at all. -/
  | emptyInput
  /-- The text stops inside a form: inside the given bracket, or where a mark wants its form. -/
  | unexpectedEnd (inside : Option Bracket)
  /-- A token follows the one form that was wanted. -/
  | trailing (text : String)
  /-- A closing bracket closes nothing, or not what is open. -/
  | unmatched (bracket : Bracket)
  /-- The scanner complained. -/
  | lexical (complaint : String)
  /-- A numeral writes a number that is out of range. -/
  | numeralRange (numeral : String)
  /-- The last key of a map has no value. -/
  | oddMap
  /-- A form stands where a map wants a key. -/
  | badKey (form : Value)
  /-- No rule reads the token. -/
  | unknownToken (token : Token)
  /-- The text is not a mark. -/
  | unknownMark (text : String)
  deriving Inhabited

namespace ReadError

/-- **The wording of every reading error.**  There is none only if the form it has to show does not
fit into the room. -/
def message (room : Nat) : ReadError → Option String
  | emptyInput => some "empty input"
  | unexpectedEnd none => some "unexpected end of input"
  | unexpectedEnd (some b) =>
    some ("expected " ++ Text.inspect b.closer ++ " before end of input")
  | trailing text => some ("unexpected " ++ Text.inspect text ++ " after a complete form")
  | unmatched b => some ("unmatched delimiter " ++ Text.inspect b.closer)
  | lexical complaint => some complaint
  | numeralRange numeral => some ("integer literal out of range: " ++ numeral)
  | oddMap => some "map literal needs an even number of forms"
  | badKey form =>
    (form.describe #[] room).map fun shown ↦ "map keys must be strings or keywords, got " ++ shown
  | unknownToken t => some ("Unknown token: " ++ t.kind.name ++ " " ++ t.text)
  | unknownMark text => some ("No reader macro defined for " ++ Text.inspect text)

end ReadError

/-- How reading can end without a form.  Only an error is a complaint about the text. -/
inductive ReadFault
  /-- The text is unreadable. -/
  | error (e : ReadError)
  /-- The text is nested beyond the limit. -/
  | tooDeep
  /-- A numeral has so many digits that it is not converted. -/
  | unconverted (digits : Nat)
  deriving Inhabited

end Lisplet
