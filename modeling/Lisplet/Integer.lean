/-!
# Integers of the language

The integers are the 64-bit signed ones, kept as `Int` with a range check (`InRange`) wherever one
is made: by arithmetic and by reading a numeral.  A numeral is an optional sign and one or more
ASCII digits, with any number of leading zeros; whether its value is in range is a separate
question, so that an oversized numeral is an error and not a name.

The digits of a numeral are counted before its value is worked out (`literal?`).  If too many of
them stand behind the leading zeros, the value is out of range and is not wanted.  Of the others,
those that are too long with all their leading zeros cannot be converted at all, whatever their
value is.
-/

set_option autoImplicit false

namespace Lisplet.Integer

/-- The least integer, minus the 63rd power of two. -/
def least : Int := -9223372036854775808

/-- The greatest integer, one less than the 63rd power of two. -/
def greatest : Int := 9223372036854775807

/-- An integer that the language has. -/
def InRange (n : Int) : Prop := least ≤ n ∧ n ≤ greatest

instance (n : Int) : Decidable (InRange n) := inferInstanceAs (Decidable (_ ∧ _))

/-- A non-empty run of ASCII digits. -/
def isDigits (cs : List Char) : Bool := !cs.isEmpty && cs.all Char.isDigit

/-- Whether a text is a numeral: digits, with a sign or without. -/
def isNumeral (s : String) : Bool :=
  match s.toList with
  | '+' :: cs => isDigits cs
  | '-' :: cs => isDigits cs
  | cs => isDigits cs

/-- The natural number that a non-empty run of ASCII digits writes. -/
def digits? (cs : List Char) : Option Nat :=
  if isDigits cs then some (Nat.ofDigitChars 10 cs 0) else none

/-- The number that a numeral writes, in range or not; nothing for any other text. -/
def numeral? (s : String) : Option Int :=
  match s.toList with
  | '+' :: cs => (digits? cs).map Int.ofNat
  | '-' :: cs => (digits? cs).map fun n ↦ -Int.ofNat n
  | cs => (digits? cs).map Int.ofNat

/-- A sign in front of digits. -/
def isSign (c : Char) : Bool := c == '+' || c == '-'

/-- The digits of a numeral: what is left of it without signs. -/
def unsigned (s : String) : List Char := s.toList.dropWhile isSign

/-- The digits of a numeral that count: those behind the leading zeros. -/
def significant (s : String) : List Char := (unsigned s).dropWhile (· == '0')

/-- How many digits may count in a numeral whose value is in range. -/
def maxDigits : Nat := 19

/-- How many digits, leading zeros among them, a numeral may have that is converted. -/
def maxConverted : Nat := 4300

/-- What becomes of a numeral. -/
inductive Literal
  /-- It writes an integer in range. -/
  | value (n : Int)
  /-- It writes an integer that is out of range. -/
  | outOfRange
  /-- It has so many digits that it is not converted. -/
  | unconverted (digits : Nat)
  deriving DecidableEq, Repr, Inhabited

/-- What becomes of a numeral by the range of what it writes. -/
def Literal.ofInt (n : Int) : Literal := if InRange n then value n else outOfRange

/-- What becomes of a text that is a numeral; nothing for any other text. -/
def literal? (s : String) : Option Literal :=
  if !isNumeral s then none
  else if maxDigits < (significant s).length then some .outOfRange
  else if maxConverted < (unsigned s).length then some (.unconverted (unsigned s).length)
  else (numeral? s).map .ofInt

/-- The quotient, cut off toward zero: that of the absolute values, with the sign put back. -/
def quotient (a b : Int) : Int :=
  let q := Int.ofNat (a.natAbs / b.natAbs)
  if decide (a < 0) = decide (b < 0) then q else -q

end Lisplet.Integer
