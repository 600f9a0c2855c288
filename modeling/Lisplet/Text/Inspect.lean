import Lisplet.Text.Printable

/-!
# Text inside diagnostics

An error message shows a text between single quotes, or between double quotes when it holds a single
quote and no double one.  A backslash stands before a backslash and before the quote in use; line
feed, carriage return and tab have their short escapes; any other character that is not printable is
shown by the hexadecimal digits of its code point, two, four or eight of them as it needs.
-/

set_option autoImplicit false

namespace Lisplet.Text

/-- The lower-case hexadecimal digits of a number, with zeros in front up to the given width. -/
def hexDigits (width n : Nat) : List Char :=
  let digits := Nat.toDigits 16 n
  List.replicate (width - digits.length) '0' ++ digits

/-- The quote that a text is shown in: double when that saves escapes, else single. -/
def inspectQuote (cs : List Char) : Char :=
  if cs.contains '\x27' && !cs.contains '\x22' then '\x22' else '\x27'

/-- A character as it is shown between the given quotes. -/
def inspectChar (q c : Char) : List Char :=
  if c = '\x5c' || c = q then ['\x5c', c]
  else if c = '\n' then ['\x5c', 'n']
  else if c = '\r' then ['\x5c', 'r']
  else if c = '\t' then ['\x5c', 't']
  else if isPrintable c then [c]
  else if c.toNat < 0x100 then '\x5c' :: 'x' :: hexDigits 2 c.toNat
  else if c.toNat < 0x10000 then '\x5c' :: 'u' :: hexDigits 4 c.toNat
  else '\x5c' :: 'U' :: hexDigits 8 c.toNat

/-- A text as a diagnostic shows it. -/
def inspect (s : String) : String :=
  let cs := s.toList
  let q := inspectQuote cs
  String.ofList (q :: (cs.flatMap (inspectChar q) ++ [q]))

end Lisplet.Text
