/-!
# Quoted text

The written form of a string: between double quotes, with a backslash before a backslash and before
a double quote, and with a line feed written as a backslash and an `n`.  Every other character,
control characters included, stands for itself, so a quoted text never holds a line feed.

Reading goes one character at a time (`Literal.push`) because the scanner does; what has been read
so far is a `Literal`.  Reading undoes writing: pushing the escaped form of a character appends that
character (`Literal.foldl_push_escape`).
-/

set_option autoImplicit false

namespace Lisplet.Text

/-- The double quote that opens and closes a quoted text. -/
def quoteMark : Char := '\x22'

/-- The backslash that starts an escape. -/
def backslash : Char := '\x5c'

/-- The characters that stand for one character inside quotes. -/
def escape (c : Char) : List Char :=
  if c = backslash then [backslash, backslash]
  else if c = quoteMark then [backslash, quoteMark]
  else if c = '\n' then [backslash, 'n']
  else [c]

/-- The character that an escape stands for, by the character after the backslash. -/
def unescape? (c : Char) : Option Char :=
  if c = 'n' then some '\n' else if c = backslash || c = quoteMark then some c else none

/-- The written form of a string. -/
def quote (s : String) : String :=
  String.ofList (quoteMark :: (s.toList.flatMap escape ++ [quoteMark]))

/-- What has been read of a quoted text since its opening quote. -/
structure Literal where
  /-- The characters as written, in reverse. -/
  written : List Char := []
  /-- The characters they stand for, in reverse; absent after an escape that means nothing. -/
  meant : Option (List Char) := some []
  /-- Whether the last character is a backslash that waits for its partner. -/
  escaping : Bool := false
  deriving DecidableEq, Repr

namespace Literal

/-- Reads one more character, which is not the closing quote. -/
def push (l : Literal) (c : Char) : Literal :=
  if l.escaping then
    { written := c :: l.written
      meant := l.meant.bind fun cs ↦ (unescape? c).map (· :: cs)
      escaping := false }
  else if c = backslash then { l with written := c :: l.written, escaping := true }
  else { l with written := c :: l.written, meant := l.meant.map (c :: ·) }

/-- The string that the literal stands for, if every escape in it means something. -/
def value? (l : Literal) : Option String :=
  l.meant.map fun cs ↦ String.ofList cs.reverse

/-- The literal as it was written, quotes included. -/
def source (l : Literal) : String :=
  String.ofList (quoteMark :: (l.written.reverse ++ [quoteMark]))

/-- **Reading undoes escaping**, one character at a time. -/
theorem foldl_push_escape (l : Literal) (hl : l.escaping = false) (c : Char) :
    (escape c).foldl push l =
      { written := (escape c).reverse ++ l.written
        meant := l.meant.map (c :: ·)
        escaping := false } := by
  obtain ⟨written, meant, escaping⟩ := l
  obtain rfl : escaping = false := hl
  have hbn : backslash ≠ 'n' := by decide
  have hqn : quoteMark ≠ 'n' := by decide
  by_cases hb : c = backslash
  · subst hb
    cases meant <;> simp [escape, push, unescape?, hbn]
  by_cases hq : c = quoteMark
  · subst hq
    cases meant <;> simp [escape, push, unescape?, hqn, hb]
  by_cases hn : c = '\n'
  · subst hn
    cases meant <;> simp [escape, push, unescape?, hb, hq]
  · simp [escape, push, hb, hq, hn]

end Literal

end Lisplet.Text
