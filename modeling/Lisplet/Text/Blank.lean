/-!
# Blanks

Two classes of characters.  A *space* is a character of Unicode white space, or one of the four
information separators U+001C to U+001F.  A *blank* is what may stand between two words of source
text: a space or a comma.  The comma counts as a blank because the language gives it no other use,
so that `[1, 2]` and `[1 2]` are one vector.

The set of spaces is strictly larger than that of `Char.isWhitespace`, which knows ASCII alone
(`isSpace_of_isWhitespace`).
-/

set_option autoImplicit false

namespace Lisplet.Text

/-- Unicode white space and the four information separators. -/
def isSpace (c : Char) : Bool :=
  let n := c.toNat
  (9 ≤ n && n ≤ 13) || (28 ≤ n && n ≤ 32) || n == 0x85 || n == 0xA0 || n == 0x1680 ||
    (0x2000 ≤ n && n ≤ 0x200A) || n == 0x2028 || n == 0x2029 || n == 0x202F || n == 0x205F ||
    n == 0x3000

/-- A character that separates words: a space or a comma. -/
def isBlank (c : Char) : Bool := isSpace c || c == ','

theorem isSpace_of_isWhitespace {c : Char} (h : c.isWhitespace = true) : isSpace c = true := by
  simp only [Char.isWhitespace, Bool.or_eq_true, decide_eq_true_eq] at h
  rcases h with ((rfl | rfl) | rfl) | rfl <;> decide

/-- The text without the spaces at its two ends. -/
def trim (s : String) : String :=
  String.ofList ((s.toList.dropWhile isSpace).reverse.dropWhile isSpace).reverse

end Lisplet.Text
