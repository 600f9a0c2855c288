/-!
# Brackets and marks

The special tokens of the reader.  A *bracket* comes in two halves and encloses any number of forms.
A *mark* stands before a form and abbreviates a list: `'x` is `(quote x)`.  The caret is a mark that
takes two forms, the metadata and then its subject: `^m x` is `(with-meta x m)`.
-/

set_option autoImplicit false

namespace Lisplet

/-- A pair of brackets. -/
inductive Bracket
  | round
  | square
  | curly
  deriving DecidableEq, Repr, Inhabited

namespace Bracket

/-- The left half. -/
def opener : Bracket → String
  | round => "("
  | square => "["
  | curly => "\x7b"

/-- The right half. -/
def closer : Bracket → String
  | round => ")"
  | square => "]"
  | curly => "\x7d"

/-- All brackets. -/
def all : List Bracket := [round, square, curly]

/-- The bracket that a text opens. -/
def ofOpener? (s : String) : Option Bracket := all.find? fun b ↦ b.opener == s

/-- The bracket that a text closes. -/
def ofCloser? (s : String) : Option Bracket := all.find? fun b ↦ b.closer == s

end Bracket

/-- A mark that takes one form. -/
inductive Mark
  | quote
  | quasiquote
  | unquote
  | spliceUnquote
  | deref
  deriving DecidableEq, Repr, Inhabited

namespace Mark

/-- The token of a mark. -/
def token : Mark → String
  | quote => "'"
  | quasiquote => "`"
  | unquote => "~"
  | spliceUnquote => "~@"
  | deref => "@"

/-- The symbol at the head of the list that a mark abbreviates. -/
def head : Mark → String
  | quote => "quote"
  | quasiquote => "quasiquote"
  | unquote => "unquote"
  | spliceUnquote => "splice-unquote"
  | deref => "deref"

/-- All marks. -/
def all : List Mark := [quote, quasiquote, unquote, spliceUnquote, deref]

/-- The mark of a token. -/
def ofToken? (s : String) : Option Mark := all.find? fun m ↦ m.token == s

end Mark

/-- The token of the mark that takes metadata and then its subject. -/
def metadataMark : String := "^"

end Lisplet
