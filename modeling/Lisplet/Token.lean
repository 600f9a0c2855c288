/-!
# Tokens

What the scanner makes of source text and the reader takes.  A token is a kind and a text; the text
of a `string` is the string that its literal stands for, the text of an `error` is the complaint,
and every other text is as it stands in the source.
-/

set_option autoImplicit false

namespace Lisplet

/-- What sort of thing a token is.  The scanner makes the first five sorts; no rule reads the
sixth. -/
inductive TokenKind
  | special
  | string
  | keyword
  | atom
  | error
  | other (name : String)
  deriving DecidableEq, Repr, Inhabited

namespace TokenKind

/-- The name of a kind. -/
def name : TokenKind → String
  | special => "special"
  | string => "string"
  | keyword => "keyword"
  | atom => "atom"
  | error => "error"
  | other name => name

/-- The kind of a name. -/
def ofName (s : String) : TokenKind :=
  ([special, string, keyword, atom, error].find? fun k ↦ k.name == s).getD (other s)

end TokenKind

/-- A token of source text. -/
structure Token where
  kind : TokenKind
  text : String
  deriving DecidableEq, Repr, Inhabited

end Lisplet
