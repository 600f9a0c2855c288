import Lisplet.Text.Blank
import Lisplet.Text.Quoted
import Lisplet.Token

/-!
# Scanning

Source text is scanned from left to right, one character at a time, by a machine with five modes
(`Mode`): between tokens, inside a comment, just after a tilde, inside a word, inside a string.  A
character moves the machine to its next mode and may complete tokens on the way; the end of the text
completes whatever is open.  Since scanning is a fold over the characters, the tokens of a long text
are those of its front followed by those that the machine makes of the rest from the mode it is in.

The scanner never fails: a string that is not closed, or that has an escape of no meaning, becomes
an `error` token, and scanning goes on behind it.
-/

set_option autoImplicit false

namespace Lisplet.Token

/-- The characters that are tokens by themselves, save the tilde, which may take an at sign. -/
def isMark (c : Char) : Bool :=
  ['[', ']', '\x7b', '\x7d', '(', ')', '\x27', '\x60', '^', '@'].contains c

/-- The characters that words are made of: no blank, no mark, no tilde, and nothing that starts a
string or a comment. -/
def isWordChar (c : Char) : Bool :=
  !(Text.isBlank c || isMark c || c == '~' || c == Text.quoteMark || c == ';')

/-- A token that stands for itself. -/
def ofMark (text : String) : Token := ⟨.special, text⟩

/-- The token of a word: a keyword if it starts with a colon. -/
def ofWord (text : String) : Token :=
  ⟨if text.toList.head? = some ':' then .keyword else .atom, text⟩

/-- The token of a closed string literal. -/
def ofLiteral (l : Text.Literal) : Token :=
  match l.value? with
  | some s => ⟨.string, s⟩
  | none => ⟨.error, "invalid escape sequence in " ++ l.source⟩

/-- What the scanner is inside of. -/
inductive Mode
  /-- Between tokens. -/
  | idle
  /-- In a comment, which lasts until the end of the line. -/
  | comment
  /-- Behind a tilde, which an at sign may still join. -/
  | tilde
  /-- In a word, whose characters so far are in reverse. -/
  | word (letters : List Char)
  /-- In a string literal. -/
  | text (literal : Text.Literal)
  deriving Repr, Inhabited

/-- The mode that a character starts from between tokens, and the token it may be. -/
def Mode.enter (c : Char) : Mode × List Token :=
  if Text.isBlank c then (idle, [])
  else if c = ';' then (comment, [])
  else if c = '~' then (tilde, [])
  else if c = Text.quoteMark then (text {}, [])
  else if isMark c then (idle, [ofMark (String.singleton c)])
  else (word [c], [])

/-- The mode after one more character, and the tokens that the character completes. -/
def Mode.feed : Mode → Char → Mode × List Token
  | idle, c => enter c
  | comment, c => (if c = '\n' then idle else comment, [])
  | tilde, c =>
    if c = '@' then (idle, [ofMark "~@"])
    else
      let (next, tokens) := enter c
      (next, ofMark "~" :: tokens)
  | word letters, c =>
    if isWordChar c then (word (c :: letters), [])
    else
      let (next, tokens) := enter c
      (next, ofWord (String.ofList letters.reverse) :: tokens)
  | text literal, c =>
    if c = Text.quoteMark && !literal.escaping then (idle, [ofLiteral literal])
    else (text (literal.push c), [])

/-- The tokens that the end of the text completes.  A backslash at the very end escapes nothing: it
is left behind the unclosed string as a word of its own. -/
def Mode.finish : Mode → List Token
  | idle | comment => []
  | tilde => [ofMark "~"]
  | word letters => [ofWord (String.ofList letters.reverse)]
  | text literal =>
    ⟨.error, "unterminated string literal"⟩ ::
      if literal.escaping then [ofWord (String.singleton Text.backslash)] else []

/-- The scanner under way: the mode it is in and the tokens it has completed. -/
structure Scanner where
  mode : Mode := .idle
  done : Array Token := #[]

/-- Takes one more character. -/
def Scanner.push (s : Scanner) (c : Char) : Scanner :=
  let (next, tokens) := s.mode.feed c
  ⟨next, tokens.foldl Array.push s.done⟩

/-- All tokens, now that the text has ended. -/
def Scanner.tokens (s : Scanner) : List Token := s.done.toList ++ s.mode.finish

/-- **The tokens of a source text.** -/
def scan (source : String) : List Token :=
  (source.toList.foldl Scanner.push {}).tokens

/-! ## The machine as a function of the rest of the text -/

/-- The tokens that the rest of a text makes from a mode. -/
def Mode.scan : Mode → List Char → List Token
  | m, [] => m.finish
  | m, c :: cs => (m.feed c).2 ++ Mode.scan (m.feed c).1 cs

theorem tokens_foldl_push (s : Scanner) (cs : List Char) :
    (cs.foldl Scanner.push s).tokens = s.done.toList ++ s.mode.scan cs := by
  induction cs generalizing s with
  | nil => rfl
  | cons c cs ih =>
    rw [List.foldl_cons, ih, Mode.scan, ← List.append_assoc]
    congr 1
    simp [Scanner.push]

/-- **Scanning from the start is scanning from the idle mode.** -/
theorem scan_eq (source : String) : scan source = Mode.idle.scan source.toList := by
  rw [scan, tokens_foldl_push]
  simp

end Lisplet.Token
