import Lisplet.Reader.Read
import Lisplet.Token.Stream

/-!
# Reading by recursive descent

A second reader, which has no stack of its own: a mark reads the form behind it by reading a form,
and a bracket reads the forms inside it one after the other.  It takes its tokens from a stream and
looks one token ahead, inside a bracket at that: there a closing bracket ends the forms, and the end
of the tokens is a complaint about the bracket.

Each mark and each bracket is one level of nesting, and no form is nested deeper than the given
number of levels.
-/

set_option autoImplicit false

namespace Lisplet.Reader

open Token (Stream)

/-- Computations that take tokens from a stream and may fail. -/
abbrev Descent := EStateM ReadFault Stream

namespace Descent

/-- The next token, which stays in the stream. -/
def look : Descent (Option Token) := modifyGet Stream.peek

/-- Takes the next token. -/
def take : Descent Unit := modifyGet fun s ↦ ((), s.take.2)

/-- Complains. -/
def complain {α : Type} (e : ReadError) : Descent α := throw (.error e)

/-- A result, or the fault that stands for it. -/
def accept {α : Type} : Except ReadFault α → Descent α
  | .ok a => pure a
  | .error f => throw f

/-- Reads one level further down, if there is one. -/
def nest (below : Option (Descent Value)) (read : Descent Value → Descent Value) :
    Descent Value :=
  match below with
  | some form => read form
  | none => throw .tooDeep

/-- Reads the form behind a mark. -/
def marked (m : Mark) (form : Descent Value) : Descent Value := do
  return .list none [.sym m.head, ← form]

/-- Reads the metadata behind a caret, and then the subject. -/
def annotated (form : Descent Value) : Descent Value := do
  let data ← form
  return .list none [.sym "with-meta", ← form, data]

/-- The bracket that a token closes. -/
def closed? (t : Token) : Option Bracket :=
  match t.kind with
  | .special => Bracket.ofCloser? t.text
  | _ => none

/-- Reads forms up to the end of a bracket and takes the token that closes it; the forms so far are
given with the latest first.  There are no more than `most` of them. -/
def items (b : Bracket) (form : Descent Value) : (most : Nat) → List Value → Descent (List Value)
  | 0, _ => throw .tooDeep
  | most + 1, done => do
    match ← look with
    | none => complain (.unexpectedEnd (some b))
    | some t =>
      match closed? t with
      | some closed =>
        take
        if closed = b then return done.reverse else complain (.unmatched closed)
      | none => items b form most ((← form) :: done)

/-- Reads the forms inside a bracket and makes the collection of them.  A form takes a token, so
there are no more forms than tokens. -/
def group (b : Bracket) (form : Descent Value) : Descent Value := do
  let most := (← get).tokens.length + 1
  accept ((close b (← items b form most [])).mapError .error)

/-- Reads the form that a special token starts. -/
def special (below : Option (Descent Value)) (t : Token) : Descent Value :=
  if t.text = metadataMark then nest below annotated
  else
    match Mark.ofToken? t.text with
    | some m => nest below (marked m)
    | none =>
      match Bracket.ofOpener? t.text, Bracket.ofCloser? t.text with
      | some b, _ => nest below (group b)
      | none, some b => complain (.unmatched b)
      | none, none => complain (.unknownToken t)

/-- Reads the form that a token is or starts. -/
def start (below : Option (Descent Value)) (t : Token) : Descent Value :=
  match t.kind with
  | .special => special below t
  | .string => return .str t.text
  | .keyword => return .keyword t.text
  | .atom => accept (ofWord t.text)
  | .error => complain (.lexical t.text)
  | .other _ => complain (.unknownToken t)

/-- Reads a form, given how to read the forms in it. -/
def formOver (below : Option (Descent Value)) : Descent Value := do
  match ← look with
  | none => complain (.unexpectedEnd none)
  | some t =>
    take
    start below t

/-- **Reads one form**, nested no deeper than the given number of levels. -/
def form : (room : Nat) → Descent Value
  | 0 => formOver none
  | room + 1 => formOver (some (form room))

end Descent

end Lisplet.Reader
