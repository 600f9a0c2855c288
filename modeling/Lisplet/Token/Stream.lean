import Lisplet.Token

/-!
# Streams of tokens

Tokens are taken from a stream one at a time, in order.  Before it is taken, the next token can be
looked at; it then waits in the stream until it is taken.  What has been looked at and what has not
are told apart, because tokens come from a source that cannot give one twice: a stream that waits
with nothing (`ahead = none`) has asked its source for no token behind the last one taken.

Looking changes nothing about the tokens that are still to come (`tokens_peek`).
-/

set_option autoImplicit false

namespace Lisplet.Token

/-- Tokens to be taken one at a time. -/
structure Stream where
  /-- The token that has been looked at and not taken. -/
  ahead : Option Token := none
  /-- The tokens that have not been looked at. -/
  unseen : List Token
  deriving DecidableEq, Repr, Inhabited

namespace Stream

/-- The tokens that are still to come. -/
def tokens (s : Stream) : List Token := s.ahead.toList ++ s.unseen

/-- Looks at the next token, if there is one. -/
def peek (s : Stream) : Option Token × Stream :=
  match s.ahead, s.unseen with
  | some t, _ => (some t, s)
  | none, [] => (none, s)
  | none, t :: ts => (some t, ⟨some t, ts⟩)

/-- Takes the next token, if there is one. -/
def take (s : Stream) : Option Token × Stream :=
  match s.ahead with
  | some t => (some t, ⟨none, s.unseen⟩)
  | none => (s.unseen.head?, ⟨none, s.unseen.tail⟩)

/-- The stream with more tokens behind it. -/
def followedBy (s : Stream) (rest : List Token) : Stream := { s with unseen := s.unseen ++ rest }

@[simp] theorem tokens_none (ts : List Token) : tokens ⟨none, ts⟩ = ts := rfl

@[simp] theorem tokens_followedBy (s : Stream) (rest : List Token) :
    (s.followedBy rest).tokens = s.tokens ++ rest :=
  (List.append_assoc ..).symm

theorem peek_fst (s : Stream) : s.peek.1 = s.tokens.head? := by
  obtain ⟨_ | t, _ | ⟨u, us⟩⟩ := s <;> rfl

/-- **Looking at a token takes none.** -/
@[simp] theorem tokens_peek (s : Stream) : s.peek.2.tokens = s.tokens := by
  obtain ⟨_ | t, _ | ⟨u, us⟩⟩ := s <;> rfl

/-- What is taken is the first token, and what is left has not been looked at. -/
theorem take_eq (s : Stream) : s.take = (s.tokens.head?, ⟨none, s.tokens.tail⟩) := by
  obtain ⟨_ | t, us⟩ := s <;> rfl

/-- If there is nothing to look at, nothing waits. -/
theorem peek_of_tokens_eq_nil {s : Stream} (h : s.tokens = []) : s.peek = (none, ⟨none, []⟩) := by
  obtain ⟨_ | t, _ | ⟨u, us⟩⟩ := s <;> simp_all [tokens, peek]

end Stream

end Lisplet.Token
