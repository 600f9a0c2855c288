import Lisplet.Integer
import Lisplet.Pairs
import Lisplet.Reader.Error
import Lisplet.Token.Scan

/-!
# Reading

The reader takes tokens one at a time and keeps a stack of what is unfinished (`Pending`): brackets
with the forms they hold so far, and marks that wait for their form.  A token either pushes
something unfinished, or makes a form, which goes to the top of the stack and may finish what waits
there, and so on downwards (`plug`).  When the stack is empty, the form is the one that was asked
for.

Reading this way decides as early as it can and never looks ahead: what it takes from the front of a
token list does not depend on what follows (`readFrom_append`), and whatever it ends in, the tokens
behind the last one it looked at are still there.  It may end without a form and without an error
too, at a numeral that is not converted.
-/

set_option autoImplicit false

namespace Lisplet.Reader

/-- Something that is waiting for forms. -/
inductive Pending
  /-- An open bracket and the forms in it so far, latest first. -/
  | group (bracket : Bracket) (items : List Value)
  /-- A mark that waits for its form. -/
  | mark (m : Mark)
  /-- A caret that waits for metadata. -/
  | metadata
  /-- A caret that has its metadata and waits for the subject. -/
  | subject (data : Value)
  deriving Inhabited

/-- How far reading has come. -/
inductive Progress
  /-- The form is complete. -/
  | finished (form : Value)
  /-- More tokens are wanted, innermost first. -/
  | waiting (stack : List Pending)
  deriving Inhabited

/-- What a special token that is a mark leaves waiting. -/
def Pending.ofMark? (text : String) : Option Pending :=
  if text = metadataMark then some .metadata else (Mark.ofToken? text).map .mark

/-- A form goes to what waits for it. -/
def plug : List Pending → Value → Progress
  | [], v => .finished v
  | .group b items :: rest, v => .waiting (.group b (v :: items) :: rest)
  | .mark m :: rest, v => plug rest (.list none [.sym m.head, v])
  | .metadata :: rest, v => .waiting (.subject v :: rest)
  | .subject data :: rest, v => plug rest (.list none [.sym "with-meta", v, data])

/-- The form of a word: a numeral, one of the three constants, or a symbol. -/
def ofWord (word : String) : Except ReadFault Value :=
  match Integer.literal? word with
  | some (.value n) => .ok (.int n)
  | some .outOfRange => .error (.error (.numeralRange word))
  | some (.unconverted digits) => .error (.unconverted digits)
  | none =>
    .ok (if word = "nil" then .nil
      else if word = "true" then .bool true
      else if word = "false" then .bool false
      else .sym word)

/-- The map of the forms between curly brackets. -/
def ofEntries (items : List Value) : Except ReadError Value :=
  match pairs? items with
  | none => .error .oddMap
  | some entries => do
    let keyed ← entries.mapM fun e ↦
      match e.1.key? with
      | some k => .ok (k, e.2)
      | none => .error (.badKey e.1)
    .ok (.map none (.ofList keyed))

/-- The collection of the forms between two brackets. -/
def close : Bracket → List Value → Except ReadError Value
  | .round, items => .ok (.list none items)
  | .square, items => .ok (.vec items)
  | .curly, items => ofEntries items

/-- A closing bracket meets what is unfinished. -/
def closeTop (b : Bracket) : List Pending → Except ReadError Progress
  | .group opened items :: rest =>
    if b = opened then (close b items.reverse).map (plug rest) else .error (.unmatched b)
  | _ => .error (.unmatched b)

/-- A special token meets what is unfinished. -/
def feedSpecial (stack : List Pending) (t : Token) : Except ReadError Progress :=
  match Pending.ofMark? t.text with
  | some p => .ok (.waiting (p :: stack))
  | none =>
    match Bracket.ofOpener? t.text, Bracket.ofCloser? t.text with
    | some b, _ => .ok (.waiting (.group b [] :: stack))
    | none, some b => closeTop b stack
    | none, none => .error (.unknownToken t)

/-- A token meets what is unfinished. -/
def feed (stack : List Pending) (t : Token) : Except ReadFault Progress :=
  match t.kind with
  | .special => (feedSpecial stack t).mapError .error
  | .string => .ok (plug stack (.str t.text))
  | .keyword => .ok (plug stack (.keyword t.text))
  | .atom => (ofWord t.text).map (plug stack)
  | .error => .error (.error (.lexical t.text))
  | .other _ => .error (.error (.unknownToken t))

/-- The complaint about tokens that end too early. -/
def unfinished : List Pending → ReadError
  | .group b _ :: _ => .unexpectedEnd (some b)
  | _ => .unexpectedEnd none

/-- Reads on until the form that the stack wants is complete, and gives back the tokens that were
not looked at.  No more than `limit` things may wait at once. -/
def readFrom (limit : Nat) (stack : List Pending) :
    List Token → Except ReadFault Value × List Token
  | [] => (.error (.error (unfinished stack)), [])
  | t :: ts =>
    match feed stack t with
    | .error f => (.error f, ts)
    | .ok (.finished v) => (.ok v, ts)
    | .ok (.waiting stack') =>
      if stack'.length ≤ limit then readFrom limit stack' ts else (.error .tooDeep, ts)

/-- Reads one form from the front of a token list. -/
def readForm (limit : Nat) (ts : List Token) : Except ReadFault Value × List Token :=
  readFrom limit [] ts

/-- Reads the form or forms that a mark takes, and gives the list that it abbreviates. -/
def readMarked (limit : Nat) (mark : String) (ts : List Token) :
    Except ReadFault Value × List Token :=
  match Pending.ofMark? mark with
  | some p => readFrom limit [p] ts
  | none => (.error (.error (.unknownMark mark)), ts)

/-- The complaint about a token behind the one form that was wanted. -/
def trailing (t : Token) : ReadError :=
  match t.kind, Bracket.ofCloser? t.text with
  | .special, some b => .unmatched b
  | .error, _ => .lexical t.text
  | _, _ => .trailing t.text

/-- The one form that a list of tokens makes. -/
def readAll (limit : Nat) (ts : List Token) : Except ReadFault Value :=
  if ts.isEmpty then .error (.error .emptyInput)
  else
    match readForm limit ts with
    | (.ok v, []) => .ok v
    | (.ok _, t :: _) => .error (.error (trailing t))
    | (.error f, _) => .error f

/-- **The one form that a source text holds.** -/
def read (limit : Nat) (source : String) : Except ReadFault Value :=
  readAll limit (Token.scan source)

/-! ## Reading looks at no token before it needs it -/

/-- **What reading takes from the front does not depend on what follows**, if it ends there in a
form or in an error other than the end of the tokens. -/
theorem readFrom_append {limit : Nat} {stack : List Pending} {ts rest left : List Token}
    {r : Except ReadFault Value} (h : readFrom limit stack ts = (r, left))
    (hr : ∀ b, r ≠ .error (.error (.unexpectedEnd b))) :
    readFrom limit stack (ts ++ rest) = (r, left ++ rest) := by
  induction ts generalizing stack with
  | nil =>
    rw [readFrom, Prod.mk.injEq] at h
    refine absurd h.1.symm ?_
    unfold unfinished
    split <;> exact hr _
  | cons t ts ih =>
    rw [List.cons_append]
    unfold readFrom at h ⊢
    split at h
    · simp only [Prod.mk.injEq] at h ⊢
      exact ⟨h.1, by rw [← h.2]⟩
    · simp only [Prod.mk.injEq] at h ⊢
      exact ⟨h.1, by rw [← h.2]⟩
    · split at h
      · rename_i hl
        simp only [hl, if_true]
        exact ih h
      · rename_i hl
        simp only [hl, if_false, Prod.mk.injEq] at h ⊢
        exact ⟨h.1, by rw [← h.2]⟩

/-- A single token that is a form is read in whatever room there is. -/
theorem read_of_scan {limit : Nat} {text : String} {t : Token} {v : Value}
    (hscan : Token.scan text = [t]) (h : feed [] t = .ok (.finished v)) :
    read limit text = .ok v := by
  rw [read, hscan, readAll, if_neg (by simp), readForm, readFrom, h]

end Lisplet.Reader
