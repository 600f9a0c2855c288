import Lisplet.Session
import Lisplet.Text.Lines

/-!
# The read-eval-print loop and scripts

The loop takes a line at a time and answers it: with the value in print, with a message, or, if the
line holds no form, with nothing.  A script is loaded from a file; its only answer is whether it
succeeded.

What a line prints while it is evaluated comes before its answer.  A trouble that has no wording
ends the run without an answer.
-/

set_option autoImplicit false

namespace Lisplet.Repl

variable (w : World)

/-- What stands in front of each line. -/
def prompt : String := "user> "

/-- A message as it is shown. -/
def errorLine (message : String) : String := "Error: " ++ message ++ "\n"

/-- How a session went that took one source text. -/
abbrev Result (α : Type) := EStateM.Result Trouble Store α

/-- The wording of a trouble, or the trouble itself if it has none. -/
def worded (t : Trouble) (s : Store) : Except Trouble String :=
  match t.message w s with
  | some message => .ok message
  | none => .error t

/-- What a line shows by the result it came to: what was printed and then the answer, if that can be
worded. -/
def reply : Result String → Except Trouble String
  | .ok text s => .ok (s.output ++ text ++ "\n")
  | .error (.unreadable .emptyInput) s => .ok s.output
  | .error t s => (worded w t s).map fun message ↦ s.output ++ errorLine message

/-- The store that a session leaves. -/
def storeAfter {α : Type} : Result α → Store
  | .ok _ s | .error _ s => s

/-- Takes a line, with nothing printed yet. -/
def takeLine (line : String) (s : Store) : Result String :=
  Session.rep w line { s with output := "" }

/-- All that the loop shows for some lines and the end of the input behind them. -/
def transcript : List String → Store → Except Trouble String
  | [], _ => .ok (prompt ++ "\n")
  | line :: rest, s => do
    let result := takeLine w line s
    let shown ← reply w result
    let later ← transcript rest (storeAfter result)
    .ok (prompt ++ shown ++ later)

/-- How a run of the program ends. -/
structure Exit where
  code : Nat
  stdout : String
  stderr : String
  deriving DecidableEq, Repr, Inhabited

/-- The source text that loads a script. -/
def scriptText (path : String) : String := "(load-file " ++ Text.quote path ++ ")"

/-- How a run ends by the result that its script came to. -/
def scriptExit : Result Value → Except Trouble Exit
  | .ok _ s => .ok ⟨0, s.output, ""⟩
  | .error t s => (worded w t s).map fun message ↦ ⟨1, s.output, errorLine message⟩

/-- Starts the session of a run: the prelude, and the name that lists the script's arguments. -/
def start (source : PreludeSource) (args : List String) : Session Unit := do
  Session.start w source
  modify fun s ↦ s.define Session.topLevel "*ARGV*" (.list none (args.tail.map .str))

/-- **A whole run**: a script if there are arguments, and the loop over the input if there are
none.  Only the prelude can keep it from starting.  A run that has started ends properly, or with a
trouble that has no wording. -/
def run (source : PreludeSource) (args : List String) (input : String) :
    Except (Trouble × Store) (Except Trouble Exit) :=
  match start w source args {} with
  | .error t s => .error (t, s)
  | .ok () s =>
    .ok (match args with
      | path :: _ => scriptExit w (Session.eval w (scriptText path) s)
      | [] => (transcript w (Text.lines input) s).map fun text ↦ ⟨0, s.output ++ text, ""⟩)

end Lisplet.Repl
