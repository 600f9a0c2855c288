import Lisplet.Eval.Run
import Lisplet.Prelude

/-!
# Sessions

A session is a store whose frame zero is the top level.  It takes source texts one at a time: each
holds one form, which is read, evaluated at the top level and perhaps printed.  Whatever goes wrong
with one text, the store is left as it was at that moment and the next text goes on from there.

A *program* holds any number of forms.  It is evaluated as a single one, a sequence that ends in
`nil`; the line feed before the end keeps a comment in the last line of the program from hiding
it.
-/

set_option autoImplicit false

namespace Lisplet

/-- What a session is run under. -/
structure World where
  disk : Disk
  /-- How deep evaluation, printing, comparing and reading may nest. -/
  depth : Nat := 3000
  /-- How many steps an evaluation may take. -/
  steps : Nat := 4000000000000000000

/-- What can go wrong with a source text. -/
inductive Trouble
  /-- It cannot be read. -/
  | unreadable (e : ReadError)
  /-- It is nested too deeply to be read. -/
  | readTooDeep
  /-- Its evaluation failed, or the program crashed before there was anything to evaluate. -/
  | failed (f : Failure)
  /-- Its value is nested too deeply to be printed. -/
  | printTooDeep
  /-- The system does not read the file of the prelude. -/
  | noPrelude (path : String) (fault : FileFault)
  deriving Inhabited

/-- The trouble with a source text that is not read. -/
def Trouble.ofReadFault : ReadFault → Trouble
  | .error e => unreadable e
  | .tooDeep => readTooDeep
  | .unconverted digits => failed (.crashed (.numeral digits))

/-- The wording of a trouble.  A text that is too deep to be read has none, nor has a thrown value
that is too deep to be printed, and nothing words a crash. -/
def Trouble.message (w : World) (s : Store) : Trouble → Option String
  | unreadable e => e.message w.depth
  | readTooDeep => none
  | failed (.error _ message) => some message
  | failed (.thrown payload) =>
    (payload.print s.atoms .readable w.depth).map fun t ↦ "uncaught exception: " ++ t
  | failed .overflow => some "stack overflow: recursion too deep"
  | failed (.crashed _) => none
  | failed .exhausted => some "evaluation took more steps than were granted"
  | failed (.unread path) => some ("nothing is known of the file " ++ Text.inspect path)
  | printTooDeep => some "stack overflow: value nested too deeply to print"
  | noPrelude path fault => some (fault.message path)

/-- Computations of a session. -/
abbrev Session := EStateM Trouble Store

/-- Where the definitions come from that a session starts with. -/
inductive PreludeSource
  | standard
  | absent
  | text (program : String)
  | file (path : String)
  deriving DecidableEq, Repr, Inhabited

namespace Session

variable (w : World)

/-- The frame of the top level. -/
def topLevel : FrameId := 0

/-- Runs an evaluation. -/
def perform {α : Type} (x : Eval α) : Session α := fun s ↦
  match x s with
  | .ok a s' => .ok a s'
  | .error f s' => .error (.failed f) s'

/-- The engine of the outermost evaluation, with all the depth there is. -/
def engine : Engine := ⟨w.depth, w.disk, run w.disk w.steps w.depth []⟩

/-- Evaluates a form in a frame. -/
def evalForm (scope : FrameId) (form : Value) : Session Value :=
  perform ((engine w).eval scope form)

/-- Reads the one form of a source text. -/
def read (source : String) : Session Value :=
  match Reader.read w.depth source with
  | .ok form => pure form
  | .error f => throw (.ofReadFault f)

/-- Reads a source text and evaluates it in a frame. -/
def evalIn (scope : FrameId) (source : String) : Session Value := do
  evalForm w scope (← read w source)

/-- Reads a source text and evaluates it at the top level. -/
def eval (source : String) : Session Value := evalIn w topLevel source

/-- **Reads, evaluates and prints** a source text. -/
def rep (source : String) : Session String := do
  let v ← eval w source
  match v.print (← get).atoms .readable w.depth with
  | some text => return text
  | none => throw .printTooDeep

/-- The one form that a program is evaluated as. -/
def programText (program : String) : String := "(do " ++ program ++ "\nnil)"

/-- Evaluates a program. -/
def load (program : String) : Session Unit := discard (eval w (programText program))

/-- Starts a session: binds the built-in functions and loads the prelude. -/
def start (source : PreludeSource) : Session Unit := do
  set (({} : Store).addTopLevel).2
  match source with
  | .standard => load w Prelude.standard
  | .absent => return
  | .text program => load w program
  | .file path =>
    match ← perform (Effect.readFile w.disk path) with
    | .ok program => load w program
    | .error fault => throw (.noPrelude path fault)

/-- The names that a session has defined at the top level, in the order of their definition, without
those of built-in functions. -/
def definedNames (s : Store) : List String :=
  (s.names topLevel).filter fun name ↦ (Builtin.ofName? name).isNone

end Session

end Lisplet
