import Lisplet.Builtin.Arguments
import Lisplet.Eval.Engine
import Lisplet.Reader.Read
import Lisplet.Text.Lines
import Lisplet.Value.Equality

/-!
# Built-in functions that need more than their arguments

Those that use atoms or print change the store; those that read text, compare or print need room;
those that call functions or evaluate forms do it through the engine.
-/

set_option autoImplicit false

namespace Lisplet.Effect

open Builtin (one two text cell itemsOrNil)

variable (eng : Engine)

/-! ## Comparing, printing and reading -/

/-- Whether two values are equal. -/
def equal (args : List Value) : Eval Value := do
  let (a, b) ← eng.lift (two .equal args)
  return .bool (← Engine.fit (a.equal? eng.room b))

/-- The text of some values, as a string. -/
def toText (style : PrintStyle) (sep : String) (args : List Value) : Eval Value := do
  return .str (← eng.print style sep args)

/-- Prints some values on a line. -/
def printLine (style : PrintStyle) (args : List Value) : Eval Value := do
  let line ← eng.print style " " args
  modify fun s ↦ s.write (line ++ "\n")
  return .nil

/-- The form that a text holds; an unreadable text is the given error. -/
def readText (text : String) (unreadable : ReadError → EvalError) : Eval Value :=
  match Reader.read eng.room text with
  | .ok form => pure form
  | .error (.error e) => eng.fail (unreadable e)
  | .error .tooDeep => throw .overflow
  | .error (.unconverted digits) => throw (.crashed (.numeral digits))

/-- The form that a string holds. -/
def readString (args : List Value) : Eval Value := do
  let source ← eng.lift (one .readString args >>= text .readString)
  readText eng source .unreadable

/-- The symbol that a string names; a symbol names itself. -/
def symbol (args : List Value) : Eval Value := do
  match ← eng.lift (one .symbol args) with
  | .sym name => return .sym name
  | v =>
    let name ← eng.lift (text .symbol v)
    match ← readText eng name fun e ↦ .type (.unreadableName .symbol name e) with
    | .sym s => return .sym s
    | _ => eng.fail (.type (.otherName .symbol name))

/-- The keyword that a string names, with or without its colon; a keyword names itself. -/
def keyword (args : List Value) : Eval Value := do
  match ← eng.lift (one .keyword args) with
  | .kw name => return .kw name
  | v =>
    let name ← eng.lift (text .keyword v)
    match ← readText eng name fun e ↦ .type (.unreadableName .keyword name e) with
    | .sym s => return Value.keyword s
    | .kw s => return .kw s
    | _ => eng.fail (.type (.otherName .keyword name))

/-- The text of a file, with every line ending read as a line feed, or the fault that kept the
system from reading it. -/
def readFile (disk : Disk) (path : String) : Eval (Except FileFault String) :=
  if Path.isPlain path then
    match disk (Path.normalize path) with
    | some (.text content) => return .ok (Text.unifyNewlines content)
    | some .undecodable => throw (.crashed (.undecodable (Path.normalize path)))
    | some (.fault f) => return .error f
    | none => throw (.unread (Path.normalize path))
  else throw (.crashed (.path (Path.normalize path)))

/-- The text of a file, as a string. -/
def slurp (args : List Value) : Eval Value := do
  let path ← eng.lift (one .slurp args >>= text .slurp)
  match ← readFile eng.disk path with
  | .ok content => return .str content
  | .error f => eng.fail (.file (Path.normalize path) f)

/-! ## Atoms -/

/-- A new atom. -/
def atom (args : List Value) : Eval Value := do
  let v ← eng.lift (one .atom args)
  return .atom (← modifyGet fun s ↦ s.addAtom v)

/-- The content of an atom. -/
def deref (args : List Value) : Eval Value := do
  let a ← eng.lift (one .deref args >>= cell .deref)
  return (← get).atoms.content a

/-- Puts a value into an atom. -/
def reset (args : List Value) : Eval Value := do
  let (target, v) ← eng.lift (two .reset args)
  let a ← eng.lift (cell .reset target)
  modify fun s ↦ s.setAtom a v
  return v

/-- Puts into an atom what a function makes of its content and further arguments. -/
def swap (scope : FrameId) : List Value → Eval Value
  | target :: fn :: extra => do
    let a ← eng.lift (cell .swap target)
    let content := (← get).atoms.content a
    let v ← eng.run (.call fn (content :: extra) scope)
    modify fun s ↦ s.setAtom a v
    return v
  | _ => eng.fail (.arity (.lacking .swap))

/-! ## Evaluating and calling -/

/-- Evaluates a form at the top level. -/
def eval (scope : FrameId) (args : List Value) : Eval Value := do
  let form ← eng.lift (one .eval args)
  eng.eval ((← get).topLevel scope) form

/-- Evaluates a form in the frame of the caller. -/
def evalHere (scope : FrameId) (args : List Value) : Eval Value := do
  let form ← eng.lift (one .evalHere args)
  eng.eval scope form

/-- Throws a value. -/
def throwArgument (args : List Value) : Eval Value := do
  Eval.throwValue (← eng.lift (one .throw args))

/-- Calls a function on each element of a sequence, from left to right. -/
def map (scope : FrameId) (args : List Value) : Eval Value := do
  let (fn, sequence) ← eng.lift (two .map args)
  let vs ← eng.lift (itemsOrNil .map sequence)
  Eval.labelled (.list none (← vs.mapM fun v ↦ eng.run (.call fn [v] scope)))

/-- Calls a function on some arguments and the elements of a last one. -/
def apply (scope : FrameId) : List Value → Eval Value
  | fn :: arg :: args => do
    let last := (arg :: args).getLastD .nil
    let vs ← eng.lift (itemsOrNil .apply last)
    eng.run (.call fn ((arg :: args).dropLast ++ vs) scope)
  | _ => eng.fail (.arity (.lacking .apply))

end Lisplet.Effect
