import Lisplet.Repl
import Lisplet.Settings

/-!
# The command line

Without arguments the program is a read-eval-print loop; with arguments it loads the script that the
first one names.  All decisions are made elsewhere: here lines and files are read and texts are
printed.

Evaluation is pure, so it cannot open a file.  When it asks for one that has not been read yet, it
is suspended; the file is read, and the same evaluation is made again from the same store with one
more file known.
-/

set_option autoImplicit false

namespace Lisplet.CommandLine

/-- What is at a path. -/
def look (path : String) : IO FileContent := do
  try
    match String.fromUTF8? (← IO.FS.readBinFile path) with
    | some content => return .text content
    | none => return .undecodable
  catch
    | .inappropriateType none _ _ => return .fault .isDirectory
    | .inappropriateType _ _ _ => return .fault .notDirectory
    | .noFileOrDirectory _ _ _ => return .fault .missing
    | e => return .fault (.other (toString e))

/-- Runs a session computation, reading the files it asks for. -/
partial def settle {α : Type} (x : World → Session α) (s : Store)
    (known : List (String × FileContent)) : IO (World × Repl.Result α) := do
  let w : World := { disk := fun path ↦ known.lookup path }
  match x w s with
  | .error (.failed (.unread path)) _ => settle x s ((path, ← look path) :: known)
  | result => return (w, result)

/-- What is said of a trouble that has no wording. -/
def lastWords : Trouble → String
  | .failed (.crashed (.numeral _)) => "a numeral has too many digits"
  | .failed (.crashed (.undecodable path)) => "no text is in the file " ++ path
  | .failed (.crashed (.path _)) => "a path holds the character NUL"
  | _ => "nested too deeply to report"

/-- Prints what a run has to show, or says what has ended it. -/
def conclude (exit : Except Trouble Repl.Exit) : IO UInt32 := do
  match exit with
  | .ok e =>
    IO.print e.stdout
    IO.eprint e.stderr
    return e.code.toUInt32
  | .error t =>
    IO.eprintln (lastWords t)
    return 1

/-- Answers lines until the input ends. -/
partial def loop (input : IO.FS.Stream) (s : Store) : IO UInt32 := do
  IO.print Repl.prompt
  (← IO.getStdout).flush
  let line ← input.getLine
  if line.isEmpty then conclude (.ok ⟨0, "\n", ""⟩)
  else
    let text := ((Text.lines line).head?).getD ""
    let (w, result) ← settle (fun w ↦ Repl.takeLine w text) s []
    match Repl.reply w result with
    | .ok shown =>
      IO.print shown
      loop input (Repl.storeAfter result)
    | .error t => conclude (.error t)

/-- A whole run of the program. -/
def run (args : List String) : IO UInt32 := do
  let setting ← IO.getEnv "LISPLET_PRELUDE_PATH"
  let named := Path.normalize (Text.trim (setting.getD ""))
  let isDirectory := (← look named) matches .fault .isDirectory
  let source := match Settings.preludeFile (fun _ ↦ isDirectory) setting with
    | some path => PreludeSource.file path
    | none => .standard
  let (w, started) ← settle (fun w ↦ Repl.start w source args) {} []
  match started with
  | .error t s =>
    conclude ((Repl.worded w t s).map fun message ↦ ⟨1, s.output, Repl.errorLine message⟩)
  | .ok () s =>
    match args with
    | path :: _ =>
      let (w, result) ← settle (fun w ↦ Session.eval w (Repl.scriptText path)) s []
      conclude (Repl.scriptExit w result)
    | [] =>
      IO.print s.output
      loop (← IO.getStdin) s

end Lisplet.CommandLine

/-- The program. -/
def main (args : List String) : IO UInt32 := Lisplet.CommandLine.run args
