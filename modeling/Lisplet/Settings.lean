import Lisplet.Files
import Lisplet.Text.Blank

/-!
# Settings

Two settings come from the surroundings as text: where the prelude is, and how much is logged.

The first names the prelude's directory, or anything beside the prelude in that directory; the
prelude itself always has the same name.  The second is the name of a level, in any case; what is no
such name means the level of warnings.  Spaces around either are ignored.
-/

set_option autoImplicit false

namespace Lisplet.Settings

/-- The name of the prelude in its directory. -/
def preludeName : String := "core.mal"

/-- The directory of the prelude: the one that the setting names, or the one that holds what it
names.  There is none if the setting is absent or blank. -/
def preludeDirectory (isDirectory : String → Bool) (setting : Option String) : Option String :=
  let path := Text.trim (setting.getD "")
  if path.isEmpty then none
  else
    let path := Path.normalize path
    some (if isDirectory path then path else Path.parent path)

/-- The file of the prelude, if the setting names one. -/
def preludeFile (isDirectory : String → Bool) (setting : Option String) : Option String :=
  (preludeDirectory isDirectory setting).map fun directory ↦ Path.child directory preludeName

/-- A character in upper case, as far as the names of levels need it.  Two letters outside ASCII
have an upper case inside it. -/
def upper (c : Char) : Char :=
  if c = 'ı' then 'I' else if c = 'ſ' then 'S' else c.toUpper

/-- The levels by name. -/
def levels : List (String × Nat) :=
  [("CRITICAL", 50), ("FATAL", 50), ("ERROR", 40), ("WARNING", 30), ("WARN", 30), ("INFO", 20),
   ("DEBUG", 10), ("NOTSET", 0)]

/-- The level of warnings. -/
def warning : Nat := 30

/-- The level of the messages that are logged. -/
def logLevel (setting : Option String) : Nat :=
  match setting with
  | none => warning
  | some name => (levels.lookup (String.ofList ((Text.trim name).toList.map upper))).getD warning

end Lisplet.Settings
