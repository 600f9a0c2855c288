import Lisplet.Text.Inspect

/-!
# Files by path

A path is normalised before it is used or shown (`Path.normalize`): repeated slashes and single dots
go, a slash at the end goes, and the empty path is a dot.  Two dots stay, because what they lead to
depends on the directories that exist.  Two slashes in front stay two; three or more are one.

Evaluation asks a `Disk` for what is at a path: a text, a file that holds no text, or the system's
complaint (`FileFault`).  A disk may also not know yet, which suspends the evaluation until it is
told.  A path that holds the character NUL cannot be asked for (`Path.isPlain`).  `FileTree` is a
disk that knows all: a directory with given files, where a path is followed component by component.
-/

set_option autoImplicit false

namespace Lisplet

namespace Path

/-- The components of a path that count, from left to right. -/
def components (path : String) : List String :=
  (path.splitOn "/").filter fun c ↦ !(c.isEmpty || c == ".")

/-- The slashes that make a path absolute: none, one, or exactly two. -/
def root (path : String) : String :=
  match path.toList with
  | '/' :: '/' :: '/' :: _ => "/"
  | '/' :: '/' :: _ => "//"
  | '/' :: _ => "/"
  | _ => ""

/-- A path from its slashes in front and its components. -/
def join (root : String) (components : List String) : String :=
  let text := root ++ "/".intercalate components
  if text.isEmpty then "." else text

/-- The path without what does not count. -/
def normalize (path : String) : String := join (root path) (components path)

/-- The directory that holds what a path names, by its text alone. -/
def parent (path : String) : String := join (root path) (components path).dropLast

/-- A path inside a directory. -/
def child (directory name : String) : String :=
  join (root directory) (components directory ++ [name])

/-- A path that the system can be asked for. -/
def isPlain (path : String) : Bool := !path.toList.contains '\x00'

end Path

/-- Why the system does not read a file. -/
inductive FileFault
  /-- There is nothing of that name. -/
  | missing
  /-- The path goes on behind a file. -/
  | notDirectory
  /-- The path leads to a directory. -/
  | isDirectory
  /-- Anything else, in the words of the system. -/
  | other (complaint : String)
  deriving DecidableEq, Repr, Inhabited

namespace FileFault

/-- The number by which the system knows a fault, its name of the fault, and the path. -/
def numbered (number : Nat) (description path : String) : String :=
  "[Errno " ++ Nat.repr number ++ "] " ++ description ++ ": " ++ Text.inspect path

/-- The fault in the words of the system. -/
def message (path : String) : FileFault → String
  | missing => numbered 2 "No such file or directory" path
  | notDirectory => numbered 20 "Not a directory" path
  | isDirectory => numbered 21 "Is a directory" path
  | other complaint => complaint

end FileFault

/-- What is at a path. -/
inductive FileContent
  | text (content : String)
  /-- A file whose bytes are no text. -/
  | undecodable
  | fault (f : FileFault)
  deriving DecidableEq, Repr, Inhabited

/-- What is known of the files, by normalised path. -/
abbrev Disk := String → Option FileContent

/-- The files of a directory, by their paths inside it. -/
structure FileTree where
  files : List (List String × String)
  deriving Repr, Inhabited

namespace FileTree

/-- A tree from the paths of its files and their texts. -/
def ofList (files : List (String × String)) : FileTree :=
  ⟨files.map fun f ↦ (Path.components f.1, f.2)⟩

/-- Where a path leads. -/
inductive Place
  /-- A directory in the tree, by its components in reverse. -/
  | directory (reversed : List String)
  /-- A file. -/
  | file (text : String)
  /-- A directory outside the tree, of whose files nothing is known. -/
  | outside
  deriving Repr, Inhabited

/-- The file or directory at a list of components. -/
def place? (t : FileTree) (components : List String) : Option Place :=
  match t.files.lookup components with
  | some text => some (.file text)
  | none =>
    if t.files.any fun f ↦ components.isPrefixOf f.1 then some (.directory components.reverse)
    else none

/-- Follows one component from a place.  Two dots lead out of a directory, at the root of the tree
to a directory outside it. -/
def follow (t : FileTree) (component : String) : Place → Except FileFault Place
  | .file _ => .error .notDirectory
  | .outside => if component = ".." then .ok .outside else .error .missing
  | .directory reversed =>
    if component = ".." then
      match reversed with
      | [] => .ok .outside
      | _ :: up => .ok (.directory up)
    else
      match t.place? (component :: reversed).reverse with
      | some place => .ok place
      | none => .error .missing

/-- Where a path leads: an absolute one starts outside the tree, any other at its root. -/
def resolve (t : FileTree) (path : String) : Except FileFault Place :=
  let start := if (Path.root path).isEmpty then Place.directory [] else Place.outside
  (Path.components path).foldlM (fun place component ↦ t.follow component place) start

/-- The text of the file that a path leads to. -/
def text (t : FileTree) (path : String) : Except FileFault String := do
  match ← t.resolve path with
  | .file text => .ok text
  | _ => .error .isDirectory

/-- Whether a path leads to a directory. -/
def isDirectory (t : FileTree) (path : String) : Bool :=
  match t.resolve path with
  | .ok (.directory _) | .ok .outside => true
  | _ => false

/-- The tree as a disk that knows all. -/
def disk (t : FileTree) : Disk := fun path ↦
  some (match t.text path with
    | .ok content => .text content
    | .error f => .fault f)

end FileTree

end Lisplet
