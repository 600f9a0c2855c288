/-!
# Lines

A line ends at a line feed.  Files may also end their lines with a carriage return, alone or before
the line feed; `unifyNewlines` reads all three spellings as a line feed, and leaves no carriage
return behind.
-/

set_option autoImplicit false

namespace Lisplet.Text

/-- One more character of a text whose line endings are being unified.  The characters so far are
in reverse; the flag says that the last one was a carriage return, whose line feed is to be
dropped. -/
def unifyStep (state : List Char × Bool) (c : Char) : List Char × Bool :=
  if c = '\r' then ('\n' :: state.1, true)
  else if c = '\n' && state.2 then (state.1, false)
  else (c :: state.1, false)

/-- The text with every line ending written as a line feed. -/
def unifyNewlines (s : String) : String :=
  String.ofList (s.toList.foldl unifyStep ([], false)).1.reverse

/-- One more character of a text that is being cut into lines: the ended lines, latest first, and
the open line in reverse. -/
def lineStep (state : List String × List Char) (c : Char) : List String × List Char :=
  if c = '\n' then (String.ofList state.2.reverse :: state.1, []) else (state.1, c :: state.2)

/-- The lines of a text, without their line feeds.  A last line that is not ended counts, an empty
one does not. -/
def lines (s : String) : List String :=
  let state := s.toList.foldl lineStep ([], [])
  (if state.2.isEmpty then state.1 else String.ofList state.2.reverse :: state.1).reverse

end Lisplet.Text
