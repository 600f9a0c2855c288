import Lisplet.Token.Scan

/-!
# Scanning line by line

The end of a line ends every token but one.  A word, a comment and a tilde that still might take an
at sign are over with it, and between tokens it is a blank; only a string goes on in the next line.
A text that leaves a string open is complained about (`unclosed`), so the tokens of a text tell
whether the next line is scanned by itself: it is exactly if that complaint is not among them
(`scan_line_iff`).

The scanner knows of the text behind it just the mode that it is in.  So the tokens of a long text
are those that its front completes, and then those of the rest from the mode that the front leaves
behind (`Mode.scan_append`), and all that has to be looked at is what one line feed does to a mode.
-/

set_option autoImplicit false

namespace Lisplet.Token

/-- The complaint about a string literal that is still open when the text ends. -/
def unclosed : Token := ⟨.error, "unterminated string literal"⟩

namespace Mode

/-! ## The front of a text -/

/-- The mode that some characters leave behind. -/
def after : Mode → List Char → Mode
  | m, [] => m
  | m, c :: cs => (m.feed c).1.after cs

/-- The tokens that some characters complete. -/
def completed : Mode → List Char → List Token
  | _, [] => []
  | m, c :: cs => (m.feed c).2 ++ (m.feed c).1.completed cs

theorem scan_append (m : Mode) (cs rest : List Char) :
    m.scan (cs ++ rest) = m.completed cs ++ (m.after cs).scan rest := by
  induction cs generalizing m with
  | nil => rfl
  | cons c cs ih => rw [List.cons_append, scan, ih, completed, after, List.append_assoc]

theorem scan_eq_completed (m : Mode) (cs : List Char) :
    m.scan cs = m.completed cs ++ (m.after cs).finish := by
  have happend := m.scan_append cs []
  rwa [List.append_nil, scan] at happend

/-! ## Where the complaint comes from -/

theorem unclosed_ne_ofMark (text : String) : unclosed ≠ ofMark text :=
  fun h ↦ by cases h

theorem unclosed_ne_ofWord (text : String) : unclosed ≠ ofWord text := by
  rw [ofWord]
  split <;> exact fun h ↦ by cases h

/-- The complaint about an escape is another one. -/
theorem unclosed_ne_ofLiteral (l : Text.Literal) : unclosed ≠ ofLiteral l := by
  rw [ofLiteral]
  split
  · exact fun h ↦ by cases h
  · intro h
    have htext := congrArg (fun t ↦ t.text.toList.head?) h
    simp [unclosed] at htext

theorem unclosed_not_mem_enter (c : Char) : unclosed ∉ (enter c).2 := by
  rw [enter]
  repeat' split
  all_goals simp [unclosed_ne_ofMark]

/-- No character completes the complaint. -/
theorem unclosed_not_mem_feed (m : Mode) (c : Char) : unclosed ∉ (m.feed c).2 := by
  have henter := unclosed_not_mem_enter c
  cases m with
  | idle => exact henter
  | comment => simp [feed]
  | tilde =>
    rw [feed]
    split
    · simp [unclosed_ne_ofMark]
    · exact List.not_mem_cons_of_ne_of_not_mem (unclosed_ne_ofMark _) henter
  | word letters =>
    rw [feed]
    split
    · simp
    · exact List.not_mem_cons_of_ne_of_not_mem (unclosed_ne_ofWord _) henter
  | text literal =>
    rw [feed]
    split
    · simp [unclosed_ne_ofLiteral]
    · simp

theorem unclosed_not_mem_completed (m : Mode) (cs : List Char) : unclosed ∉ m.completed cs := by
  induction cs generalizing m with
  | nil => exact List.not_mem_nil
  | cons c cs ih =>
    rw [completed, List.mem_append]
    exact not_or.2 ⟨unclosed_not_mem_feed m c, ih _⟩

theorem unclosed_mem_finish_iff {m : Mode} : unclosed ∈ m.finish ↔ ∃ literal, m = text literal := by
  cases m with
  | text literal => simp [finish, unclosed]
  | idle | comment | tilde => simp [finish, unclosed_ne_ofMark]
  | word letters => simp [finish, unclosed_ne_ofWord]

/-- **The complaint is about the mode that the text ends in.** -/
theorem unclosed_mem_scan_iff {m : Mode} {cs : List Char} :
    unclosed ∈ m.scan cs ↔ ∃ literal, m.after cs = text literal := by
  rw [scan_eq_completed, List.mem_append, unclosed_mem_finish_iff]
  exact or_iff_right (unclosed_not_mem_completed m cs)

/-! ## The end of a line -/

/-- A line feed ends whatever is open, save a string. -/
theorem scan_line {m : Mode} (h : ∀ literal, m ≠ text literal) (rest : List Char) :
    m.scan ('\n' :: rest) = m.finish ++ idle.scan rest := by
  cases m with
  | text literal => exact absurd rfl (h literal)
  | idle | comment | tilde | word => rfl

/-- **The text behind the end of a line is scanned by itself**, if no string is open there. -/
theorem scan_append_line {m : Mode} {cs : List Char} (h : unclosed ∉ m.scan cs)
    (rest : List Char) : m.scan (cs ++ '\n' :: rest) = m.scan cs ++ idle.scan rest := by
  have hopen : ∀ literal, m.after cs ≠ text literal := fun literal hm ↦
    h (unclosed_mem_scan_iff.2 ⟨literal, hm⟩)
  rw [scan_append, scan_line hopen, m.scan_eq_completed cs, List.append_assoc]

/-- An open string takes the end of the line and the word behind it. -/
theorem scan_text_line (literal : Text.Literal) :
    (text literal).scan ['\n', 'x'] = [unclosed] := by
  have hfeed (l : Text.Literal) (c : Char) (hc : c ≠ Text.quoteMark) :
      (text l).feed c = (text (l.push c), []) := by
    rw [feed, if_neg (by simp [hc])]
  have hescaping : ((literal.push '\n').push 'x').escaping = false := by
    obtain ⟨written, meant, escaping⟩ := literal
    cases escaping <;> rfl
  simp only [scan, hfeed _ _ (show '\n' ≠ Text.quoteMark by decide),
    hfeed _ _ (show 'x' ≠ Text.quoteMark by decide), finish, hescaping]
  rfl

end Mode

/-- **A line is scanned by itself exactly if no string is open before it.**  The tokens of a text, a
line feed and any other text are those of the one text and then those of the other, unless the first
one is complained about for a string that it leaves open; and if it is, that goes wrong for some
other text. -/
theorem scan_line_iff (a : String) :
    (∀ b, scan (a ++ "\n" ++ b) = scan a ++ scan b) ↔ unclosed ∉ scan a := by
  have hjoin (b : String) :
      scan (a ++ "\n" ++ b) = Mode.idle.scan (a.toList ++ '\n' :: b.toList) := by
    rw [scan_eq, String.toList_append, String.toList_append, List.append_assoc]
    rfl
  constructor
  · intro h hmem
    have hword := h "x"
    rw [hjoin, scan_eq a] at hword
    rw [scan_eq] at hmem
    obtain ⟨literal, hopen⟩ := Mode.unclosed_mem_scan_iff.1 hmem
    have htail : '\n' :: "x".toList = ['\n', 'x'] := rfl
    rw [htail, Mode.scan_append, hopen, Mode.scan_text_line, Mode.scan_eq_completed, hopen,
      List.append_assoc, List.append_cancel_left_eq, Mode.finish] at hword
    -- the complaint stands alone on the one side, and on the other there is a word behind it
    have hlength := congrArg List.length hword
    have hx : scan "x" = [ofWord "x"] := rfl
    simp [hx] at hlength
  · intro h b
    rw [scan_eq] at h
    rw [hjoin, Mode.scan_append_line h, scan_eq a, scan_eq b]

example : scan "a ~\n@b ; c\n\"d\"" = scan "a ~" ++ scan "@b ; c" ++ scan "\"d\"" := by decide

end Lisplet.Token
