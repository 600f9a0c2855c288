import Lisplet.Proofs.Loading
import Lisplet.Proofs.Soundness
import Lisplet.Proofs.Spelling

/-!
# Reading inside the language

Any text can be put into a program as a string, to be read and evaluated by the program itself
(`readingText`).  That is the same as evaluating the text in the first place.  Quoting keeps the text
from getting in the way, whatever stands in it, so that the program is always read, and as the same
form (`parse_readingText`).  The program then reads the text as the session would have done, and what
it reads is evaluated at the top level wherever the program runs, because from every frame of a
session the way outwards ends there.

A text that cannot be read is in error on either way, for one and the same reason.  The session
reports it as it is and the program as the cause of an error of its own.  Only at a numeral that is
not converted both crash.
-/

set_option autoImplicit false

namespace Lisplet

/-! ## The text of the program -/

/-- The text of the program that reads a text and evaluates what it has read. -/
def readingText (source : String) : String :=
  "(eval (read-string " ++ Text.quote source ++ "))"

theorem denotes_eval : Denotes "eval" (.sym "eval") :=
  .name (by decide) (by decide) (by decide) (by decide)

theorem denotes_readString : Denotes "read-string" (.sym "read-string") :=
  .name (by decide) (by decide) (by decide) (by decide)

open Token (Spells ofMark)

/-- Two texts between round brackets. -/
theorem Token.Spells.pair {a b : String} {ts us : List Token} (ha : Spells a ts)
    (hb : Spells b us) :
    Spells ("(" ++ a ++ " " ++ b ++ ")") (ofMark "(" :: (ts ++ us ++ [ofMark ")"])) := by
  have hpair := @Spells.bracketed (String × List Token) Prod.fst Prod.snd [(a, ts), (b, us)] .round
    (by simp [ha, hb])
  simpa [Value.bracketed, Bracket.opener, Bracket.closer, String.append_assoc] using hpair

/-- **The program is always read**, and as the same form, whatever the text. -/
theorem parse_readingText (source : String) :
    Reader.parse (readingText source) = .ok (Prelude.readingForm none none (.str source)) := by
  have hread : Spells "read-string" [Token.ofWord "read-string"] := .word (by decide)
  have heval : Spells "eval" [Token.ofWord "eval"] := .word (by decide)
  have hpieces (quoted : String) : "(eval (read-string " ++ quoted ++ "))" =
      "(" ++ "eval" ++ " " ++ ("(" ++ "read-string" ++ " " ++ quoted ++ ")") ++ ")" := by
    rw [← String.toList_inj]
    simp only [String.toList_append, List.append_assoc]
    rfl
  have htext : readingText source = _ := hpieces (Text.quote source)
  have hreadForm : Form [Token.ofWord "read-string"] (.sym "read-string") :=
    .word denotes_readString
  have hevalForm : Form [Token.ofWord "eval"] (.sym "eval") := .word denotes_eval
  have hinner := ((Forms.single hreadForm).append (.single (.string source))).enclosed
    (b := .round) (.list _)
  rw [Reader.parse_eq_ok_iff, htext, (heval.pair (hread.pair (.quote source))).scan_eq]
  exact ((Forms.single hevalForm).append (.single hinner)).enclosed (b := .round) (.list _)

/-! ## Reading from inside and from outside -/

namespace Session

open Prelude (readingForm settles_readingForm_iff settles_readingForm_error)

variable {disk : Disk} {s : Store} {f : FrameId} {source : String}

/-- From a frame of a session from which something is seen, the way outwards ends at the top
level. -/
theorem topLevel_of_resolves {op : Builtin} (hs : s.Sound) (h : s.Resolves f op) :
    s.topLevel f = topLevel :=
  hs.rooted.grounded.topLevel_eq f h.lt_size

/-- **Reading inside agrees with reading outside.**  The states of a session are sound, and so are
all moments of its evaluations.  Let `eval` and `read-string` be the built-in functions as seen from
some frame.  If a text is read as a form, then the program that reads and evaluates the text ends
there exactly as the session does with the text itself at the top level.  Otherwise the text is in
error for a reason that can be worded; the session reports it, the program fails with an error that
has it as its cause, and neither does anything else.  Or reading comes to a numeral that is not
converted, and both crash. -/
theorem reading_inside_agrees (disk : Disk) (source : String) :
    (∀ s, Reachable anything s → s.Sound) ∧
    ∀ (s : Store) (f : FrameId), s.Sound → s.Resolves f .eval → s.Resolves f .readString →
      (∃ form, Reader.parse source = .ok form ∧
        (∀ r, Settles disk (fun w ↦ evalIn w f (readingText source)) s r ↔
          Settles disk (fun w ↦ eval w source) s r) ∧
        ∀ l l' r, Evaluates disk (.eval (readingForm l l' (.str source)) f) s r ↔
          Evaluates disk (.eval form topLevel) s r) ∨
      ∃ fault failure, Reader.parse source = .error fault ∧ fault.Raises failure ∧
        Settles disk (fun w ↦ eval w source) s (.error (.ofReadFault fault) s) ∧
        Settles disk (fun w ↦ evalIn w f (readingText source)) s (.error (.failed failure) s) ∧
        ∀ l l', Evaluates disk (.eval (readingForm l l' (.str source)) f) s
          (.error failure s) := by
  refine ⟨fun s hs ↦ hs.sound, fun s f hs heval hread ↦ ?_⟩
  have hsource : Lisplet.Settles disk (fun eng ↦ eng.eval f (.str source)) s
      (.ok (.str source) s) := settles_itself fun _ ↦ rfl
  have htext {r : EStateM.Result Trouble Store Value} :
      Settles disk (fun w ↦ evalIn w f (readingText source)) s r ↔ ∃ q, r = performed q ∧
        Lisplet.Settles disk
          (fun eng ↦ eng.eval f (readingForm none none (.str source))) s q :=
    settles_evalIn_iff (parse_readingText source)
  cases hparse : Reader.parse source with
  | ok form =>
    have hform (l l' : Option Label) (r : EStateM.Result Failure Store Value) :
        Lisplet.Settles disk (fun eng ↦ eng.eval f (readingForm l l' (.str source))) s r ↔
          Lisplet.Settles disk (fun eng ↦ eng.eval topLevel form) s r := by
      rw [← topLevel_of_resolves hs heval]
      exact settles_readingForm_iff heval hread hsource hparse
    refine .inl ⟨form, rfl, fun r ↦ ?_, hform⟩
    refine htext.trans (Iff.trans ?_ (settles_evalIn_iff hparse).symm)
    simp only [hform]
  | error fault =>
    obtain ⟨failure, hraises⟩ := ReadFault.exists_raises hparse
    have hform (l l' : Option Label) :
        Lisplet.Settles disk (fun eng ↦ eng.eval f (readingForm l l' (.str source))) s
          (.error failure s) := settles_readingForm_error heval hread hsource hparse hraises
    exact .inr ⟨fault, failure, rfl, hraises, settles_evalIn_of_parse_error hparse,
      htext.2 ⟨_, rfl, hform none none⟩, hform⟩

/-- Two texts at the start of a session: one that holds a string with quotes in it, and one that ends
too soon. -/
theorem reading_inside_agrees_two :
    let disk : Disk := fun _ ↦ none
    let e : ReadError := .unexpectedEnd (some .round)
    let message := "expected " ++ Text.inspect Bracket.round.closer ++ " before end of input"
    (Reachable anything bare ∧ bare.Sound ∧ bare.Resolves topLevel .eval ∧
      bare.Resolves topLevel .readString) ∧
    (Settles disk (fun w ↦ eval w "\"a\"") bare (.ok (.str "a") bare) ∧
      Settles disk (fun w ↦ eval w (readingText "\"a\"")) bare (.ok (.str "a") bare)) ∧
    (Settles disk (fun w ↦ eval w "(") bare (.error (.unreadable e) bare) ∧
      Settles disk (fun w ↦ eval w (readingText "(")) bare
        (.error (.failed (.error (.unreadable e) ("read-string: " ++ message))) bare)) := by
  intro disk e message
  obtain ⟨hsound, hstring⟩ := reading_inside_agrees disk "\"a\""
  obtain ⟨-, hend⟩ := reading_inside_agrees disk "("
  have hbare : Reachable anything bare := reachable_bare disk
  have heval : bare.Resolves topLevel .eval := resolves_bare .eval
  have hread : bare.Resolves topLevel .readString := resolves_bare .readString
  have hparse : Reader.parse "\"a\"" = .ok (.str "a") := rfl
  have herror : Reader.parse "(" = .error (.error e) := rfl
  have hvalue : Settles disk (fun w ↦ eval w "\"a\"") bare (.ok (.str "a") bare) :=
    (settles_evalIn_iff hparse).2 ⟨_, rfl, settles_itself fun _ ↦ rfl⟩
  refine ⟨⟨hbare, hsound bare hbare, heval, hread⟩, ⟨hvalue, ?_⟩, ?_⟩
  · obtain ⟨form, -, hagree, -⟩ | ⟨fault, failure, hfault, -⟩ :=
      hstring bare topLevel (hsound bare hbare) heval hread
    · exact (hagree _).2 hvalue
    · exact absurd (hparse.symm.trans hfault) (by simp)
  · obtain ⟨form, hform, -⟩ | ⟨fault, failure, hfault, hraises, houtside, hinside, -⟩ :=
      hend bare topLevel (hsound bare hbare) heval hread
    · exact absurd (herror.symm.trans hform) (by simp)
    · obtain rfl := Except.error.inj (herror.symm.trans hfault)
      obtain rfl := hraises.eq_of_message fun _ ↦ rfl
      exact ⟨houtside, hinside⟩

/-- Zero in 4301 digits is read neither inside nor outside: both crash, and the program has no error
of its own for it. -/
theorem reading_inside_crashes_at_zeros :
    let zeros := String.ofList (List.replicate 4301 '0')
    let disk : Disk := fun _ ↦ none
    let crash : Trouble := .failed (.crashed (.numeral 4301))
    Reachable anything bare ∧ bare.Resolves topLevel .eval ∧ bare.Resolves topLevel .readString ∧
      Settles disk (fun w ↦ eval w zeros) bare (.error crash bare) ∧
      Settles disk (fun w ↦ eval w (readingText zeros)) bare (.error crash bare) := by
  intro zeros disk crash
  have heval : bare.Resolves topLevel .eval := resolves_bare .eval
  have hread : bare.Resolves topLevel .readString := resolves_bare .readString
  have hparse : Reader.parse zeros = .error (.unconverted 4301) :=
    Numeral.read_zeros (Nat.le_refl _) _
  have hinside : Evaluates disk (.eval (readingForm none none (.str zeros)) topLevel) bare
      (.error (.crashed (.numeral 4301)) bare) :=
    settles_readingForm_error heval hread (settles_itself fun _ ↦ rfl) hparse (.unconverted 4301)
  exact ⟨reachable_bare disk, heval, hread, settles_evalIn_of_parse_error hparse,
    (settles_evalIn_iff (parse_readingText zeros)).2 ⟨_, rfl, hinside⟩⟩

end Session

end Lisplet
