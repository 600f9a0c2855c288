import Lisplet.Proofs.Exposure
import Lisplet.Proofs.Overflow
import Lisplet.Repl
import Mathlib.Logic.ExistsUnique

/-!
# How lines and scripts are answered

The loop takes one line after the other and gives each of them one answer: nothing, a value in print
or a complaint.  `Repl.Answered` says what the answer to a line is and which store it leaves, and
`Repl.Conversation` strings the answers to some lines together, so that each line is taken in the
store that the one before it left.

What can keep a line from being answered is that there are no words for its trouble
(`Trouble.Wordless`).  The text may be too deep to be read, or what the message has to show may not
fit: a thrown value, for one, that reaches itself.  Or the program crashes: a numeral has more
digits than are converted, or a file holds no text.  Such a line ends the loop with its trouble, and
such a script ends so too.  Nothing else does (`Repl.answers_in_order`).
-/

set_option autoImplicit false

namespace Lisplet

variable {w w' : World} {s s' s₁ s₂ : Store}

/-! ## Troubles without words -/

/-- There are no words for a trouble: the text is too deep to be read, or what the message has to
show does not fit, or the program has crashed. -/
inductive Trouble.Wordless (w : World) (s : Store) : Trouble → Prop
  | readTooDeep : Wordless w s .readTooDeep
  | unreadable {e : ReadError} (h : e.message w.depth = none) : Wordless w s (.unreadable e)
  | thrown {payload : Value} (h : payload.print s.atoms .readable w.depth = none) :
    Wordless w s (.failed (.thrown payload))
  | crashed (c : Crash) : Wordless w s (.failed (.crashed c))

theorem Trouble.message_eq_none_iff {t : Trouble} : t.message w s = none ↔ t.Wordless w s := by
  constructor
  · intro h
    match t, h with
    | .unreadable e, h => exact .unreadable h
    | .readTooDeep, _ => exact .readTooDeep
    | .failed (.thrown payload), h => exact .thrown (Option.map_eq_none_iff.1 h)
    | .failed (.crashed c), _ => exact .crashed c
    | .failed (.error _ _), h | .failed .overflow, h | .failed .exhausted, h
    | .failed (.unread _), h | .printTooDeep, h | .noPrelude _ _, h => cases h
  · rintro (_ | h | h | c)
    · rfl
    · exact h
    · exact Option.map_eq_none_iff.2 h
    · rfl

/-- Wherever there are words, they can be had. -/
theorem Trouble.exists_message {t : Trouble} (h : ¬ t.Wordless w s) :
    ∃ message, t.message w s = some message :=
  Option.ne_none_iff_exists'.1 fun hnone ↦ h (message_eq_none_iff.1 hnone)

/-- A text is found empty exactly if it holds no token, whatever the room. -/
theorem Reader.read_eq_emptyInput_iff (limit : Nat) (source : String) :
    read limit source = .error (.error .emptyInput) ↔ Token.scan source = [] := by
  constructor
  · intro h
    have hdeep : read limit source ≠ .error .tooDeep := by
      rw [h]
      simp
    exact parse_eq_emptyInput_iff.1 ((read_eq_parse hdeep).symm.trans h)
  · intro h
    rw [read, h]
    rfl

namespace Repl

open Session (topLevel eval_apply rep_apply)

/-! ## Lines -/

/-- What a line is answered with. -/
inductive Answer
  | nothing
  | rendering (text : String)
  | complaint (message : String)
  deriving DecidableEq, Repr, Inhabited

/-- An answer as it is shown. -/
def Answer.shown : Answer → String
  | nothing => ""
  | rendering text => text ++ "\n"
  | complaint message => errorLine message

/-- **How a line is answered**, and the store that this leaves.  There is nothing to answer if the
line holds no form; what has a value is answered with the value in print, and any trouble with its
words. -/
inductive Answered (w : World) (line : String) (s : Store) : Answer → Store → Prop
  | blank (h : Token.scan line = []) : Answered w line s .nothing s
  | value {v : Value} {s' : Store} {text : String} (heval : Session.eval w line s = .ok v s')
    (hprint : v.print s'.atoms .readable w.depth = some text) :
    Answered w line s (.rendering text) s'
  | trouble {t : Trouble} {s' : Store} {message : String} (hline : Token.scan line ≠ [])
    (hrep : Session.rep w line s = .error t s') (hwords : t.message w s' = some message) :
    Answered w line s (.complaint message) s'

/-- There is no answer to a line, for there are no words for its trouble. -/
def Speechless (w : World) (line : String) (t : Trouble) (s : Store) : Prop :=
  ∃ s', Session.rep w line s = .error t s' ∧ t.Wordless w s'

section

variable {line text : String} {a b : Answer} {t u : Trouble}

/-- A form that cannot be evaluated fails, and is in no other trouble. -/
theorem exists_of_evalForm_eq_error {form : Value}
    (h : Session.evalForm w topLevel form s = .error t s') : ∃ f, t = .failed f := by
  rw [Session.evalForm, Session.perform] at h
  split at h
  · cases h
  · cases h
    exact ⟨_, rfl⟩

theorem rep_eq_ok_iff :
    Session.rep w line s = .ok text s' ↔
      ∃ v, Session.eval w line s = .ok v s' ∧ v.print s'.atoms .readable w.depth = some text := by
  rw [rep_apply]
  constructor
  · intro h
    split at h
    · rename_i v s₁ heval
      split at h
      · rename_i hprint
        cases h
        exact ⟨v, heval, hprint⟩
      · cases h
    · cases h
  · rintro ⟨v, heval, hprint⟩
    simp only [heval, hprint]

theorem eval_eq_emptyInput_iff :
    Session.eval w line s = .error (.unreadable .emptyInput) s' ↔
      Token.scan line = [] ∧ s = s' := by
  rw [← Reader.read_eq_emptyInput_iff w.depth, eval_apply]
  cases hread : Reader.read w.depth line with
  | ok form =>
    refine iff_of_false (fun h ↦ ?_) (by simp)
    obtain ⟨f, hf⟩ := exists_of_evalForm_eq_error h
    cases hf
  | error f => cases f <;> simp [Trouble.ofReadFault]

/-- A line is found empty exactly if it holds no token. -/
theorem rep_eq_emptyInput_iff :
    Session.rep w line s = .error (.unreadable .emptyInput) s' ↔
      Token.scan line = [] ∧ s = s' := by
  rw [← eval_eq_emptyInput_iff (w := w), rep_apply]
  cases Session.eval w line s with
  | ok v s₁ =>
    dsimp only
    cases v.print s₁.atoms .readable w.depth <;> simp
  | error t s₁ => simp

theorem rep_of_blank (w : World) (s : Store) (h : Token.scan line = []) :
    Session.rep w line s = .error (.unreadable .emptyInput) s :=
  rep_eq_emptyInput_iff.2 ⟨h, rfl⟩

theorem rep_of_value {v : Value} (heval : Session.eval w line s = .ok v s')
    (hprint : v.print s'.atoms .readable w.depth = some text) :
    Session.rep w line s = .ok text s' :=
  rep_eq_ok_iff.2 ⟨v, heval, hprint⟩

/-- **Every line is answered, or there are no words for its trouble.** -/
theorem answered_or_speechless (w : World) (line : String) (s : Store) :
    (∃ a s', Answered w line s a s') ∨ ∃ t, Speechless w line t s := by
  cases hrep : Session.rep w line s with
  | ok text s' =>
    obtain ⟨v, heval, hprint⟩ := rep_eq_ok_iff.1 hrep
    exact .inl ⟨_, _, .value heval hprint⟩
  | error t s' =>
    by_cases hwordless : t.Wordless w s'
    · exact .inr ⟨t, s', hrep, hwordless⟩
    · by_cases hline : Token.scan line = []
      · exact .inl ⟨_, _, .blank hline⟩
      · obtain ⟨message, hwords⟩ := Trouble.exists_message hwordless
        exact .inl ⟨_, _, .trouble hline hrep hwords⟩

/-- A line has no more than one answer. -/
theorem Answered.unique (h : Answered w line s a s₁) (h' : Answered w line s b s₂) :
    a = b ∧ s₁ = s₂ := by
  cases h with
  | blank hline =>
    have hrep := rep_of_blank w s hline
    cases h' with
    | blank => exact ⟨rfl, rfl⟩
    | value heval hprint => cases hrep.symm.trans (rep_of_value heval hprint)
    | trouble hne => exact absurd hline hne
  | value heval hprint =>
    have hrep := rep_of_value heval hprint
    cases h' with
    | blank hline => cases hrep.symm.trans (rep_of_blank w s hline)
    | value heval' hprint' =>
      obtain ⟨rfl, rfl⟩ := EStateM.Result.ok.inj (hrep.symm.trans (rep_of_value heval' hprint'))
      exact ⟨rfl, rfl⟩
    | trouble _ hrep' => cases hrep.symm.trans hrep'
  | trouble hne hrep hwords =>
    cases h' with
    | blank hline => exact absurd hline hne
    | value heval hprint => cases hrep.symm.trans (rep_of_value heval hprint)
    | trouble _ hrep' hwords' =>
      obtain ⟨rfl, rfl⟩ := EStateM.Result.error.inj (hrep.symm.trans hrep')
      obtain rfl := Option.some.inj (hwords.symm.trans hwords')
      exact ⟨rfl, rfl⟩

/-- A line is in no more than one trouble. -/
theorem Speechless.unique (h : Speechless w line t s) (h' : Speechless w line u s) : t = u := by
  obtain ⟨_, hrep, -⟩ := h
  obtain ⟨_, hrep', -⟩ := h'
  exact (EStateM.Result.error.inj (hrep.symm.trans hrep')).1

/-- What is answered is not left unanswered. -/
theorem Answered.not_speechless (h : Answered w line s a s') : ¬ Speechless w line t s := by
  rintro ⟨s₂, hrep, hwordless⟩
  cases h with
  | blank hline =>
    obtain ⟨rfl, rfl⟩ := EStateM.Result.error.inj (hrep.symm.trans (rep_of_blank w s hline))
    cases Trouble.message_eq_none_iff.2 hwordless
  | value heval hprint => cases hrep.symm.trans (rep_of_value heval hprint)
  | trouble _ hrep' hwords =>
    obtain ⟨rfl, rfl⟩ := EStateM.Result.error.inj (hrep.symm.trans hrep')
    cases hwords.symm.trans (Trouble.message_eq_none_iff.2 hwordless)

/-- **What there are no words for**: a text that is too deep to be read, a form in it that a message
has to show and that is too deep for that, a thrown value that does not print, and a crash, in
reading the text or in evaluating the form. -/
theorem speechless_iff :
    Speechless w line t s ↔
      (Reader.read w.depth line = .error .tooDeep ∧ t = .readTooDeep) ∨
      (∃ e, Reader.read w.depth line = .error (.error e) ∧ e.message w.depth = none ∧
        t = .unreadable e) ∨
      (∃ digits, Reader.read w.depth line = .error (.unconverted digits) ∧
        t = .failed (.crashed (.numeral digits))) ∨
      ∃ form failure s', Reader.read w.depth line = .ok form ∧
        Session.evalForm w topLevel form s = .error (.failed failure) s' ∧ t = .failed failure ∧
        ((∃ payload, failure = .thrown payload ∧
            payload.print s'.atoms .readable w.depth = none) ∨
          ∃ c, failure = .crashed c) := by
  constructor
  · rintro ⟨s', hrep, hwordless⟩
    rw [rep_apply] at hrep
    split at hrep
    · -- a value that does not print has a message
      split at hrep
      · cases hrep
      · cases hrep
        cases hwordless
    · rename_i heval
      obtain ⟨rfl, rfl⟩ := EStateM.Result.error.inj hrep
      rw [eval_apply] at heval
      split at heval
      · rename_i form hread
        obtain ⟨f, rfl⟩ := exists_of_evalForm_eq_error heval
        refine .inr (.inr (.inr ⟨form, f, _, hread, heval, rfl, ?_⟩))
        cases hwordless with
        | thrown h => exact .inl ⟨_, rfl, h⟩
        | crashed c => exact .inr ⟨c, rfl⟩
      · rename_i f hread
        cases heval
        match f, hread, hwordless with
        | .error e, hread, .unreadable h => exact .inr (.inl ⟨e, hread, h, rfl⟩)
        | .tooDeep, hread, _ => exact .inl ⟨hread, rfl⟩
        | .unconverted digits, hread, _ => exact .inr (.inr (.inl ⟨digits, hread, rfl⟩))
  · have hfault {f : ReadFault} (hread : Reader.read w.depth line = .error f) :
        Session.rep w line s = .error (.ofReadFault f) s := by
      rw [rep_apply, eval_apply, hread]
    rintro (⟨hread, rfl⟩ | ⟨e, hread, hmessage, rfl⟩ | ⟨digits, hread, rfl⟩ |
      ⟨form, failure, s', hread, heval, rfl, hwordless⟩)
    · exact ⟨s, hfault hread, .readTooDeep⟩
    · exact ⟨s, hfault hread, .unreadable hmessage⟩
    · exact ⟨s, hfault hread, .crashed _⟩
    · refine ⟨s', by simp only [rep_apply, eval_apply, hread, heval], ?_⟩
      obtain ⟨payload, rfl, hprint⟩ | ⟨c, rfl⟩ := hwordless
      · exact .thrown hprint
      · exact .crashed c

/-! ## What the loop shows -/

theorem worded_of_message {message : String} (h : t.message w s = some message) :
    worded w t s = .ok message := by
  rw [worded, h]

theorem worded_of_wordless (h : t.Wordless w s) : worded w t s = .error t := by
  rw [worded, Trouble.message_eq_none_iff.2 h]

theorem storeAfter_of_answered (h : Answered w line s a s') :
    storeAfter (Session.rep w line s) = s' := by
  cases h with
  | blank hline => rw [rep_of_blank w s hline, storeAfter]
  | value heval hprint => rw [rep_of_value heval hprint, storeAfter]
  | trouble _ hrep => rw [hrep, storeAfter]

/-- A trouble with a line that holds something is shown in its words. -/
theorem reply_of_trouble (hline : Token.scan line ≠ [])
    (hrep : Session.rep w line s = .error t s') :
    reply w (Session.rep w line s) =
      (worded w t s').map fun message ↦ s'.output ++ errorLine message := by
  have hne : t ≠ .unreadable .emptyInput := by
    rintro rfl
    exact hline (rep_eq_emptyInput_iff.1 hrep).1
  rw [hrep, reply]
  exact hne

/-- **What is shown for a line** is what it printed and its answer. -/
theorem reply_of_answered (h : Answered w line s a s') :
    reply w (Session.rep w line s) = .ok (s'.output ++ a.shown) := by
  cases h with
  | blank hline =>
    rw [rep_of_blank w s hline, reply, Answer.shown, String.append_empty]
  | value heval hprint =>
    rw [rep_of_value heval hprint, reply, Answer.shown, String.append_assoc]
  | trouble hline hrep hwords =>
    rw [reply_of_trouble hline hrep, worded_of_message hwords, Except.map, Answer.shown]

theorem reply_of_speechless (h : Speechless w line t s) :
    reply w (Session.rep w line s) = .error t := by
  obtain ⟨s', hrep, hwordless⟩ := h
  have hline : Token.scan line ≠ [] := fun hline ↦
    Answered.not_speechless (.blank hline) ⟨s', hrep, hwordless⟩
  rw [reply_of_trouble hline hrep, worded_of_wordless hwordless, Except.map]

end

/-- **Some lines and their answers, in order**: each line is taken in the store that the one before
it left, with nothing printed yet.  With each answer goes what the line printed. -/
inductive Conversation (w : World) :
    Store → List String → List (String × Answer) → Store → Prop
  | nil {s : Store} : Conversation w s [] [] s
  | cons {line : String} {rest : List String} {a : Answer} {answers : List (String × Answer)}
    {s s₁ s₂ : Store} (h : Answered w line { s with output := "" } a s₁)
    (hrest : Conversation w s₁ rest answers s₂) :
    Conversation w s (line :: rest) ((s₁.output, a) :: answers) s₂

/-- What a loop shows that has answered some lines and has come to the end of its input. -/
def spoken : List (String × Answer) → String
  | [] => prompt ++ "\n"
  | (printed, a) :: answers => prompt ++ (printed ++ a.shown) ++ spoken answers

section

variable {line : String} {lines : List String} {answers : List (String × Answer)} {t : Trouble}

theorem transcript_of_conversation (h : Conversation w s lines answers s') :
    transcript w lines s = .ok (spoken answers) := by
  induction h with
  | nil => rfl
  | cons h _ ih =>
    rw [transcript, takeLine, reply_of_answered h, storeAfter_of_answered h, ih]
    rfl

/-- A line that there is no answer to ends the loop with its trouble. -/
theorem transcript_of_speechless (after : List String) (h : Conversation w s lines answers s')
    (hline : Speechless w line t { s' with output := "" }) :
    transcript w (lines ++ line :: after) s = .error t := by
  induction h with
  | nil =>
    rw [List.nil_append, transcript, takeLine, reply_of_speechless hline]
    rfl
  | cons h _ ih =>
    rw [List.cons_append, transcript, takeLine, reply_of_answered h, storeAfter_of_answered h,
      ih hline]
    rfl

/-- **All lines are answered in order**, or all lines up to one that there is no answer to. -/
theorem conversation_or_speechless (w : World) (lines : List String) (s : Store) :
    (∃ answers s', Conversation w s lines answers s') ∨
      ∃ before line after answers t s', lines = before ++ line :: after ∧
        Conversation w s before answers s' ∧ Speechless w line t { s' with output := "" } := by
  induction lines generalizing s with
  | nil => exact .inl ⟨[], s, .nil⟩
  | cons line rest ih =>
    obtain ⟨a, s₁, h⟩ | ⟨t, hline⟩ := answered_or_speechless w line { s with output := "" }
    · obtain ⟨answers, s', hrest⟩ | ⟨before, line', after, answers, t, s', rfl, hrest, hline⟩ :=
        ih s₁
      · exact .inl ⟨_, s', .cons h hrest⟩
      · exact .inr ⟨line :: before, line', after, _, t, s', rfl, .cons h hrest, hline⟩
    · exact .inr ⟨[], line, rest, [], t, s, rfl, .nil, hline⟩

end

/-! ## A thrown value that does not print -/

/-- Whether a line has thrown an atom that holds itself. -/
def throwsEndless : Result String → Bool
  | .error (.failed (.thrown (.atom a))) s =>
    match s.atoms.content a with
    | .atom b => a == b
    | _ => false
  | _ => false

theorem exists_of_throwsEndless {r : Result String} (h : throwsEndless r = true) :
    ∃ a s', r = .error (.failed (.thrown (.atom a))) s' ∧ s'.atoms.content a = .atom a := by
  rw [throwsEndless.eq_def] at h
  split at h
  · rename_i a s'
    split at h
    · rename_i b hcontent
      obtain rfl : a = b := eq_of_beq h
      exact ⟨a, s', rfl, hcontent⟩
    · cases h
  · cases h

/-- There are no words for an atom that holds itself, however much is granted. -/
theorem speechless_of_throwsEndless {line : String} (hw : w.Grants w')
    (h : throwsEndless (Session.rep w line s) = true) :
    ∃ a, Speechless w' line (.failed (.thrown (.atom a))) s := by
  obtain ⟨a, s', hrep, hcontent⟩ := exists_of_throwsEndless h
  have hsettled : Session.Settled (Session.rep w line s) := by
    rw [hrep]
    trivial
  have hmore := Session.Growing.rep line hw s hsettled
  exact ⟨a, s', hmore.trans hrep, .thrown (Value.print_atom_eq_none hcontent w'.depth)⟩

/-! ## Whole runs -/

/-- A script succeeds, or is complained about, or there are no words for its trouble. -/
theorem scriptExit_cases (w : World) (r : Result Value) :
    (∃ v s', r = .ok v s' ∧ scriptExit w r = .ok ⟨0, s'.output, ""⟩) ∨
      (∃ t s' message, r = .error t s' ∧ t.message w s' = some message ∧
        scriptExit w r = .ok ⟨1, s'.output, errorLine message⟩) ∨
      ∃ t s', r = .error t s' ∧ t.Wordless w s' ∧ scriptExit w r = .error t := by
  cases r with
  | ok v s' => exact .inl ⟨v, s', rfl, rfl⟩
  | error t s' =>
    by_cases hwordless : t.Wordless w s'
    · refine .inr (.inr ⟨t, s', rfl, hwordless, ?_⟩)
      rw [scriptExit, worded_of_wordless hwordless, Except.map]
    · obtain ⟨message, hwords⟩ := Trouble.exists_message hwordless
      refine .inr (.inl ⟨t, s', message, rfl, hwords, ?_⟩)
      rw [scriptExit, worded_of_message hwords, Except.map]

/-- **A failing form takes the session down only if there are no words for its failure.**

Every line has exactly one answer, or it is in one trouble that there are no words for.  That is so
if reading it or wording what was wrong overflows, and if a numeral in it has more digits than are
converted or its evaluation crashes.  A loop answers all of its lines in order and then ends well,
or it answers them up to one that there are no words for, and ends with the trouble of that one.  A
script ends well or with one message, unless there are no words for its trouble.  To run out of
steps counts as a failure with words like any other. -/
theorem answers_in_order (w : World) :
    (∀ (line : String) (s : Store),
      ((∃! p : Answer × Store, Answered w line s p.1 p.2) ∧ (¬ ∃ t, Speechless w line t s) ∨
        (∃! t, Speechless w line t s) ∧ ¬ ∃ a s', Answered w line s a s') ∧
      ∀ t, Speechless w line t s ↔
        (Reader.read w.depth line = .error .tooDeep ∧ t = .readTooDeep) ∨
        (∃ e, Reader.read w.depth line = .error (.error e) ∧ e.message w.depth = none ∧
          t = .unreadable e) ∨
        (∃ digits, Reader.read w.depth line = .error (.unconverted digits) ∧
          t = .failed (.crashed (.numeral digits))) ∨
        ∃ form failure s', Reader.read w.depth line = .ok form ∧
          Session.evalForm w topLevel form s = .error (.failed failure) s' ∧ t = .failed failure ∧
          ((∃ payload, failure = .thrown payload ∧
              payload.print s'.atoms .readable w.depth = none) ∨
            ∃ c, failure = .crashed c)) ∧
    (∀ (source : PreludeSource) (input : String),
      (∃ t s, start w source [] {} = .error t s) ∨ ∃ s, start w source [] {} = .ok () s ∧
        ((∃ answers s', Conversation w s (Text.lines input) answers s' ∧
            run w source [] input = .ok (.ok ⟨0, s.output ++ spoken answers, ""⟩)) ∨
          ∃ before line after answers t s', Text.lines input = before ++ line :: after ∧
            Conversation w s before answers s' ∧ Speechless w line t { s' with output := "" } ∧
            run w source [] input = .ok (.error t))) ∧
    ∀ (source : PreludeSource) (path : String) (args : List String) (input : String),
      (∃ t s, start w source (path :: args) {} = .error t s) ∨
        ∃ s, start w source (path :: args) {} = .ok () s ∧
          ((∃ v s', Session.eval w (scriptText path) s = .ok v s' ∧
              run w source (path :: args) input = .ok (.ok ⟨0, s'.output, ""⟩)) ∨
            (∃ t s' message, Session.eval w (scriptText path) s = .error t s' ∧
              t.message w s' = some message ∧
              run w source (path :: args) input =
                .ok (.ok ⟨1, s'.output, errorLine message⟩)) ∨
            ∃ t s', Session.eval w (scriptText path) s = .error t s' ∧ t.Wordless w s' ∧
              run w source (path :: args) input = .ok (.error t)) := by
  refine ⟨fun line s ↦ ⟨?_, fun t ↦ speechless_iff⟩, fun source input ↦ ?_,
    fun source path args input ↦ ?_⟩
  · obtain ⟨a, s', h⟩ | ⟨t, h⟩ := answered_or_speechless w line s
    · refine .inl ⟨⟨(a, s'), h, fun p hp ↦ ?_⟩, fun ⟨t, ht⟩ ↦ h.not_speechless ht⟩
      obtain ⟨ha, hs⟩ := hp.unique h
      exact Prod.ext ha hs
    · exact .inr ⟨⟨t, h, fun u hu ↦ hu.unique h⟩, fun ⟨a, s', ha⟩ ↦ ha.not_speechless h⟩
  · cases hstart : start w source [] {} with
    | error t s => exact .inl ⟨t, s, rfl⟩
    | ok u s =>
      have hrun : run w source [] input = .ok ((transcript w (Text.lines input) s).map fun text ↦
          ⟨0, s.output ++ text, ""⟩) := by
        rw [run, hstart]
      refine .inr ⟨s, rfl, ?_⟩
      obtain ⟨answers, s', h⟩ | ⟨before, line, after, answers, t, s', hlines, h, hline⟩ :=
        conversation_or_speechless w (Text.lines input) s
      · refine .inl ⟨answers, s', h, ?_⟩
        rw [hrun, transcript_of_conversation h, Except.map]
      · refine .inr ⟨before, line, after, answers, t, s', hlines, h, hline, ?_⟩
        rw [hrun, hlines, transcript_of_speechless after h hline, Except.map]
  · cases hstart : start w source (path :: args) {} with
    | error t s => exact .inl ⟨t, s, rfl⟩
    | ok u s =>
      have hrun : run w source (path :: args) input =
          .ok (scriptExit w (Session.eval w (scriptText path) s)) := by
        rw [run, hstart]
      refine .inr ⟨s, rfl, ?_⟩
      rw [hrun]
      simp only [Except.ok.injEq]
      exact scriptExit_cases w (Session.eval w (scriptText path) s)

/-- An atom that holds itself is thrown, and the line behind it is not answered any more. -/
theorem loop_ends_at_endless_payload :
    ∃ a, run { disk := fun _ ↦ none } .absent []
        "(let* (a (atom nil)) (do (reset! a a) (throw a)))\n(+ 1 2)\n" =
      .ok (.error (.failed (.thrown (.atom a)))) := by
  let few : World := { disk := fun _ ↦ none, depth := 20, steps := 40 }
  let s : Store := Session.bare.define topLevel "*ARGV*" (.list none [])
  have hgrants : few.Grants { disk := fun _ ↦ none } := ⟨rfl, by decide, by decide⟩
  have hthrows : throwsEndless (Session.rep few
      "(let* (a (atom nil)) (do (reset! a a) (throw a)))" { s with output := "" }) = true := by
    decide +kernel
  obtain ⟨a, hline⟩ := speechless_of_throwsEndless hgrants hthrows
  have hends := transcript_of_speechless ["(+ 1 2)"] .nil hline
  have hlines : Text.lines "(let* (a (atom nil)) (do (reset! a a) (throw a)))\n(+ 1 2)\n" =
      ["(let* (a (atom nil)) (do (reset! a a) (throw a)))", "(+ 1 2)"] := by
    decide +kernel
  have hstart : start { disk := fun _ ↦ none } .absent [] {} = .ok () s := rfl
  refine ⟨a, ?_⟩
  rw [run, hstart]
  dsimp only
  rw [hlines]
  rw [List.nil_append] at hends
  rw [hends, Except.map]

end Repl

end Lisplet
