import Lisplet.Proofs.Extension
import Lisplet.Proofs.Program

/-!
# Loading files

The prelude defines `load-file` in the language itself: it reads the text of a file between the same
two pieces of text as a session puts a program between, and evaluates the form.  So a file is loaded
from inside exactly as a session loads its text from outside, wherever the call is made.

The proof runs the body of `load-file` inside out.  In the frame of the call the names of the
functions are seen as from the top level, because the only name bound there is another one
(`resolves_called`); reading the file, putting the text together and reading it have no effect, so
that they settle one after the other, and what is left is an evaluation at the top level
(`settles_loaderBody_iff`).
-/

set_option autoImplicit false

namespace Lisplet

namespace Store

variable {s : Store} {f g : FrameId} {name : String} {v : Value}

/-- The top level is outermost. -/
theorem outer?_top (s : Store) : s.outer? Session.topLevel = none :=
  Option.eq_none_iff_forall_ne_some.2 fun _ hg ↦ Nat.not_lt_zero _ (lt_of_outer? hg)

/-- A new frame is inside the one it is made for. -/
theorem outer?_addFrame_self (hg : g < s.frames.size) (vars : Dict String Value) :
    (s.addFrame (some g) vars).2.outer? s.frames.size = some g := by
  simp [outer?, addFrame, hg]

/-- From a frame that has nothing outside it, only its own names are seen. -/
theorem get?_of_outer?_eq_none (h : s.outer? f = none) (name : String) :
    s.get? f name = s.own? f name := by
  rw [get?, find?]
  cases hown : s.own? f name with
  | some v => simpa using hown
  | none =>
    rw [if_neg (by simp)]
    split
    · simp_all
    · rfl

/-- A name that a frame does not bind is seen from it as from the next frame. -/
theorem get?_of_outer? (hown : s.own? f name = none) (h : s.outer? f = some g) :
    s.get? f name = s.get? g name := by
  rw [get?, find?, hown, if_neg (by simp)]
  split
  · rename_i g' hg'
    obtain rfl := Option.some.inj (h.symm.trans hg')
    rfl
  · simp_all

/-- A frame from which something is seen is there. -/
theorem lt_size_of_get? (h : s.get? f name = some v) : f < s.frames.size := by
  refine Nat.lt_of_not_le fun hle ↦ ?_
  have hnone : s.frames[f]? = none := Array.getElem?_eq_none hle
  have houter : s.outer? f = none := by rw [outer?, hnone]; rfl
  have hown : s.own? f name = none := by rw [own?, hnone]; rfl
  rw [get?_of_outer?_eq_none houter, hown] at h
  cases h

theorem Resolves.lt_size {op : Builtin} (h : s.Resolves f op) : f < s.frames.size := by
  obtain ⟨v, home, hget, -⟩ := h
  exact lt_size_of_get? hget

end Store

/-- Without carriage returns there is nothing to unify. -/
theorem Text.unifyNewlines_eq_self {text : String} (h : '\r' ∉ text.toList) :
    unifyNewlines text = text := by
  have hfold (cs done : List Char) (hcs : '\r' ∉ cs) :
      cs.foldl unifyStep (done, false) = (cs.reverse ++ done, false) := by
    induction cs generalizing done with
    | nil => rfl
    | cons c cs ih =>
      rw [List.mem_cons, not_or] at hcs
      obtain ⟨hc, hcs⟩ := hcs
      have hstep : unifyStep (done, false) c = (c :: done, false) := by
        rw [unifyStep, if_neg (Ne.symm hc)]
        simp
      rw [List.foldl_cons, hstep, ih _ hcs]
      simp
  rw [unifyNewlines, hfold _ _ h]
  simp

/-- What is known of a file is that it holds a text, with its line endings read as line feeds. -/
def Disk.Gives (disk : Disk) (path text : String) : Prop :=
  disk.text? path = some text

/-- What a program fails with if a text that it reads is no form.  What is wrong with the text is an
error, in its own words as soon as there is room for them; a numeral that is not converted is a
crash inside as it is outside. -/
inductive ReadFault.Raises : ReadFault → Failure → Prop
  | error {e : ReadError} {message : String}
    (hmessage : ∃ enough, ∀ room, enough ≤ room → e.message room = some message) :
    Raises (.error e) (.error (.unreadable e) ("read-string: " ++ message))
  | unconverted (digits : Nat) : Raises (.unconverted digits) (.crashed (.numeral digits))

theorem ReadFault.exists_raises {source : String} {fault : ReadFault}
    (h : Reader.parse source = .error fault) : ∃ failure, fault.Raises failure := by
  obtain ⟨e, rfl, -⟩ | ⟨digits, rfl⟩ := Reader.parse_eq_error h
  · obtain ⟨enough, message, hmessage⟩ := e.exists_message
    exact ⟨_, .error ⟨enough, hmessage⟩⟩
  · exact ⟨_, .unconverted digits⟩

/-- An error that is worded in any room is raised in these words. -/
theorem ReadFault.Raises.eq_of_message {e : ReadError} {message : String} {failure : Failure}
    (h : (ReadFault.error e).Raises failure) (hmessage : ∀ room, e.message room = some message) :
    failure = .error (.unreadable e) ("read-string: " ++ message) := by
  cases h with
  | error hshown =>
    obtain ⟨enough, hshown⟩ := hshown
    have hsame := (hmessage enough).symm.trans (hshown enough (Nat.le_refl _))
    rw [Option.some.inj hsame]

namespace Prelude

open Session (topLevel programText)

variable {disk : Disk} {s : Store} {f : FrameId} {path text : String} {form : Value}
  {l : Option Label} {fault : ReadFault} {failure : Failure}
  {r : EStateM.Result Failure Store Value}

/-! ## The function -/

/-- The form of the text of the file `f`. -/
def fileText : Value := .list none [.sym "slurp", .sym "f"]

/-- The form of the program that the file `f` holds. -/
def fileProgram : Value := .list none [.sym "str", .str "(do ", fileText, .str "\nnil)"]

/-- The body of `load-file`. -/
def loaderBody : Value := .list none [.sym "eval", .list none [.sym "read-string", fileProgram]]

/-- The form that makes the function. -/
def loaderForm : Value := .list none [.sym "fn*", .list none [.sym "f"], loaderBody]

/-- The definition of `load-file`. -/
def loadingForm : Value := .list none [.sym "def!", .sym "load-file", loaderForm]

set_option maxRecDepth 4000 in
theorem parse_loading : Reader.parse loading = .ok loadingForm := by
  rfl

/-- The function that the prelude makes, under a serial number. -/
def loader (serial : Nat) : Value := .fn ⟨serial, ⟨["f"], none⟩, loaderBody, topLevel, false⟩

/-- Seen from `f`, `load-file` is bound as by the prelude, and seen from the top level the names of
the functions that it calls are bound to these. -/
structure Loads (s : Store) (f : FrameId) : Prop where
  loader : ∃ v serial, s.get? f "load-file" = some v ∧ v.bare = loader serial
  eval : s.Resolves topLevel .eval
  readString : s.Resolves topLevel .readString
  str : s.Resolves topLevel .str
  slurp : s.Resolves topLevel .slurp

/-- The store with `load-file` bound by the prelude. -/
def defined (s : Store) : Store := s.nextSerial.2.define topLevel "load-file" (loader s.serials)

/-- Evaluating the definition binds `load-file`, and does nothing else. -/
theorem settles_loadingForm : Settles disk (fun eng ↦ eng.eval topLevel loadingForm) s
    (.ok (loader s.serials) (defined s)) := by
  have hfn : Settles disk (fun eng ↦ eng.eval topLevel loaderForm) s
      (.ok (loader s.serials) s.nextSerial.2) :=
    settles_run_iff_value.2 (settles_of_forall trivial fun eng ↦ rfl)
  refine settles_run_iff_value.2 ((settles_bind_of_ok hfn).2 ?_)
  exact settles_of_forall trivial fun eng ↦ rfl

/-- What is seen from the top level is bound there. -/
theorem own?_of_resolves {op : Builtin} (h : s.Resolves topLevel op) :
    ∃ v home, s.own? topLevel op.name = some v ∧ v.bare = .builtin home op := by
  obtain ⟨v, home, hget, hv⟩ := h
  exact ⟨v, home, (Store.get?_of_outer?_eq_none s.outer?_top _).symm.trans hget, hv⟩

/-- A name bound at the top level hides no other one. -/
theorem get?_define {name name' : String} (hname : name ≠ name') (v : Value) :
    (s.nextSerial.2.define topLevel name' v).get? topLevel name = s.get? topLevel name := by
  rw [Store.get?_of_outer?_eq_none (Store.outer?_top _),
    Store.get?_of_outer?_eq_none s.outer?_top, Store.own?_define, if_neg (by simp [hname])]
  rfl

theorem resolves_define {op : Builtin} {name : String} (h : s.Resolves topLevel op)
    (hname : op.name ≠ name) (v : Value) :
    (s.nextSerial.2.define topLevel name v).Resolves topLevel op := by
  obtain ⟨w, home, hget, hw⟩ := h
  exact ⟨w, home, (get?_define hname v).trans hget, hw⟩

/-- What the prelude binds `load-file` to loads files. -/
theorem loads_defined (heval : s.Resolves topLevel .eval)
    (hreadString : s.Resolves topLevel .readString) (hstr : s.Resolves topLevel .str)
    (hslurp : s.Resolves topLevel .slurp) : Loads (defined s) topLevel where
  loader := by
    have htop := heval.lt_size
    refine ⟨loader s.serials, s.serials, Store.get?_of_own? ?_, rfl⟩
    rw [defined, Store.own?_define, if_pos ⟨rfl, htop, rfl⟩]
  eval := resolves_define heval (by decide) _
  readString := resolves_define hreadString (by decide) _
  str := resolves_define hstr (by decide) _
  slurp := resolves_define hslurp (by decide) _

/-- The store with the frame of a call of `load-file`. -/
def called (s : Store) (path : String) : Store :=
  (s.addFrame (some topLevel) ⟨[("f", .str path)]⟩).2

/-- A call of `load-file` evaluates its body in the frame of the call. -/
theorem settles_loadFile_iff (h : Loads s f) :
    Settles disk (fun eng ↦ eng.eval f (.list l [.sym "load-file", .str path])) s r ↔
      Settles disk (fun eng ↦ eng.eval s.frames.size loaderBody) (called s path) r := by
  obtain ⟨v, serial, hget, hv⟩ := h.loader
  have hpath : Settles disk (fun eng ↦ eng.eval f (.str path)) s (.ok (.str path) s) :=
    settles_itself fun eng ↦ rfl
  have hargs : Settles disk (fun eng ↦ [Value.str path].mapM (eng.eval f)) s
      (.ok [.str path] s) :=
    settles_args [(.str path, .str path)] (by simpa using hpath)
  have hform (eng : Engine) :
      Direct.value eng (.eval (.list l [.sym "load-file", .str path]) f) =
        Direct.combination eng f (.sym "load-file") [.str path] := rfl
  -- the function is looked up, its argument is its own value, and the call makes a frame
  refine settles_run_iff_value.trans ?_
  simp only [hform, Direct.combination]
  refine (settles_bind_of_ok (settles_name hget)).trans ?_
  simp only [hv, loader, Bool.false_eq_true, if_false]
  refine (settles_bind_of_ok hargs).trans ?_
  exact settles_bind_of_ok (settles_of_forall trivial fun eng ↦ rfl)

/-! ## The frame of the call -/

/-- Names other than `f` are seen from the frame of the call as from the top level. -/
theorem resolves_called {op : Builtin} (h : s.Resolves topLevel op) (hname : op.name ≠ "f") :
    (called s path).Resolves s.frames.size op := by
  have htop := h.lt_size
  obtain ⟨v, home, hown, hv⟩ := own?_of_resolves h
  have hnone : (called s path).own? s.frames.size op.name = none := by
    rw [called, Store.own?_addFrame, if_pos rfl]
    simp [Dict.get?, hname]
  have htopOwn : (called s path).own? topLevel op.name = some v := by
    rw [called, Store.own?_addFrame, if_neg (Nat.ne_of_lt htop)]
    exact hown
  refine ⟨v, home, ?_, hv⟩
  rw [Store.get?_of_outer? hnone (Store.outer?_addFrame_self htop _)]
  exact Store.get?_of_own? htopOwn

theorem topLevel_called (htop : topLevel < s.frames.size) :
    (called s path).topLevel s.frames.size = topLevel := by
  have houter := Store.outer?_addFrame_self htop ⟨[("f", Value.str path)]⟩
  rw [Store.topLevel]
  split
  · rename_i g hg
    obtain rfl := Option.some.inj (houter.symm.trans hg)
    exact Nat.le_zero.1 (Store.topLevel_le _ _)
  · rename_i hnone
    simp [called, houter] at hnone

/-! ## The functions that it calls -/

theorem slurp_of_gives (eng : Engine) (h : eng.disk.Gives path text) :
    Effect.slurp eng [.str path] = pure (.str text) := by
  have hpath : eng.lift (Builtin.one .slurp [.str path] >>= Builtin.text .slurp) = pure path := rfl
  have hread : Effect.readFile eng.disk path = pure (.ok text) := by
    obtain ⟨text', htext, hread⟩ | ⟨hnone, -⟩ := Effect.readFile_cases eng.disk path
    · obtain rfl := Option.some.inj (h.symm.trans htext)
      exact hread
    · cases h.symm.trans hnone
  rw [Effect.slurp, hpath, pure_bind, hread, pure_bind]

/-- Strings are put together as they are. -/
theorem settles_str (text : String) :
    Settles disk
      (fun eng ↦ Builtin.call eng f .str [.str "(do ", .str text, .str "\nnil)"]) s
      (.ok (.str (programText text)) s) := by
  refine ⟨trivial, 1, fun steps room _ hroom ↦ ?_⟩
  obtain ⟨room, rfl⟩ := Nat.exists_eq_add_of_le' hroom
  have hprint : Value.printAll s.atoms .display (room + 1) ""
      [.str "(do ", .str text, .str "\nnil)"] = some (programText text) := by
    change some ("(do " ++ "" ++ text ++ "" ++ "\nnil)") = _
    rw [String.append_empty, String.append_empty, programText]
  change Effect.toText (.granted disk steps (room + 1)) .display ""
    [.str "(do ", .str text, .str "\nnil)"] s = _
  simp only [Effect.toText, Engine.print, Engine.granted, bind_assoc, get_bind_apply, hprint]
  rfl

/-- A text is read as a form in all the room that is enough. -/
theorem settles_readString {source : String} (h : Reader.parse source = .ok form) :
    Settles disk (fun eng ↦ Builtin.call eng f .readString [.str source]) s
      (.ok form s) := by
  refine ⟨trivial, (Token.scan source).length, fun steps room _ hroom ↦ ?_⟩
  have hread := Reader.read_eq_parse (Reader.read_ne_tooDeep hroom)
  change Effect.readText (.granted disk steps room) source .unreadable s = _
  rw [Effect.readText, Engine.granted, hread, h]
  rfl

/-- What cannot be read is an error, which says why, or crashes. -/
theorem settles_readString_error {source : String} (h : Reader.parse source = .error fault)
    (hraises : fault.Raises failure) :
    Settles disk (fun eng ↦ Builtin.call eng f .readString [.str source]) s
      (.error failure s) := by
  cases hraises with
  | @error e message hmessage =>
    obtain ⟨enough, hmessage⟩ := hmessage
    refine ⟨trivial, max (Token.scan source).length enough, fun steps room _ hroom ↦ ?_⟩
    have hread := Reader.read_eq_parse
      (Reader.read_ne_tooDeep (Nat.le_trans (Nat.le_max_left _ _) hroom))
    have hm : (EvalError.unreadable e).message s.atoms room =
        some ("read-string: " ++ message) := by
      rw [EvalError.message, hmessage room (Nat.le_trans (Nat.le_max_right _ _) hroom)]
      rfl
    have hfail : Effect.readText (.granted disk steps room) source .unreadable =
        (Engine.granted disk steps room).fail (.unreadable e) := by
      rw [Effect.readText, Engine.granted, hread, h]
    change Effect.readText (.granted disk steps room) source .unreadable s = _
    rw [hfail, Engine.fail_apply, Engine.granted, hm]
    rfl
  | unconverted digits =>
    refine ⟨trivial, (Token.scan source).length, fun steps room _ hroom ↦ ?_⟩
    have hread := Reader.read_eq_parse (Reader.read_ne_tooDeep hroom)
    change Effect.readText (.granted disk steps room) source .unreadable s = _
    rw [Effect.readText, Engine.granted, hread, h]
    rfl

/-! ## Evaluating what a text is read as -/

/-- The form `(eval (read-string argument))`. -/
def readingForm (l l' : Option Label) (argument : Value) : Value :=
  .list l [.sym "eval", .list l' [.sym "read-string", argument]]

section

variable {argument : Value} {l' : Option Label} {source : String} (heval : s.Resolves f .eval)
  (hread : s.Resolves f .readString)
  (hargument : Settles disk (fun eng ↦ eng.eval f argument) s (.ok (.str source) s))

include heval hread hargument

/-- **What a text is read as is evaluated at the top level.** -/
theorem settles_readingForm_iff (hparse : Reader.parse source = .ok form) :
    Settles disk (fun eng ↦ eng.eval f (readingForm l l' argument)) s r ↔
      Settles disk (fun eng ↦ eng.eval (s.topLevel f) form) s r := by
  have hform : Settles disk (fun eng ↦ eng.eval f (.list l' [.sym "read-string", argument])) s
      (.ok form s) :=
    (settles_call_of_args [(argument, .str source)] hread (by simpa using hargument)).2
      (settles_readString hparse)
  refine (settles_call_of_args [(.list l' [.sym "read-string", argument], form)] heval
    (by simpa using hform)).trans ?_
  have hcall (eng : Engine) : Builtin.call eng f .eval [form] s =
      eng.eval (s.topLevel f) form s := rfl
  simp only [Settles, List.map_cons, List.map_nil, hcall]

/-- What cannot be read is not evaluated. -/
theorem settles_readingForm_error (hparse : Reader.parse source = .error fault)
    (hraises : fault.Raises failure) :
    Settles disk (fun eng ↦ eng.eval f (readingForm l l' argument)) s (.error failure s) := by
  have hfails : Settles disk (fun eng ↦ eng.eval f (.list l' [.sym "read-string", argument])) s
      (.error failure s) :=
    (settles_call_of_args [(argument, .str source)] hread (by simpa using hargument)).2
      (settles_readString_error hparse hraises)
  refine (settles_call_iff heval).2 (settles_bind_of_error ?_)
  simp only [List.mapM_cons, List.mapM_nil]
  exact settles_bind_of_error hfails

end

/-! ## The body -/

section

variable (h : Loads s f) (hfile : disk.Gives path text)

include h hfile

theorem settles_fileText : Settles disk (fun eng ↦ eng.eval s.frames.size fileText)
    (called s path) (.ok (.str text) (called s path)) := by
  have hpath : (called s path).get? s.frames.size "f" = some (.str path) :=
    Store.get?_of_own? (by rw [called, Store.own?_addFrame, if_pos rfl]; rfl)
  refine (settles_call_of_args [(.sym "f", .str path)] (resolves_called h.slurp (by decide))
    (by simpa using settles_name hpath)).2 ⟨trivial, 0, fun steps room _ _ ↦ ?_⟩
  exact congrFun (slurp_of_gives (.granted disk steps room) hfile) _

theorem settles_fileProgram : Settles disk (fun eng ↦ eng.eval s.frames.size fileProgram)
    (called s path) (.ok (.str (programText text)) (called s path)) := by
  have hstring (text : String) : Settles disk
      (fun eng ↦ eng.eval s.frames.size (.str text)) (called s path)
      (.ok (.str text) (called s path)) :=
    settles_itself fun eng ↦ rfl
  refine (settles_call_of_args
    [(.str "(do ", .str "(do "), (fileText, .str text), (.str "\nnil)", .str "\nnil)")]
    (resolves_called h.str (by decide)) ?_).2 (settles_str text)
  simpa using ⟨hstring _, settles_fileText h hfile, hstring _⟩

/-- **The body evaluates at the top level what the file is read as.** -/
theorem settles_loaderBody_iff (hparse : Reader.parse (programText text) = .ok form) :
    Settles disk (fun eng ↦ eng.eval s.frames.size loaderBody) (called s path) r ↔
      Settles disk (fun eng ↦ eng.eval topLevel form) (called s path) r := by
  rw [← topLevel_called h.eval.lt_size]
  exact settles_readingForm_iff (resolves_called h.eval (by decide))
    (resolves_called h.readString (by decide)) (settles_fileProgram h hfile) hparse

/-- The body fails if the text of the file cannot be read. -/
theorem settles_loaderBody_error (hparse : Reader.parse (programText text) = .error fault)
    (hraises : fault.Raises failure) :
    Settles disk (fun eng ↦ eng.eval s.frames.size loaderBody) (called s path)
      (.error failure (called s path)) :=
  settles_readingForm_error (resolves_called h.eval (by decide))
    (resolves_called h.readString (by decide)) (settles_fileProgram h hfile) hparse hraises

end

end Prelude

/-! ## Loading from inside and from outside -/

namespace Session

open Prelude (Loads called defined settles_loadFile_iff settles_loaderBody_iff
  settles_loaderBody_error)

/-- **The prelude defines `load-file`**: loading the definition binds the name, and does nothing
else. -/
theorem settles_load_loading (disk : Disk) (s : Store) :
    Settles disk (fun w ↦ load w Prelude.loading) s (.ok () (defined s)) := by
  have hforms := Forms.single (Reader.parse_eq_ok_iff.1 Prelude.parse_loading)
  refine (settles_load_iff hforms).2 (settles_evalForms_iff.2 ⟨.ok () (defined s), rfl, ?_⟩)
  simp only [List.forM, discard_eq_bind, bind_assoc]
  exact (settles_bind_of_ok Prelude.settles_loadingForm).2 (settles_pure _)

/-- **Loading agrees inside and outside.**  A session loads a program of complete forms by
evaluating them at the top level one after the other, up to the first failure.  Whatever a program
holds, it either is read as one form, which a session evaluates at the top level, or cannot be read,
which a session complains about, or crashes at, and does nothing else.  And wherever `load-file` is
called with the path of a file that holds the program, the call makes a frame and then does the
same: it ends exactly as the evaluation of that form at the top level, or fails with what is wrong
with the program, or crashes. -/
theorem load_agrees (disk : Disk) (text : String) (s : Store) :
    (∀ forms, Forms (Token.scan text) forms → ∀ r,
      Settles disk (fun w ↦ load w text) s r ↔ Settles disk (fun w ↦ evalForms w forms) s r) ∧
    ((∃ form, Reader.parse (programText text) = .ok form ∧
        (∀ r, Settles disk (fun w ↦ load w text) s r ↔
          Settles disk (fun w ↦ discard (evalForm w topLevel form)) s r) ∧
        ∀ (f : FrameId) (path : String), Loads s f → disk.Gives path text → ∀ l r,
          Evaluates disk (.eval (.list l [.sym "load-file", .str path]) f) s r ↔
            Evaluates disk (.eval form topLevel) (called s path) r) ∨
      ∃ fault failure, Reader.parse (programText text) = .error fault ∧ fault.Raises failure ∧
        Settles disk (fun w ↦ load w text) s (.error (.ofReadFault fault) s) ∧
        ∀ (f : FrameId) (path : String), Loads s f → disk.Gives path text → ∀ l,
          Evaluates disk (.eval (.list l [.sym "load-file", .str path]) f) s
            (.error failure (called s path))) := by
  refine ⟨fun forms h r ↦ settles_load_iff h, ?_⟩
  cases hparse : Reader.parse (programText text) with
  | ok form =>
    refine .inl ⟨form, rfl, fun r ↦ settles_load_iff_of_parse hparse,
      fun f path h hfile l r ↦ ?_⟩
    exact (settles_loadFile_iff h).trans (settles_loaderBody_iff h hfile hparse)
  | error fault =>
    obtain ⟨failure, hraises⟩ := ReadFault.exists_raises hparse
    refine .inr ⟨fault, failure, rfl, hraises, settles_load_of_parse_error hparse,
      fun f path h hfile l ↦ ?_⟩
    exact (settles_loadFile_iff h).2 (settles_loaderBody_error h hfile hparse hraises)

/-- With `load-file` bound by the prelude, a file of two forms is loaded, and one that ends too soon
is complained about. -/
theorem load_agrees_two :
    let s₀ := (({} : Store).addFrame none
      ⟨[Builtin.eval, .readString, .str, .slurp].map fun op ↦ (op.name, .builtin 0 op)⟩).2
    let s := defined s₀
    let disk (content : String) : Disk := fun _ ↦ some (.text content)
    (∀ content, Settles (disk content) (fun w ↦ load w Prelude.loading) s₀ (.ok () s)) ∧
      Loads s topLevel ∧
      (Forms (Token.scan "1 2") [.int 1, .int 2] ∧ (disk "1 2").Gives "a" "1 2" ∧
        Settles (disk "1 2") (fun w ↦ load w "1 2") s (.ok () s) ∧
        Evaluates (disk "1 2") (.eval (.list none [.sym "load-file", .str "a"]) topLevel) s
          (.ok .nil (called s "a"))) ∧
      (disk "(").Gives "a" "(" ∧
      Settles (disk "(") (fun w ↦ load w "(") s
        (.error (.unreadable (.unexpectedEnd (some .round))) s) ∧
      Evaluates (disk "(") (.eval (.list none [.sym "load-file", .str "a"]) topLevel) s
        (.error (.error (.unreadable (.unexpectedEnd (some .round)))
          ("read-string: " ++ ("expected " ++ Text.inspect Bracket.round.closer ++
            " before end of input"))) (called s "a")) := by
  intro s₀ s disk
  have hresolves {op : Builtin} (hown : s₀.own? topLevel op.name = some (.builtin 0 op)) :
      s₀.Resolves topLevel op := ⟨.builtin 0 op, 0, Store.get?_of_own? hown, rfl⟩
  have hloads : Loads s topLevel :=
    Prelude.loads_defined (hresolves rfl) (hresolves rfl) (hresolves rfl) (hresolves rfl)
  have hone : Form (Token.scan "1") (.int 1) := Reader.parse_eq_ok_iff.1 rfl
  have htwo : Form (Token.scan "2") (.int 2) := Reader.parse_eq_ok_iff.1 rfl
  have hforms : Forms (Token.scan "1 2") [.int 1, .int 2] :=
    (Forms.single hone).append (.single htwo)
  have hplain : Path.isPlain "a" = true := by decide
  have hgives : (disk "1 2").Gives "a" "1 2" := if_pos hplain
  have hunread : (disk "(").Gives "a" "(" := if_pos hplain
  have hint (n : Int) (s : Store) : Lisplet.Settles (disk "1 2")
      (fun eng ↦ discard (eng.eval topLevel (.int n))) s (.ok () s) := by
    simp only [discard_eq_bind]
    exact (settles_bind_of_ok (settles_itself fun eng ↦ rfl)).2 (settles_pure _)
  have hboth (s : Store) : Lisplet.Settles (disk "1 2")
      (fun eng ↦ [Value.int 1, .int 2].forM fun form ↦ discard (eng.eval topLevel form)) s
      (.ok () s) :=
    (settles_bind_of_ok (hint 1 s)).2 ((settles_bind_of_ok (hint 2 s)).2 (settles_pure _))
  refine ⟨fun content ↦ settles_load_loading (disk content) s₀, hloads,
    ⟨hforms, hgives, ?_, ?_⟩, hunread, ?_⟩
  · exact ((load_agrees _ "1 2" s).1 _ hforms _).2 (settles_evalForms_iff.2 ⟨_, rfl, hboth s⟩)
  · obtain ⟨form, hform, -, hload⟩ | ⟨fault, failure, hfault, -⟩ :=
      (load_agrees (disk "1 2") "1 2" s).2
    · obtain rfl := Except.ok.inj ((parse_programText hforms).symm.trans hform)
      exact (hload topLevel "a" hloads hgives none _).2
        (settles_sequenceOf_iff.2 ((settles_bind_of_ok (hboth _)).2 (settles_pure _)))
    · exact absurd ((parse_programText hforms).symm.trans hfault) (by simp)
  · have hend : Reader.parse (programText "(") =
        .error (.error (.unexpectedEnd (some .round))) := rfl
    obtain ⟨form, hform, -⟩ | ⟨fault, failure, hfault, hraises, hload, hcall⟩ :=
      (load_agrees (disk "(") "(" s).2
    · exact absurd (hend.symm.trans hform) (by simp)
    · obtain rfl := Except.error.inj (hend.symm.trans hfault)
      obtain rfl := hraises.eq_of_message fun _ ↦ rfl
      exact ⟨hload, hcall topLevel "a" hloads hunread none⟩

/-- A file of one numeral, zero in 4301 digits, is loaded neither from inside nor from outside:
both crash, where there is no error to tell of it. -/
theorem loading_crashes_at_zeros :
    let zeros := String.ofList (List.replicate 4301 '0')
    let disk : Disk := fun _ ↦ some (.text zeros)
    let s := defined bare
    Settles disk (fun w ↦ load w Prelude.loading) bare (.ok () s) ∧ Loads s topLevel ∧
      disk.Gives "z" zeros ∧
      Settles disk (fun w ↦ load w zeros) s (.error (.failed (.crashed (.numeral 4301))) s) ∧
      Evaluates disk (.eval (.list none [.sym "load-file", .str "z"]) topLevel) s
        (.error (.crashed (.numeral 4301)) (called s "z")) := by
  intro zeros disk s
  have hloads : Loads s topLevel := Prelude.loads_defined (resolves_bare .eval)
    (resolves_bare .readString) (resolves_bare .str) (resolves_bare .slurp)
  have hscan : Token.scan zeros = [⟨.atom, zeros⟩] := Numeral.scan_zeros 4300
  have hunified : Text.unifyNewlines zeros = zeros := by
    refine Text.unifyNewlines_eq_self fun hmem ↦ ?_
    rw [String.toList_ofList] at hmem
    exact absurd (List.eq_of_mem_replicate hmem) (by decide)
  have hplain : Path.isPlain "z" = true := by decide
  have hgives : disk.Gives "z" zeros := (if_pos hplain).trans (congrArg some hunified)
  have hparse : Reader.parse (programText zeros) = .error (.unconverted 4301) :=
    parse_programText_of_unconverted hscan (by simp [hscan]) .nil
      (Numeral.unconverted_token (Nat.le_refl _))
  have hbody := settles_loaderBody_error hloads hgives hparse (.unconverted 4301)
  exact ⟨settles_load_loading disk bare, hloads, hgives, settles_load_of_parse_error hparse,
    (settles_loadFile_iff hloads).2 hbody⟩

end Session

end Lisplet
