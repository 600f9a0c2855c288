import Lisplet.Proofs.Grammar
import Lisplet.Proofs.Limit
import Lisplet.Proofs.Lines
import Lisplet.Proofs.Session
import Lisplet.Session

/-!
# Programs

A program holds any number of forms, but a session evaluates it as one: its text is put between two
pieces of text that make a sequence of it.  That this is the same as evaluating the forms one after
the other is shown here in three parts.

* **The text is read as the forms.**  What the program ends in must not run on into the text behind
  it.  The line feed there ends a comment and a word, and there is no open string
  (`Token.Mode.scan_append_line`), so the tokens are those of the program with a few around them
  (`Token.scan_programText`), and the grammar knows what these write (`parse_programText`).
* **The sequence evaluates the forms.**  This is what the rule for sequences says, except that the
  last form of a sequence is evaluated in its place; the last one here is `nil`
  (`Session.settles_sequenceOf_iff`).
* **A session does nothing else** (`Session.settles_load_iff`).  What a session comes to is said as
  for evaluations, by what it comes to when enough depth and steps are allowed
  (`Session.Settles`).
-/

set_option autoImplicit false

namespace Lisplet

/-! ## The text of a program -/

namespace Token

/-- A program starts with the bracket and the word in front of it. -/
theorem scan_programText_eq (text : String) : scan (Session.programText text) =
    ofMark "(" :: ⟨.atom, "do"⟩ :: Mode.idle.scan (text.toList ++ "\nnil)".toList) := by
  rw [scan_eq, Session.programText, String.toList_append, String.toList_append, List.append_assoc]
  rfl

theorem scan_programText {text : String} (h : ∀ t ∈ scan text, t.kind ≠ .error) :
    scan (Session.programText text) =
      ofMark "(" :: ([⟨.atom, "do"⟩] ++ scan text ++ [⟨.atom, "nil"⟩] ++ [ofMark ")"]) := by
  have hclose : Mode.idle.scan ['n', 'i', 'l', ')'] = [⟨.atom, "nil"⟩, ofMark ")"] := rfl
  have hline : "\nnil)".toList = '\n' :: ['n', 'i', 'l', ')'] := rfl
  have hopen : unclosed ∉ scan text := fun hmem ↦ h _ hmem rfl
  rw [scan_eq] at hopen
  rw [scan_programText_eq, hline, Mode.scan_append_line hopen, hclose, scan_eq]
  simp

end Token

/-- No form holds a complaint. -/
theorem Form.kind_ne_error {ts : List Token} {v : Value} (h : Form ts v) :
    ∀ t ∈ ts, t.kind ≠ .error := by
  induction h with
  | string | keyword | word => simp
  | mark m h ih => exact List.forall_mem_cons.2 ⟨by simp [Token.ofMark], ih⟩
  | metadata hdata hv ihdata ihv =>
    exact List.forall_mem_cons.2 ⟨by simp [Token.ofMark], List.forall_mem_append.2 ⟨ihdata, ihv⟩⟩
  | group b hparts hv ih =>
    refine List.forall_mem_cons.2 ⟨by simp [Token.ofMark], List.forall_mem_append.2 ⟨?_, ?_⟩⟩
    · intro t ht
      obtain ⟨p, hp, ht⟩ := List.mem_flatMap.1 ht
      exact ih p hp t ht
    · simp [Token.ofMark]

theorem Forms.kind_ne_error {ts : List Token} {vs : List Value} (h : Forms ts vs) :
    ∀ t ∈ ts, t.kind ≠ .error := by
  obtain ⟨parts, hparts, rfl, -⟩ := h
  intro t ht
  obtain ⟨p, hp, ht⟩ := List.mem_flatMap.1 ht
  exact (hparts p hp).kind_ne_error t ht

/-- The sequence of some forms, and `nil`. -/
def sequenceOf (forms : List Value) : Value := .list none (.sym "do" :: (forms ++ [.nil]))

theorem denotes_do : Denotes "do" (.sym "do") :=
  .name rfl (by decide) (by decide) (by decide)

/-- **The text of a program of complete forms is read as the sequence of these.** -/
theorem parse_programText {text : String} {forms : List Value}
    (h : Forms (Token.scan text) forms) :
    Reader.parse (Session.programText text) = .ok (sequenceOf forms) := by
  have hnil : Form [⟨.atom, "nil"⟩] .nil := .word .nil
  have hforms := ((Forms.single (.word denotes_do)).append h).append (.single hnil)
  rw [Reader.parse_eq_ok_iff, Token.scan_programText h.kind_ne_error]
  exact hforms.enclosed (b := .round) (.list _)

/-- **Reading a program gives up at a numeral that is not converted**, behind some complete
forms. -/
theorem parse_programText_of_unconverted {text : String} {us after : List Token} {t : Token}
    {vs : List Value} {digits : Nat} (hscan : Token.scan text = us ++ t :: after)
    (herror : ∀ u ∈ Token.scan text, u.kind ≠ .error) (hus : Forms us vs)
    (ht : t.Unconverted digits) :
    Reader.parse (Session.programText text) = .error (.unconverted digits) := by
  have hitems : Forms ([⟨.atom, "do"⟩] ++ us) (Value.sym "do" :: vs).reverse.reverse := by
    rw [List.reverse_reverse]
    exact (Forms.single (.word denotes_do)).append hus
  have hopened := Reader.Opened.group (b := .round) .nil hitems
  rw [Reader.parse_eq_unconverted_iff, Token.scan_programText herror, hscan]
  refine ⟨_, t, after ++ [⟨.atom, "nil"⟩] ++ [Token.ofMark ")"], _, ?_, hopened, ht⟩
  simp [Bracket.opener]

/-! ## What a session settles in -/

namespace Session

variable {α β : Type} {disk : Disk} {s : Store}

/-- A computation of a session has ended for good unless it ran out of depth or of steps. -/
def Settled : EStateM.Result Trouble Store α → Prop
  | .error (.failed .overflow) _ | .error (.failed .exhausted) _ | .error .readTooDeep _
  | .error .printTooDeep _ => False
  | _ => True

/-- **A computation of a session settles** in `r` if it ends so whenever enough depth and steps are
allowed. -/
def Settles (disk : Disk) (x : World → Session α) (s : Store)
    (r : EStateM.Result Trouble Store α) : Prop :=
  Settled r ∧ ∃ enough, ∀ w : World, w.disk = disk → enough ≤ w.depth → enough ≤ w.steps →
    x w s = r

/-- What a session takes the end of an evaluation for. -/
def performed : EStateM.Result Failure Store α → EStateM.Result Trouble Store α
  | .ok a s => .ok a s
  | .error f s => .error (.failed f) s

theorem perform_apply (x : Eval α) (s : Store) : perform x s = performed (x s) := by
  rw [perform]
  cases x s <;> rfl

theorem performed_injective {q q' : EStateM.Result Failure Store α}
    (h : performed q = performed q') : q = q' := by
  cases q with
  | ok a s =>
    cases q' with
    | ok a' s' => simpa [performed] using h
    | error f' s' => simp [performed] at h
  | error f s =>
    cases q' with
    | ok a' s' => simp [performed] at h
    | error f' s' => simpa [performed] using h

theorem settled_performed {q : EStateM.Result Failure Store α} :
    Settled (performed q) ↔ Lisplet.Settled q := by
  cases q with
  | ok a s => exact Iff.rfl
  | error f s => cases f <;> exact Iff.rfl

/-- Evaluations in sequence are performed one after the other. -/
theorem perform_bind (x : Eval α) (f : α → Eval β) :
    perform (x >>= f) = perform x >>= fun a ↦ perform (f a) := by
  funext s
  simp only [perform_apply, Bind.bind, EStateM.bind]
  cases x s with
  | ok a s₁ => exact (perform_apply (f a) s₁).symm
  | error e s₁ => rfl

/-- What is performed settles where the evaluation does. -/
theorem settles_perform_iff {x : Engine → Eval α} {r : EStateM.Result Trouble Store α} :
    Settles disk (fun w ↦ perform (x (engine w))) s r ↔
      ∃ q, r = performed q ∧ Lisplet.Settles disk x s q := by
  constructor
  · rintro ⟨hr, n, h⟩
    have hperformed (steps room : Nat) (hsteps : n ≤ steps) (hroom : n ≤ room) :
        performed (x (.granted disk steps room) s) = r := by
      rw [← perform_apply]
      exact h ⟨disk, room, steps⟩ rfl hroom hsteps
    have hn := hperformed n n (Nat.le_refl n) (Nat.le_refl n)
    refine ⟨_, hn.symm, settled_performed.1 (hn ▸ hr), n, fun steps room hsteps hroom ↦ ?_⟩
    exact performed_injective ((hperformed steps room hsteps hroom).trans hn.symm)
  · rintro ⟨q, rfl, hq, n, h⟩
    refine ⟨settled_performed.2 hq, n, fun w hw hdepth hsteps ↦ ?_⟩
    subst hw
    exact (perform_apply _ s).trans (congrArg performed (h w.steps w.depth hsteps hdepth))

theorem settles_perform_congr {x y : Engine → Eval α} {r : EStateM.Result Trouble Store α}
    (h : ∀ q, Lisplet.Settles disk x s q ↔ Lisplet.Settles disk y s q) :
    Settles disk (fun w ↦ perform (x (engine w))) s r ↔
      Settles disk (fun w ↦ perform (y (engine w))) s r := by
  simp only [settles_perform_iff, h]

/-! ## The start of a session -/

/-- The top level of a session that has just started binds every built-in function. -/
theorem resolves_bare (op : Builtin) : bare.Resolves topLevel op := by
  let pairs := Builtin.all.map fun b ↦ (b.name, Value.builtin topLevel b)
  have hnodup : (pairs.map Prod.fst).Nodup := by
    simp only [pairs, List.map_map, Function.comp_def]
    decide
  have hmem : (op.name, Value.builtin topLevel op) ∈ pairs := List.mem_map_of_mem op.mem_all
  have hown : bare.own? topLevel op.name = (Dict.ofList pairs).get? op.name :=
    (Store.own?_addFrame {} none (.ofList pairs) topLevel op.name).trans (if_pos rfl)
  refine ⟨.builtin topLevel op, topLevel, Store.get?_of_own? ?_, rfl⟩
  rw [hown, Dict.ofList_of_nodup hnodup]
  exact Dict.get?_of_mem_entries hnodup hmem

/-! ## Forms in sequence -/

/-- Evaluates forms at the top level, one after the other, up to the first failure. -/
def evalForms (w : World) (forms : List Value) : Session Unit :=
  forms.forM fun form ↦ discard (evalForm w topLevel form)

theorem perform_discard (x : Eval α) : perform (discard x) = discard (perform x) := by
  rw [discard_eq_bind, discard_eq_bind, perform_bind]
  rfl

theorem evalForms_eq_perform (w : World) (forms : List Value) :
    evalForms w forms =
      perform (forms.forM fun form ↦ discard ((engine w).eval topLevel form)) := by
  induction forms with
  | nil => rfl
  | cons form forms ih =>
    rw [List.forM, perform_bind, perform_discard, ← ih]
    rfl

theorem settles_evalForms_iff {forms : List Value} {r : EStateM.Result Trouble Store PUnit} :
    Settles disk (fun w ↦ evalForms w forms) s r ↔
      ∃ q, r = performed q ∧ Lisplet.Settles disk
        (fun eng ↦ forms.forM fun form ↦ discard (eng.eval topLevel form)) s q := by
  simp only [evalForms_eq_perform]
  exact settles_perform_iff
    (x := fun eng ↦ forms.forM fun form ↦ discard (eng.eval topLevel form))

/-- A sequence that ends in `nil` evaluates its forms, and then nothing more. -/
theorem sequence_append_nil (eng : Engine) (scope : FrameId) (forms : List Value) :
    Direct.sequence eng scope (forms ++ [.nil]) =
      (forms.forM fun form ↦ discard (eng.eval scope form)) >>= fun _ ↦ eng.eval scope .nil := by
  induction forms with
  | nil => rfl
  | cons form forms ih =>
    obtain ⟨next, rest, hrest⟩ : ∃ next rest, forms ++ [.nil] = next :: rest :=
      List.exists_cons_of_ne_nil (by simp)
    rw [List.forM, bind_assoc, ← ih, List.cons_append, hrest, Direct.sequence]
    simp

theorem growing_forms (forms : List Value) : Growing disk fun eng ↦
    forms.forM fun form ↦ discard (eng.eval topLevel form) :=
  .forM (fun form ↦ by
    simp only [discard_eq_bind]
    exact .bind (.eval topLevel form) fun _ ↦ .const _) forms

/-- **The sequence of some forms is their evaluation one after the other**, and its value is
`nil`. -/
theorem settles_sequenceOf_iff {forms : List Value} {q : EStateM.Result Failure Store Value} :
    Lisplet.Settles disk (fun eng ↦ eng.eval topLevel (sequenceOf forms)) s q ↔
      Lisplet.Settles disk (fun eng ↦ do
        forms.forM fun form ↦ discard (eng.eval topLevel form)
        return .nil) s q := by
  calc Lisplet.Settles disk (fun eng ↦ eng.eval topLevel (sequenceOf forms)) s q
      ↔ Lisplet.Settles disk (fun eng ↦ Direct.sequence eng topLevel (forms ++ [.nil])) s q :=
        settles_run_iff_value
    _ ↔ Lisplet.Settles disk (fun eng ↦
          (forms.forM fun form ↦ discard (eng.eval topLevel form)) >>= fun _ ↦
            eng.eval topLevel .nil) s q := by
        simp only [sequence_append_nil]
    _ ↔ _ := settles_bind_congr (growing_forms forms) (growing_forms forms)
        (fun _ ↦ Iff.rfl) fun _ s₁ _ ↦ settles_itself_iff fun eng ↦ rfl

/-! ## Loading a text -/

variable {text : String} {form : Value} {r : EStateM.Result Trouble Store PUnit}

/-- Computations that come to the same when enough is allowed settle alike. -/
theorem Settles.congr {x y : World → Session α} {r : EStateM.Result Trouble Store α}
    (h : Settles disk x s r)
    (hxy : ∃ enough, ∀ w : World, enough ≤ w.depth → y w s = x w s) : Settles disk y s r := by
  obtain ⟨hr, m, hm⟩ := h
  obtain ⟨n, hn⟩ := hxy
  refine ⟨hr, max m n, fun w hw hdepth hsteps ↦ ?_⟩
  rw [hn w (Nat.le_trans (Nat.le_max_right m n) hdepth)]
  exact hm w hw (Nat.le_trans (Nat.le_max_left m n) hdepth)
    (Nat.le_trans (Nat.le_max_left m n) hsteps)

/-- What is read is what the text is with room for all of its tokens. -/
theorem read_eq_of_parse {w : World} {source : String}
    (hw : (Token.scan source).length ≤ w.depth) (h : Reader.parse source = .ok form) :
    read w source = pure form := by
  rw [read, Reader.read_eq_parse (Reader.read_ne_tooDeep hw), h]

theorem read_eq_of_parse_error {w : World} {source : String} {fault : ReadFault}
    (hw : (Token.scan source).length ≤ w.depth) (h : Reader.parse source = .error fault) :
    read w source = throw (.ofReadFault fault) := by
  rw [read, Reader.read_eq_parse (Reader.read_ne_tooDeep hw), h]

theorem evalIn_eq_of_parse {w : World} {scope : FrameId} {source : String}
    (hw : (Token.scan source).length ≤ w.depth) (h : Reader.parse source = .ok form) :
    evalIn w scope source = evalForm w scope form := by
  rw [evalIn, read_eq_of_parse hw h, pure_bind]

theorem evalIn_eq_of_parse_error {w : World} {scope : FrameId} {source : String}
    {fault : ReadFault} (hw : (Token.scan source).length ≤ w.depth)
    (h : Reader.parse source = .error fault) :
    evalIn w scope source = throw (.ofReadFault fault) := by
  rw [evalIn, read_eq_of_parse_error hw h]
  rfl

/-- What is not read is not read in any greater room either. -/
theorem settled_ofReadFault {source : String} {fault : ReadFault}
    (h : Reader.parse source = .error fault) :
    Settled (.error (.ofReadFault fault) s : EStateM.Result Trouble Store α) := by
  obtain ⟨e, rfl, -⟩ | ⟨digits, rfl⟩ := Reader.parse_eq_error h
  · trivial
  · trivial

/-- **Evaluating a text that is read as a form** is evaluating the form. -/
theorem settles_evalIn_iff {scope : FrameId} {source : String}
    {r : EStateM.Result Trouble Store Value} (h : Reader.parse source = .ok form) :
    Settles disk (fun w ↦ evalIn w scope source) s r ↔
      ∃ q, r = performed q ∧ Lisplet.Settles disk (fun eng ↦ eng.eval scope form) s q := by
  rw [← settles_perform_iff]
  exact ⟨fun hs ↦ hs.congr ⟨_, fun w hw ↦ by rw [evalIn_eq_of_parse hw h, evalForm]⟩,
    fun hs ↦ hs.congr ⟨_, fun w hw ↦ by rw [evalIn_eq_of_parse hw h, evalForm]⟩⟩

/-- A text that cannot be read is not evaluated. -/
theorem settles_evalIn_of_parse_error {scope : FrameId} {source : String} {fault : ReadFault}
    (h : Reader.parse source = .error fault) :
    Settles disk (fun w ↦ evalIn w scope source) s (.error (.ofReadFault fault) s) :=
  ⟨settled_ofReadFault h, (Token.scan source).length, fun _ _ hw _ ↦
    congrFun (evalIn_eq_of_parse_error hw h) s⟩

/-- Loading a text that is read as a form is evaluating the form. -/
theorem settles_load_iff_of_parse (h : Reader.parse (programText text) = .ok form) :
    Settles disk (fun w ↦ load w text) s r ↔
      Settles disk (fun w ↦ discard (evalForm w topLevel form)) s r :=
  ⟨fun hs ↦ hs.congr ⟨_, fun w hw ↦ by rw [load, eval, evalIn_eq_of_parse hw h]⟩,
    fun hs ↦ hs.congr ⟨_, fun w hw ↦ by rw [load, eval, evalIn_eq_of_parse hw h]⟩⟩

/-- A text that cannot be read is complained about or crashes, and nothing else happens. -/
theorem settles_load_of_parse_error {fault : ReadFault}
    (h : Reader.parse (programText text) = .error fault) :
    Settles disk (fun w ↦ load w text) s (.error (.ofReadFault fault) s) := by
  refine ⟨settled_ofReadFault h, (Token.scan (programText text)).length, fun w _ hw _ ↦ ?_⟩
  have hload : load w text = throw (.ofReadFault fault) := by
    rw [load, eval, evalIn_eq_of_parse_error hw h]
    rfl
  exact congrFun hload s

/-- **Loading a program of complete forms is evaluating them one after the other.** -/
theorem settles_load_iff {forms : List Value} (h : Forms (Token.scan text) forms) :
    Settles disk (fun w ↦ load w text) s r ↔ Settles disk (fun w ↦ evalForms w forms) s r := by
  have hforms (q : EStateM.Result Failure Store PUnit) :
      Lisplet.Settles disk (fun eng ↦ discard (eng.eval topLevel (sequenceOf forms))) s q ↔
        Lisplet.Settles disk
          (fun eng ↦ forms.forM fun form ↦ discard (eng.eval topLevel form)) s q :=
    calc Lisplet.Settles disk (fun eng ↦ discard (eng.eval topLevel (sequenceOf forms))) s q
        ↔ Lisplet.Settles disk (fun eng ↦
            eng.eval topLevel (sequenceOf forms) >>= fun _ ↦ pure ()) s q := by
          simp only [discard_eq_bind]
      _ ↔ Lisplet.Settles disk (fun eng ↦
            ((forms.forM fun form ↦ discard (eng.eval topLevel form)) >>= fun _ ↦
              pure Value.nil) >>= fun _ ↦ pure ()) s q :=
          settles_bind_congr (.eval _ _) (.bind (growing_forms forms) fun _ ↦ .const _)
            (fun _ ↦ settles_sequenceOf_iff) fun _ _ _ ↦ Iff.rfl
      _ ↔ _ := by simp only [bind_assoc, pure_bind, bind_pure_unit]
  refine (settles_load_iff_of_parse (parse_programText h)).trans ?_
  simp only [evalForms_eq_perform, evalForm, ← perform_discard]
  exact settles_perform_congr hforms

end Session

end Lisplet
