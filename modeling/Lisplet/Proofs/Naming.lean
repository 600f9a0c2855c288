import Lisplet.Proofs.Overflow
import Lisplet.Proofs.RoundTrip

/-!
# Names that are made from text

Two functions make a name from a string, and both read the string as a source text to see whether
it is one.  What they accept can be said of the tokens alone: a text names a symbol if its only token
is a word that is neither a numeral nor a constant (`SpellsName`), and it names a keyword if it names
a symbol or if its only token is a keyword, which then loses one colon and no more (`NamesKeyword`).
Blanks, commas and comments around the word do not count, and everything else is refused
(`Naming`): with what the reader complained about, if it did.

Whatever name a session comes upon is of this kind.  That is one more law of evaluation
(`Law.named`), and, unlike well-formedness, one without a proviso: nothing that is counted is a name.
So the text of a symbol or a keyword names it again.
-/

set_option autoImplicit false

namespace Lisplet

/-! ## What a text names -/

/-- The only token of the text is a word that is neither a numeral nor a constant. -/
structure SpellsName (text name : String) : Prop where
  scan : Token.scan text = [⟨.atom, name⟩]
  numeral : Integer.numeral? name = none
  nil : name ≠ "nil"
  true : name ≠ "true"
  false : name ≠ "false"

/-- The symbol that a text names. -/
inductive NamesSymbol (text : String) : Value → Prop
  | word {name : String} (h : SpellsName text name) : NamesSymbol text (.sym name)

/-- The keyword that a text names, with its colon or without. -/
inductive NamesKeyword (text : String) : Value → Prop
  | keyword {name : String} (h : Token.scan text = [⟨.keyword, ":" ++ name⟩]) :
      NamesKeyword text (.kw name)
  | word {name : String} (h : SpellsName text name) : NamesKeyword text (.kw name)

/-- What stands between brackets is no name. -/
theorem Collects.ne_name {b : Bracket} {vs : List Value} {v : Value} (h : Collects b vs v)
    (name : String) : v ≠ .sym name ∧ v ≠ .kw name := by
  cases h <;> simp

/-- A word that spells a name has no colon to lose. -/
theorem SpellsName.keyword_eq {text name : String} (h : SpellsName text name) :
    Value.keyword name = .kw name := by
  have hmem : (⟨.atom, name⟩ : Token) ∈ Token.scan text := by
    rw [h.scan]
    exact List.mem_singleton_self _
  obtain ⟨-, hcolon⟩ := Token.isProper_of_mem_scan hmem
  rw [Value.keyword]
  split
  · rename_i rest hname
    exact absurd (congrArg List.head? hname) hcolon
  · rfl

namespace Reader

variable {limit : Nat} {text name : String} {v : Value}

theorem form_of_read (h : read limit text = .ok v) : Form (Token.scan text) v := by
  have hdeep : read limit text ≠ .error .tooDeep := by
    rw [h]
    simp
  exact parse_eq_ok_iff.1 ((read_eq_parse hdeep).symm.trans h)

/-- **A text is read as a symbol** exactly if it spells its name. -/
theorem read_eq_sym_iff : read limit text = .ok (.sym name) ↔ SpellsName text name := by
  constructor
  · intro h
    have hform := form_of_read h
    generalize hts : Token.scan text = ts at hform
    generalize hv : Value.sym name = v at hform
    cases hform with
    | string | mark | metadata => cases hv
    | keyword =>
      rw [Value.keyword] at hv
      split at hv <;> cases hv
    | word h =>
      cases h with
      | int | nil | true | false => cases hv
      | name hnum hnil htrue hfalse =>
        obtain rfl := Value.sym.inj hv
        exact ⟨hts, hnum, hnil, htrue, hfalse⟩
    | group b _ hcollects => exact absurd hv.symm (hcollects.ne_name name).1
  · intro h
    have hword : ofWord name = .ok (.sym name) :=
      ofWord_eq_ok_iff.2 (.name h.numeral h.nil h.true h.false)
    refine read_of_scan h.scan ?_
    show (ofWord name).map (plug []) = _
    rw [hword]
    rfl

/-- **A text is read as a keyword** exactly if its only token is the keyword with its colon. -/
theorem read_eq_kw_iff :
    read limit text = .ok (.kw name) ↔ Token.scan text = [⟨.keyword, ":" ++ name⟩] := by
  constructor
  · intro h
    have hform := form_of_read h
    generalize hts : Token.scan text = ts at hform
    generalize hv : Value.kw name = v at hform
    cases hform with
    | string | mark | metadata => cases hv
    | keyword word =>
      have hmem : (⟨.keyword, word⟩ : Token) ∈ Token.scan text := hts ▸ List.mem_singleton_self _
      obtain ⟨rest, hword⟩ : ∃ rest, word = ":" ++ rest := by
        obtain ⟨-, hcolon⟩ := Token.isProper_of_mem_scan hmem
        obtain ⟨cs, hcs⟩ := List.head?_eq_some_iff.1 hcolon
        refine ⟨String.ofList cs, String.toList_inj.1 ?_⟩
        rw [Value.toList_colon_append, String.toList_ofList]
        exact hcs
      rw [hword, Value.keyword_colon_append] at hv
      rw [hword, Value.kw.inj hv]
    | word h => cases h <;> cases hv
    | group b _ hcollects => exact absurd hv.symm (hcollects.ne_name name).2
  · intro h
    refine read_of_scan h ?_
    show Except.ok (plug [] (Value.keyword (":" ++ name))) = _
    rw [Value.keyword_colon_append]
    rfl

example : parse " , ::a ; two colons" = .ok (.kw ":a") := by rfl

end Reader

/-! ## Making names -/

/-- **How making a name ends**: in what the text names, and otherwise in a type error, which has
what the reader complained about as its cause if it did.  A text that is nested too deeply to be
read in the room there is overflows, one in which reading comes to a numeral that is not converted
crashes, and neither names anything. -/
inductive Naming (eng : Engine) (s : Store) (op : Builtin) (text : String)
    (named : Value → Prop) : EStateM.Result Failure Store Value → Prop
  | named {v : Value} (h : named v) : Naming eng s op text named (.ok v s)
  | other {form : Value} (hnone : ∀ v, ¬named v) (hread : Reader.parse text = .ok form) :
      Naming eng s op text named (.error (.error (.type (.otherName op text))
        (op.name ++ ": " ++ Text.quote text ++ " does not name a " ++ op.name)) s)
  | unreadable {e : ReadError} (hnone : ∀ v, ¬named v)
      (hread : Reader.parse text = .error (.error e)) :
      Naming eng s op text named (.error (.error (.type (.unreadableName op text e))
        (op.name ++ ": " ++ Text.inspect text ++ " is not a valid name")) s)
  | overflow (hnone : ∀ v, ¬named v) (hread : Reader.read eng.room text = .error .tooDeep) :
      Naming eng s op text named (.error .overflow s)
  | crashed {digits : Nat} (hnone : ∀ v, ¬named v)
      (hread : Reader.Stumbles (Token.scan text) digits) :
      Naming eng s op text named (.error (.crashed (.numeral digits)) s)

/-- The symbol that a form is. -/
def Value.symbol? : Value → Option Value
  | sym name => some (sym name)
  | _ => none

/-- The keyword that a form is or is the name of. -/
def Value.keyword? : Value → Option Value
  | sym name => some (keyword name)
  | kw name => some (kw name)
  | _ => none

section

variable {limit : Nat} {text : String} {v : Value}

theorem namesSymbol_iff :
    NamesSymbol text v ↔ ∃ form, Reader.read limit text = .ok form ∧ form.symbol? = some v := by
  constructor
  · rintro ⟨h⟩
    exact ⟨_, Reader.read_eq_sym_iff.2 h, rfl⟩
  · rintro ⟨form, hread, hform⟩
    cases form with
    | sym name =>
      obtain rfl := Option.some.inj hform
      exact .word (Reader.read_eq_sym_iff.1 hread)
    | _ => cases hform

theorem namesKeyword_iff :
    NamesKeyword text v ↔ ∃ form, Reader.read limit text = .ok form ∧ form.keyword? = some v := by
  constructor
  · rintro (h | h)
    · exact ⟨_, Reader.read_eq_kw_iff.2 h, rfl⟩
    · exact ⟨_, Reader.read_eq_sym_iff.2 h, congrArg some h.keyword_eq⟩
  · rintro ⟨form, hread, hform⟩
    cases form with
    | sym name =>
      have hname := Reader.read_eq_sym_iff.1 hread
      obtain rfl := hname.keyword_eq.symm.trans (Option.some.inj hform)
      exact .word hname
    | kw name =>
      obtain rfl := Option.some.inj hform
      exact .keyword (Reader.read_eq_kw_iff.1 hread)
    | _ => cases hform

end

/-- To make a name is to read the text and to see whether the form is of the wanted kind. -/
def Engine.makeName (eng : Engine) (op : Builtin) (kind : Value → Option Value) (text : String) :
    Eval Value := do
  match kind (← Effect.readText eng text fun e ↦ .type (.unreadableName op text e)) with
  | some v => return v
  | none => eng.fail (.type (.otherName op text))

section

variable (eng : Engine) (f : FrameId) (s : Store) (text : String)

theorem call_symbol :
    Builtin.call eng f .symbol [.str text] = eng.makeName .symbol Value.symbol? text := by
  show Effect.readText eng text _ >>= _ = Effect.readText eng text _ >>= _
  congr 1
  funext form
  cases form <;> rfl

theorem call_keyword :
    Builtin.call eng f .keyword [.str text] = eng.makeName .keyword Value.keyword? text := by
  show Effect.readText eng text _ >>= _ = Effect.readText eng text _ >>= _
  congr 1
  funext form
  cases form <;> rfl

theorem makeName_eq_ok {op : Builtin} {kind : Value → Option Value} {form v : Value}
    (hread : Reader.read eng.room text = .ok form) (hkind : kind form = some v) :
    eng.makeName op kind text s = .ok v s := by
  rw [Engine.makeName, Effect.readText, hread, pure_bind, hkind]
  rfl

theorem makeName_of_unconverted {op : Builtin} {kind : Value → Option Value} {digits : Nat}
    (hread : Reader.read eng.room text = .error (.unconverted digits)) :
    eng.makeName op kind text s = .error (.crashed (.numeral digits)) s := by
  rw [Engine.makeName, Effect.readText, hread]
  rfl

theorem naming_makeName (op : Builtin) {kind : Value → Option Value} {named : Value → Prop}
    (hnamed : ∀ v, named v ↔
      ∃ form, Reader.read eng.room text = .ok form ∧ kind form = some v) :
    Naming eng s op text named (eng.makeName op kind text s) := by
  cases hread : Reader.read eng.room text with
  | ok form =>
    have hparse : Reader.parse text = .ok form :=
      (Reader.read_eq_parse (by simp [hread])).symm.trans hread
    cases hkind : kind form with
    | some v =>
      rw [makeName_eq_ok eng s text hread hkind]
      exact .named ((hnamed v).2 ⟨form, hread, hkind⟩)
    | none =>
      rw [Engine.makeName, Effect.readText, hread, pure_bind, hkind]
      refine .other (fun v hv ↦ ?_) hparse
      obtain ⟨form', hread', hkind'⟩ := (hnamed v).1 hv
      obtain rfl := Except.ok.inj (hread.symm.trans hread')
      cases hkind.symm.trans hkind'
  | error fault =>
    have hnone (v : Value) (hv : named v) : False := by
      obtain ⟨form, hread', -⟩ := (hnamed v).1 hv
      cases hread.symm.trans hread'
    rw [Engine.makeName, Effect.readText, hread]
    cases fault with
    | error e =>
      have hparse : Reader.parse text = .error (.error e) :=
        (Reader.read_eq_parse (by simp [hread])).symm.trans hread
      exact .unreadable hnone hparse
    | tooDeep => exact .overflow hnone hread
    | unconverted digits =>
      have hparse : Reader.parse text = .error (.unconverted digits) :=
        (Reader.read_eq_parse (by simp [hread])).symm.trans hread
      exact .crashed hnone (Reader.parse_eq_unconverted_iff.1 hparse)

theorem naming_symbol :
    Naming eng s .symbol text (NamesSymbol text) (Builtin.call eng f .symbol [.str text] s) := by
  rw [call_symbol]
  exact naming_makeName eng s text .symbol fun _ ↦ namesSymbol_iff

theorem naming_keyword :
    Naming eng s .keyword text (NamesKeyword text) (Builtin.call eng f .keyword [.str text] s) := by
  rw [call_keyword]
  exact naming_makeName eng s text .keyword fun _ ↦ namesKeyword_iff

end

/-! ## The names that a session comes upon -/

/-- A value that is a symbol or a keyword has a name that can be written. -/
def Value.IsNamed : Value → Prop
  | sym name => IsSymbolName name
  | kw name => IsKeywordName name
  | _ => True

theorem Value.IsWritten.isNamed {v : Value} (h : v.IsWritten) : v.IsNamed := by
  cases v with
  | sym | kw => exact h
  | _ => trivial

/-- That names can be written, as a law of evaluation. -/
def Law.named : Law where
  lax := False
  fits _ := True
  shape _ := True
  captured _ _ := True
  active _ _ := True
  ok _ v := v.IsNamed
  captured_mono _ _ := trivial
  active_mono _ _ := trivial
  ok_mono _ hv := hv
  captured_of_active _ := trivial
  shape_congr _ _ _ := trivial
  shape_define _ _ _ _ := trivial
  shape_addFrame _ _ _ := trivial
  active_addFrame _ _ _ := trivial
  active_topLevel _ _ := trivial
  ok_written hv := hv.isNamed
  ok_fn := Iff.rfl
  ok_atom _ := trivial
  ok_withMeta _ _ := trivial
  ok_count _ _ := trivial

namespace Session

/-- **What sessions come upon**: what a text comes to or throws, what a frame binds or an atom
holds, and whatever is inside these. -/
inductive Produced : Value → Prop
  | value {w : World} {source : String} {s s' : Store} {v : Value} (hs : Reachable anything s)
      (h : Session.eval w source s = .ok v s') : Produced v
  | thrown {w : World} {source : String} {s s' : Store} {v : Value} (hs : Reachable anything s)
      (h : Session.eval w source s = .error (.failed (.thrown v)) s') : Produced v
  | bound {s : Store} {f : FrameId} {name : String} {v : Value} (hs : Reachable anything s)
      (h : s.own? f name = some v) : Produced v
  | stored {s : Store} {v : Value} (hs : Reachable anything s) (h : v ∈ s.atoms) : Produced v
  | inside {u v : Value} (hu : Produced u) (h : v ∈ u.parts) : Produced v

variable {s s' : Store} {v : Value}

theorem outcome_named {form : Value} {w : World} {source : String} (hs : Law.named.Holds s)
    (hread : Reader.read w.depth source = .ok form) : Law.named.Outcome s Law.named.Good
      (run w.disk w.steps w.depth [] (.eval form topLevel) s) := by
  have hform : Law.named.Good s form :=
    Law.good_of_isWritten (Reader.all_isWritten_of_read hread)
  have hadmits : Law.named.Admits s (.eval form topLevel) := ⟨hform, trivial⟩
  have hwatches : Law.named.Watches .idle .idle := .idle fun _ ↦ trivial
  have hrun := hwatches.run (fun h ↦ h) (fun h ↦ h) Failure.isFinal_overflow w.disk w.steps
    w.depth hs hadmits
  rw [runWatched_idle] at hrun
  exact hrun.1

theorem holds_named_bare : Law.named.Holds bare := by
  refine ⟨trivial, fun f fr hfr e he ↦ ?_, fun v hv ↦ ?_⟩
  · obtain ⟨op, hop⟩ := exists_of_mem_bare hfr he
    rw [hop]
    exact .of_parts_eq_nil trivial rfl
  · simp [atoms_bare] at hv

theorem Reachable.holds_named (h : Reachable anything s) : Law.named.Holds s :=
  h.holds (fun _ _ ↦ trivial) (fun _ _ _ _ _ hread hl ↦ (outcome_named hl hread).final.2)
    holds_named_bare

/-- A text comes to what its form comes to, and fails if it does.  Only a crash need not be that of
a form. -/
theorem exists_run_of_eval {w : World} {source : String} {r : EStateM.Result Failure Store Value}
    (h : Session.eval w source s = performed r) (hr : ∀ c s', r ≠ .error (.crashed c) s') :
    ∃ form, Reader.read w.depth source = .ok form ∧
      run w.disk w.steps w.depth [] (.eval form topLevel) s = r := by
  rw [eval_apply] at h
  cases hread : Reader.read w.depth source with
  | ok form =>
    rw [hread] at h
    exact ⟨form, rfl, performed_injective ((perform_apply _ s).symm.trans h)⟩
  | error fault =>
    rw [hread] at h
    cases r with
    | ok v s' => cases h
    | error f s' =>
      cases fault with
      | error | tooDeep => cases h
      | unconverted digits =>
        cases h
        exact absurd rfl (hr _ _)

theorem Produced.all_isNamed (h : Produced v) : v.All Value.IsNamed := by
  induction h with
  | @value w source s s' v hs h =>
    obtain ⟨form, hread, hrun⟩ := exists_run_of_eval (r := .ok v s') h (by simp)
    have hout := outcome_named hs.holds_named hread
    rw [hrun] at hout
    exact hout.2.2
  | @thrown w source s s' v hs h =>
    obtain ⟨form, hread, hrun⟩ := exists_run_of_eval (r := .error (.thrown v) s') h (by simp)
    have hout := outcome_named hs.holds_named hread
    rw [hrun] at hout
    exact hout.2.2
  | bound hs h =>
    obtain ⟨fr, hfr, hv⟩ := Option.bind_eq_some_iff.1 h
    exact hs.holds_named.bound _ fr hfr _ (Dict.mem_entries_of_get? hv)
  | stored hs h => exact hs.holds_named.stored _ h
  | inside _ h ih => exact ih.inside h

end Session

/-! ## From a name to its text and back -/

theorem IsSymbolName.spellsName {name : String} (h : IsSymbolName name) : SpellsName name name := by
  have hscan := h.spells.scan_eq
  obtain ⟨-, -, hnum, hnil, htrue, hfalse⟩ := h
  exact ⟨hscan, hnum, hnil, htrue, hfalse⟩

section

variable {disk : Disk} {s s₁ : Store} {f : FrameId} {form v : Value} {name text : String}

/-- `(str x)` is the text of what `x` comes to, if that is a symbol or a keyword. -/
theorem settles_str_of_print (htext : ∀ room, v.print s.atoms .display (room + 1) = some text) :
    Settles disk (fun eng ↦ Builtin.call eng f .str [v]) s (.ok (.str text) s) := by
  refine ⟨trivial, 1, fun steps room _ hroom ↦ ?_⟩
  obtain ⟨room, rfl⟩ := Nat.exists_eq_add_of_le' hroom
  have hprint : Value.printAll s.atoms .display (room + 1) "" [v] = some text := by
    rw [Value.printAll_singleton, htext]
  show Effect.toText (.granted disk steps (room + 1)) .display "" [v] s = _
  simp only [Effect.toText, Engine.print, Engine.granted, bind_assoc, get_bind_apply, hprint]
  rfl

/-- A call by name of a function of one argument. -/
theorem settles_call_one {op : Builtin} {l : Option Label} {r : EStateM.Result Failure Store Value}
    (h : s.Resolves f op) (hform : Settles disk (fun eng ↦ eng.eval f form) s (.ok v s₁)) :
    Settles disk (fun eng ↦ eng.eval f (.list l [.sym op.name, form])) s r ↔
      Settles disk (fun eng ↦ op.call eng f [v]) s₁ r :=
  (settles_call_iff h).trans (settles_bind_of_ok (settles_mapM_cons hform (settles_pure [])))

/-- **The text of a symbol names it.** -/
theorem settles_symbol_str (hname : IsSymbolName name) (hsymbol : s.Resolves f .symbol)
    (hstr : s.Resolves f .str) (h : Settles disk (fun eng ↦ eng.eval f form) s (.ok (.sym name) s₁))
    (l l' : Option Label) :
    Settles disk (fun eng ↦ eng.eval f (.list l [.sym "symbol", .list l' [.sym "str", form]])) s
      (.ok (.sym name) s₁) := by
  have htext : Settles disk (fun eng ↦ eng.eval f (.list l' [.sym "str", form])) s
      (.ok (.str name) s₁) :=
    (settles_call_one hstr h).2 (settles_str_of_print fun _ ↦ rfl)
  refine (settles_call_one hsymbol htext).2 (settles_of_forall trivial fun eng ↦ ?_)
  rw [call_symbol]
  exact makeName_eq_ok eng s₁ name (Reader.read_eq_sym_iff.2 hname.spellsName) rfl

/-- **The text of a keyword names it**, whatever colons the name itself begins with. -/
theorem settles_keyword_str (hname : IsKeywordName name) (hkeyword : s.Resolves f .keyword)
    (hstr : s.Resolves f .str) (h : Settles disk (fun eng ↦ eng.eval f form) s (.ok (.kw name) s₁))
    (l l' : Option Label) :
    Settles disk (fun eng ↦ eng.eval f (.list l [.sym "keyword", .list l' [.sym "str", form]])) s
      (.ok (.kw name) s₁) := by
  have htext : Settles disk (fun eng ↦ eng.eval f (.list l' [.sym "str", form])) s
      (.ok (.str (":" ++ name)) s₁) :=
    (settles_call_one hstr h).2 (settles_str_of_print fun _ ↦ rfl)
  refine (settles_call_one hkeyword htext).2 (settles_of_forall trivial fun eng ↦ ?_)
  rw [call_keyword]
  exact makeName_eq_ok eng s₁ _ (Reader.read_eq_kw_iff.2 hname.spells.scan_eq) rfl

end

namespace Session

/-- **Names are made of exactly the texts that read back.**

A text makes a symbol exactly if its only token is a word that is neither a numeral nor a constant,
and a keyword exactly if it makes a symbol or its only token is a keyword; any other text is a type
error, which has a cause exactly if the text cannot be read, unless reading comes to a numeral in it
that is not converted.  (That reading overflows is possible only while there is less room than
tokens.)  So of every symbol and every keyword that a session comes upon, the text names it
again. -/
theorem names_read_back (disk : Disk) :
    (∀ (eng : Engine) (f : FrameId) (s : Store) (text : String),
      Naming eng s .symbol text (NamesSymbol text) (Builtin.call eng f .symbol [.str text] s) ∧
      Naming eng s .keyword text (NamesKeyword text)
        (Builtin.call eng f .keyword [.str text] s) ∧
      ((Token.scan text).length ≤ eng.room → Reader.read eng.room text ≠ .error .tooDeep)) ∧
    ∀ (s s₁ : Store) (f : FrameId) (form : Value) (l l' : Option Label) (name : String),
      s.Resolves f .str →
      (Produced (.sym name) → s.Resolves f .symbol →
        Evaluates disk (.eval form f) s (.ok (.sym name) s₁) →
        Evaluates disk (.eval (.list l [.sym "symbol", .list l' [.sym "str", form]]) f) s
          (.ok (.sym name) s₁)) ∧
      (Produced (.kw name) → s.Resolves f .keyword →
        Evaluates disk (.eval form f) s (.ok (.kw name) s₁) →
        Evaluates disk (.eval (.list l [.sym "keyword", .list l' [.sym "str", form]]) f) s
          (.ok (.kw name) s₁)) := by
  refine ⟨fun eng f s text ↦ ⟨naming_symbol eng f s text, naming_keyword eng f s text,
    Reader.read_ne_tooDeep⟩, fun s s₁ f form l l' name hstr ↦ ⟨?_, ?_⟩⟩
  · intro hproduced hsymbol h
    exact settles_symbol_str hproduced.all_isNamed.here hsymbol hstr h l l'
  · intro hproduced hkeyword h
    exact settles_keyword_str hproduced.all_isNamed.here hkeyword hstr h l l'

/-- A quoted symbol, and the keyword that is written with two colons. -/
theorem names_read_back_two :
    let disk : Disk := fun _ ↦ none
    let form : Value := .list none [.sym "quote", .sym "x"]
    (Produced (.sym "x") ∧ bare.Resolves topLevel .symbol ∧ bare.Resolves topLevel .str ∧
      Evaluates disk (.eval form topLevel) bare (.ok (.sym "x") bare) ∧
      Evaluates disk
        (.eval (.list none [.sym "symbol", .list none [.sym "str", form]]) topLevel) bare
        (.ok (.sym "x") bare)) ∧
    (Produced (.kw ":a") ∧ bare.Resolves topLevel .keyword ∧
      Evaluates disk (.eval (.kw ":a") topLevel) bare (.ok (.kw ":a") bare) ∧
      Evaluates disk
        (.eval (.list none [.sym "keyword", .list none [.sym "str", .kw ":a"]]) topLevel) bare
        (.ok (.kw ":a") bare)) ∧
    ((Token.scan ":").length ≤ 1 ∧ Reader.read 1 ":" ≠ .error .tooDeep) := by
  intro disk form
  obtain ⟨hnaming, hback⟩ := names_read_back disk
  have hbare : Reachable anything bare := reachable_bare disk
  have hsymbol : Produced (.sym "x") :=
    @Produced.value { disk := disk, depth := 9, steps := 9 } "'x" bare bare _ hbare rfl
  have hkeyword : Produced (.kw ":a") :=
    @Produced.value { disk := disk, depth := 9, steps := 9 } "::a" bare bare _ hbare rfl
  have hform : Evaluates disk (.eval form topLevel) bare (.ok (.sym "x") bare) :=
    settles_run_iff_value.2 (settles_of_forall trivial fun _ ↦ rfl)
  have hself : Evaluates disk (.eval (.kw ":a") topLevel) bare (.ok (.kw ":a") bare) :=
    settles_itself fun _ ↦ rfl
  have hstr : bare.Resolves topLevel .str := resolves_bare .str
  have hone : (Token.scan ":").length ≤ 1 := by decide
  obtain ⟨-, -, hdeep⟩ := hnaming (.granted disk 1 1) topLevel bare ":"
  obtain ⟨hsym, -⟩ := hback bare bare topLevel form none none "x" hstr
  obtain ⟨-, hkw⟩ := hback bare bare topLevel (.kw ":a") none none ":a" hstr
  exact ⟨⟨hsymbol, resolves_bare .symbol, hstr, hform, hsym hsymbol (resolves_bare .symbol) hform⟩,
    ⟨hkeyword, resolves_bare .keyword, hself, hkw hkeyword (resolves_bare .keyword) hself⟩,
    hone, hdeep hone⟩

/-- Zero in 4301 digits names nothing, and to make a name of it is no type error: the calls crash
wherever they are made. -/
theorem naming_crashes_at_zeros :
    let zeros := String.ofList (List.replicate 4301 '0')
    (∀ v, ¬NamesSymbol zeros v ∧ ¬NamesKeyword zeros v) ∧
      ∀ (eng : Engine) (f : FrameId) (s : Store),
        Builtin.call eng f .symbol [.str zeros] s = .error (.crashed (.numeral 4301)) s ∧
          Builtin.call eng f .keyword [.str zeros] s = .error (.crashed (.numeral 4301)) s := by
  intro zeros
  have hread (limit : Nat) : Reader.read limit zeros = .error (.unconverted 4301) :=
    Numeral.read_zeros (Nat.le_refl _) limit
  refine ⟨fun v ↦ ⟨fun h ↦ ?_, fun h ↦ ?_⟩, fun eng f s ↦ ?_⟩
  · obtain ⟨form, hform, -⟩ := namesSymbol_iff.1 h
    cases (hread 0).symm.trans hform
  · obtain ⟨form, hform, -⟩ := namesKeyword_iff.1 h
    cases (hread 0).symm.trans hform
  · rw [call_symbol, call_keyword, makeName_of_unconverted eng s zeros (hread eng.room),
      makeName_of_unconverted eng s zeros (hread eng.room)]
    exact ⟨rfl, rfl⟩

end Session

end Lisplet
