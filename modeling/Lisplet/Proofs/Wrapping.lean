import Lisplet.Proofs.Program

/-!
# Which programs are accepted

The text of a program is put between `(do ` and a line with `nil)` before it is read.  What is
accepted is then more than the texts of complete forms: a text may also end in marks that wait for
one more form, as a quote does, and the `nil` of the last line is what they get.  Everything else
that is not complete is turned down, for the line feed ends a comment and a word, nothing on the
last line closes a string, and the one bracket there can close only the one that was put in front.

* **A complaint of the scanner stays one** (`Token.Mode.exists_error_append`), so the tokens of the
  text stand unchanged between those around it (`Token.scan_programText`).
* **Forms that end in a `nil` of their own** are what is read then.  The last of them is that `nil`
  or goes through marks down to it (`Awaits`, `form_concat_nil_iff`), as the end of a closed bracket
  is a bracket.

A program of complete forms is told from the others by what it is read as: a sequence whose last
element is `nil` (`program_accepted_iff`).
-/

set_option autoImplicit false

namespace Lisplet

/-! ## Complaints of the scanner -/

namespace Token

/-- An open string that nothing closes is complained about. -/
theorem Mode.exists_error_text {literal : Text.Literal} {cs : List Char}
    (h : Text.quoteMark ∉ cs) : ∃ t ∈ (Mode.text literal).scan cs, t.kind = .error := by
  induction cs generalizing literal with
  | nil => exact ⟨_, List.mem_cons_self, rfl⟩
  | cons c cs ih =>
    have hc : c ≠ Text.quoteMark := fun hc ↦ h (hc ▸ List.mem_cons_self)
    rw [Mode.scan, Mode.feed, if_neg (by simp [hc])]
    exact ih fun hcs ↦ h (List.mem_cons_of_mem c hcs)

/-- **What is complained about still is** if there is more text that closes no string. -/
theorem Mode.exists_error_append {m : Mode} {cs rest : List Char}
    (h : ∃ t ∈ m.scan cs, t.kind = .error) (hrest : Text.quoteMark ∉ rest) :
    ∃ t ∈ m.scan (cs ++ rest), t.kind = .error := by
  induction cs generalizing m with
  | nil =>
    cases m with
    | text literal => exact exists_error_text hrest
    | idle | comment | tilde => simp [Mode.scan, Mode.finish, ofMark] at h
    | word letters =>
      simp only [Mode.scan, Mode.finish, List.mem_singleton, exists_eq_left, ofWord] at h
      split at h <;> cases h
  | cons c cs ih =>
    obtain ⟨t, ht, herror⟩ := h
    rw [List.cons_append]
    rw [Mode.scan] at ht ⊢
    rcases List.mem_append.1 ht with ht | ht
    · exact ⟨t, List.mem_append_left _ ht, herror⟩
    · obtain ⟨t', ht', herror'⟩ := ih ⟨t, ht, herror⟩
      exact ⟨t', List.mem_append_right _ ht', herror'⟩

theorem exists_error_programText {text : String} (h : ∃ t ∈ scan text, t.kind = .error) :
    ∃ t ∈ scan (Session.programText text), t.kind = .error := by
  rw [scan_eq] at h
  rw [scan_programText_eq]
  have hquote : Text.quoteMark ∉ "\nnil)".toList := by decide
  obtain ⟨t, ht, herror⟩ := Mode.exists_error_append h hquote
  exact ⟨t, List.mem_cons_of_mem _ (List.mem_cons_of_mem _ ht), herror⟩

end Token

/-! ## Taking forms apart -/

open Token (ofMark)

variable {t : Token} {ts us : List Token} {v w : Value} {vs : List Value}

theorem Form.ne_nil (h : Form ts v) : ts ≠ [] := by
  cases h <;> exact List.cons_ne_nil _ _

/-- A form that starts with a word is the word. -/
theorem Form.of_atom {word : String} (h : Form (⟨.atom, word⟩ :: ts) v) :
    ts = [] ∧ Denotes word v := by
  cases h with
  | word h => exact ⟨rfl, h⟩

/-- A form that starts with a round bracket is a list of forms. -/
theorem Form.of_round (h : Form (ofMark "(" :: ts) v) :
    ∃ us vs, ts = us ++ [ofMark ")"] ∧ Forms us vs ∧ v = .list none vs := by
  generalize hts : ofMark "(" :: ts = all at h
  cases h with
  | string | keyword | word => simp [ofMark] at hts
  | mark m => cases m <;> simp [ofMark, Mark.token] at hts
  | metadata => simp [ofMark, metadataMark] at hts
  | group b hparts hv =>
    obtain ⟨hopener, rfl⟩ := List.cons.inj hts
    cases b with
    | round =>
      generalize hvs : List.map Prod.snd _ = vs at hv
      cases hv
      exact ⟨_, vs, rfl, ⟨_, hparts, rfl, hvs⟩, rfl⟩
    | square | curly => simp [ofMark, Bracket.opener] at hopener

namespace Forms

/-- Forms have a first one, unless there is no token. -/
theorem exists_head (h : Forms (t :: ts) vs) :
    ∃ us rest v vs', t :: ts = us ++ rest ∧ Form us v ∧ Forms rest vs' ∧ vs = v :: vs' := by
  obtain ⟨parts, hparts, hts, rfl⟩ := h
  cases parts with
  | nil => cases hts
  | cons p parts =>
    obtain ⟨hp, hparts⟩ := List.forall_mem_cons.1 hparts
    exact ⟨p.1, _, p.2, _, hts.symm, hp, ⟨parts, hparts, rfl, rfl⟩, rfl⟩

/-- Forms have a last one, unless there is no token. -/
theorem exists_last (h : Forms (ts ++ [t]) vs) :
    ∃ us rest v vs', ts = rest ++ us ∧ Form (us ++ [t]) v ∧ Forms rest vs' ∧ vs = vs' ++ [v] := by
  obtain ⟨parts, hparts, hts, rfl⟩ := h
  rcases List.eq_nil_or_concat parts with rfl | ⟨parts, p, rfl⟩
  · simp at hts
  · rw [List.concat_eq_append] at hparts hts ⊢
    obtain ⟨hparts, hp⟩ := List.forall_mem_append.1 hparts
    have hp := hp p (List.mem_singleton_self p)
    rw [List.flatMap_append, List.flatMap_singleton] at hts
    rcases List.eq_nil_or_concat p.1 with hnil | ⟨us, t', hus⟩
    · exact absurd hnil hp.ne_nil
    · rw [List.concat_eq_append] at hus
      rw [hus, ← List.append_assoc] at hts
      obtain ⟨hinit, hlast⟩ := List.append_inj' hts rfl
      obtain rfl := List.singleton_inj.1 hlast
      exact ⟨us, _, p.2, _, hinit.symm, hus ▸ hp, ⟨parts, hparts, rfl, rfl⟩, List.map_append⟩

/-- A word in front of forms is the first of them. -/
theorem of_atom {word : String} (h : Forms (⟨.atom, word⟩ :: ts) vs) :
    ∃ v vs', Denotes word v ∧ Forms ts vs' ∧ vs = v :: vs' := by
  obtain ⟨us, rest, v, vs', hts, hform, hrest, rfl⟩ := h.exists_head
  cases us with
  | nil => exact absurd rfl hform.ne_nil
  | cons u us =>
    obtain ⟨rfl, rfl⟩ := List.cons.inj hts
    obtain ⟨rfl, hword⟩ := hform.of_atom
    exact ⟨v, vs', hword, hrest, rfl⟩

end Forms

/-! ## Marks that wait -/

/-- **The tokens wait for one more form**, and what they make of it: they are marks, one in front of
the other, of which those that ask for metadata have got them. -/
inductive Awaits : List Token → (Value → Value) → Prop
  | nothing : Awaits [] id
  | mark (m : Mark) {ts : List Token} {f : Value → Value} (h : Awaits ts f) :
      Awaits (ofMark m.token :: ts) fun v ↦ .list none [.sym m.head, f v]
  | metadata {ts us : List Token} {data : Value} {f : Value → Value} (hdata : Form ts data)
      (h : Awaits us f) :
      Awaits (ofMark metadataMark :: (ts ++ us)) fun v ↦ .list none [.sym "with-meta", f v, data]

namespace Awaits

variable {f : Value → Value}

/-- A form is what waiting tokens get. -/
theorem form (h : Awaits ts f) (hv : Form us v) : Form (ts ++ us) (f v) := by
  induction h with
  | nothing => exact hv
  | mark m _ ih => exact .mark m ih
  | metadata hdata _ ih =>
    rw [List.cons_append, List.append_assoc]
    exact .metadata hdata ih

/-- Tokens that wait make a list of what they get. -/
theorem eq_nil_of_nil (h : Awaits ts f) (hnil : f .nil = .nil) : ts = [] ∧ f = id := by
  cases h with
  | nothing => exact ⟨rfl, rfl⟩
  | mark | metadata => cases hnil

end Awaits

/-- **A form that ends in `nil`** is tokens that wait for it. -/
theorem form_concat_nil_iff :
    Form (ts ++ [⟨.atom, "nil"⟩]) v ↔ ∃ f, Awaits ts f ∧ v = f .nil := by
  constructor
  · intro h
    generalize hall : ts ++ [(⟨.atom, "nil"⟩ : Token)] = all at h
    induction h generalizing ts with
    | string | keyword => simp [List.append_eq_singleton_iff] at hall
    | word h =>
      obtain ⟨rfl, hword⟩ := List.append_eq_singleton_iff.1 hall |>.resolve_right (by simp)
      obtain rfl : "nil" = _ := by simpa using hword
      obtain rfl := Reader.form_unique (.word h) (.word .nil)
      exact ⟨id, .nothing, rfl⟩
    | mark m h ih =>
      cases ts with
      | nil => simp [ofMark] at hall
      | cons u ts =>
        obtain ⟨rfl, hrest⟩ := List.cons.inj hall
        obtain ⟨f, hf, rfl⟩ := ih hrest
        exact ⟨_, .mark m hf, rfl⟩
    | metadata hdata hv ihdata ih =>
      rename_i ts' us data v
      cases ts with
      | nil => simp [ofMark] at hall
      | cons u ts =>
        obtain ⟨rfl, hrest⟩ := List.cons.inj hall
        rcases List.eq_nil_or_concat us with rfl | ⟨us, t, rfl⟩
        · exact absurd rfl hv.ne_nil
        · rw [List.concat_eq_append, ← List.append_assoc] at hrest
          obtain ⟨rfl, hlast⟩ := List.append_inj' hrest rfl
          obtain ⟨f, hf, rfl⟩ := ih (by rw [List.concat_eq_append, hlast])
          exact ⟨_, .metadata hdata hf, rfl⟩
    | group b hparts hv ih =>
      rw [← List.cons_append] at hall
      obtain ⟨-, hlast⟩ := List.append_inj' hall rfl
      simp [ofMark] at hlast
  · rintro ⟨f, hf, rfl⟩
    exact hf.form (.word .nil)

/-- Forms that end in `nil` are complete forms and tokens that wait for it. -/
theorem forms_concat_nil_iff :
    Forms (ts ++ [⟨.atom, "nil"⟩]) vs ↔ ∃ done left forms f,
      ts = done ++ left ∧ Forms done forms ∧ Awaits left f ∧ vs = forms ++ [f .nil] := by
  constructor
  · intro h
    obtain ⟨left, done, v, forms, rfl, hform, hdone, rfl⟩ := h.exists_last
    obtain ⟨f, hf, rfl⟩ := form_concat_nil_iff.1 hform
    exact ⟨done, left, forms, f, rfl, hdone, hf, rfl⟩
  · rintro ⟨done, left, forms, f, rfl, hdone, hf, rfl⟩
    rw [List.append_assoc]
    exact hdone.append (.single (form_concat_nil_iff.2 ⟨f, hf, rfl⟩))

/-! ## Programs -/

open Session (programText)

/-- What the text of a program is read as. -/
theorem parse_programText_eq_ok_iff {text : String} :
    Reader.parse (programText text) = .ok v ↔ ∃ vs,
      Forms (Token.scan text ++ [⟨.atom, "nil"⟩]) vs ∧ v = .list none (.sym "do" :: vs) := by
  rw [Reader.parse_eq_ok_iff]
  constructor
  · intro h
    have hscan : ∀ t ∈ Token.scan text, t.kind ≠ .error := by
      intro t ht herror
      obtain ⟨t', ht', herror'⟩ := Token.exists_error_programText ⟨t, ht, herror⟩
      exact h.kind_ne_error t' ht' herror'
    rw [Token.scan_programText hscan] at h
    obtain ⟨us, vs, hus, hforms, rfl⟩ := h.of_round
    obtain ⟨rfl, -⟩ := List.append_inj' hus rfl
    obtain ⟨head, vs, hhead, hrest, rfl⟩ := Forms.of_atom hforms
    obtain rfl := Reader.form_unique (.word hhead) (.word denotes_do)
    exact ⟨vs, hrest, rfl⟩
  · rintro ⟨vs, hforms, rfl⟩
    have hscan : ∀ t ∈ Token.scan text, t.kind ≠ .error :=
      fun t ht ↦ hforms.kind_ne_error t (List.mem_append_left _ ht)
    rw [Token.scan_programText hscan]
    exact (Forms.append (.single (.word denotes_do)) hforms).enclosed (.list _)

/-- **A program is accepted exactly if its tokens are complete forms and then marks that wait for
one more.**

These get the `nil` of the last line.  If none waits then the program is read as the sequence of its
forms and `nil`, and it is read as such a sequence in no other case.  A text that is not accepted is
told that its syntax is wrong, unless reading comes to a numeral in it that is not converted. -/
theorem program_accepted_iff (text : String) :
    (∀ v, Reader.parse (programText text) = .ok v ↔ ∃ done left forms f,
      Token.scan text = done ++ left ∧ Forms done forms ∧ Awaits left f ∧
        v = .list none (.sym "do" :: (forms ++ [f .nil]))) ∧
    (∀ forms, Reader.parse (programText text) = .ok (sequenceOf forms) ↔
      Forms (Token.scan text) forms) ∧
    (∀ digits, Reader.parse (programText text) = .error (.unconverted digits) ↔
      Reader.Stumbles (Token.scan (programText text)) digits) ∧
    ∀ f, Reader.parse (programText text) = .error f →
      (∃ e, f = .error e ∧ e.IsSyntactic) ∨ ∃ digits, f = .unconverted digits := by
  have haccepted (v : Value) : Reader.parse (programText text) = .ok v ↔ ∃ done left forms f,
      Token.scan text = done ++ left ∧ Forms done forms ∧ Awaits left f ∧
        v = .list none (.sym "do" :: (forms ++ [f .nil])) := by
    rw [parse_programText_eq_ok_iff]
    constructor
    · rintro ⟨vs, hforms, rfl⟩
      obtain ⟨done, left, forms, f, hscan, hdone, hleft, rfl⟩ := forms_concat_nil_iff.1 hforms
      exact ⟨done, left, forms, f, hscan, hdone, hleft, rfl⟩
    · rintro ⟨done, left, forms, f, hscan, hdone, hleft, rfl⟩
      exact ⟨_, forms_concat_nil_iff.2 ⟨done, left, forms, f, hscan, hdone, hleft, rfl⟩, rfl⟩
  refine ⟨haccepted, fun forms ↦ ⟨fun h ↦ ?_, parse_programText⟩,
    fun digits ↦ Reader.parse_eq_unconverted_iff, fun f h ↦ ?_⟩
  · obtain ⟨done, left, forms', f, hscan, hdone, hleft, hv⟩ := (haccepted _).1 h
    obtain ⟨rfl, hnil⟩ : forms = forms' ∧ Value.nil = f .nil := by
      simpa [sequenceOf] using hv
    obtain ⟨rfl, -⟩ := hleft.eq_nil_of_nil hnil.symm
    rwa [hscan, List.append_nil]
  · obtain ⟨e, rfl, ⟨hnil, -⟩ | ⟨-, he⟩⟩ | hlong := Reader.parse_eq_error h
    · rw [Token.scan_programText_eq] at hnil
      cases hnil
    · exact .inl ⟨e, rfl, he⟩
    · exact .inr hlong

/-- A program that is nothing but a quote is accepted, and is no sequence of complete forms. -/
theorem program_accepts_lone_quote :
    Reader.parse (programText "'") =
        .ok (.list none [.sym "do", .list none [.sym "quote", .nil]]) ∧
      ¬∃ forms, Forms (Token.scan "'") forms := by
  have hread : Reader.parse (programText "'") =
      .ok (.list none [.sym "do", .list none [.sym "quote", .nil]]) := rfl
  refine ⟨hread, ?_⟩
  rintro ⟨forms, hforms⟩
  have hlast : [Value.list none [.sym "quote", .nil]] = forms ++ [.nil] := by
    simpa [sequenceOf] using hread.symm.trans (parse_programText hforms)
  simp [List.singleton_eq_append_iff] at hlast

end Lisplet
