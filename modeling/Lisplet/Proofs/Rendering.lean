import Lisplet.Proofs.Spelling

/-!
# Tokens written back

A token can be written back as source text: a string is quoted, and any other token stands for
itself.  Tokens that are written back with a space from each to the next are scanned as they were
(`scan_renderAll`), whatever they are and whichever of them stand side by side.  Complaints are the
exception, because the text of a complaint is not the source text that it is about.

A space is enough between any two tokens.  It ends a word, and it keeps a tilde from the at sign
behind it, which would be taken as one token with it; that is why the tokens of brackets and words,
which stand by themselves before much else as well (`Spells`), are not all that is dealt with here.

What tokens there are is stated without the scanner: a word is made of characters that neither
separate nor delimit tokens, and the characters that delimit are those of the special tokens and the
double quote (`isWordChar_iff`).
-/

set_option autoImplicit false

namespace Lisplet.Token

/-! ## Writing back -/

/-- The source text of a token: a string is quoted, and any other token stands for itself. -/
def render (t : Token) : String :=
  match t.kind with
  | .string => Text.quote t.text
  | _ => t.text

/-- The source text of some tokens, with a space from each to the next. -/
def renderAll (ts : List Token) : String := " ".intercalate (ts.map render)

theorem render_ofWord (text : String) : render (ofWord text) = text := by
  rw [ofWord]
  split <;> rfl

/-- Whatever mark it is, it is a token when nothing or a space stands behind it. -/
theorem scan_mark {c : Char} (h : isMark c = true) (cs : List Char) :
    Mode.idle.scan (c :: cs) = ofMark (String.singleton c) :: Mode.idle.scan cs := by
  simp only [isMark, List.contains_iff_mem, List.mem_cons, List.not_mem_nil, or_false] at h
  rcases h with rfl | rfl | rfl | rfl | rfl | rfl | rfl | rfl | rfl | rfl <;> rfl

/-- **A token that is written back is scanned as itself** where nothing or a space follows. -/
theorem Made.scan_render {t : Token} (h : t.Made) (hne : t.kind ≠ .error) {cs : List Char}
    (hcs : ∀ c ∈ cs.head?, c = ' ') :
    Mode.idle.scan (t.render.toList ++ cs) = t :: Mode.idle.scan cs := by
  have hspace : ∀ c ∈ cs.head?, isWordChar c = false := by
    intro c hc
    obtain rfl := hcs c hc
    decide
  cases h with
  | @mark c hc =>
    have hrender : (render (ofMark (String.singleton c))).toList = [c] := String.toList_singleton c
    rw [hrender, List.singleton_append, scan_mark hc]
  | tilde =>
    cases cs with
    | nil => rfl
    | cons c cs =>
      obtain rfl : c = ' ' := hcs c rfl
      rfl
  | tildeAt => rfl
  | literal l =>
    rw [ofLiteral] at hne ⊢
    cases hvalue : l.value? with
    | some s => exact (Spells.quote s).tokens cs hspace
    | none => simp [hvalue] at hne
  | unclosed => exact absurd rfl hne
  | @word letters hrun =>
    rw [render_ofWord]
    exact (Spells.word (by rwa [String.toList_ofList])).tokens cs hspace

/-- **Tokens that are written back are scanned as they were**, if none is a complaint. -/
theorem scan_renderAll {ts : List Token} (h : ∀ t ∈ ts, t.Made) (hne : ∀ t ∈ ts, t.kind ≠ .error) :
    scan (renderAll ts) = ts := by
  induction ts with
  | nil => rfl
  | cons t ts ih =>
    obtain ⟨ht, hts⟩ := List.forall_mem_cons.1 h
    obtain ⟨htne, htsne⟩ := List.forall_mem_cons.1 hne
    have hrest := ih hts htsne
    rw [scan_eq] at hrest ⊢
    cases ts with
    | nil =>
      have hsingle : (renderAll [t]).toList = t.render.toList ++ [] := by simp [renderAll]
      rw [hsingle, ht.scan_render htne (by simp)]
      rfl
    | cons u us =>
      have hspace : Mode.idle.feed ' ' = (.idle, []) := rfl
      have hsplit : (renderAll (t :: u :: us)).toList =
          t.render.toList ++ ' ' :: (renderAll (u :: us)).toList := by
        rw [renderAll, List.map_cons, List.map_cons, String.intercalate_cons_cons, ← List.map_cons,
          ← renderAll, String.toList_append, String.toList_append, List.append_assoc]
        rfl
      rw [hsplit, ht.scan_render htne (by simp), Mode.scan, hspace, List.nil_append, hrest]

/-! ## What tokens there are -/

/-- The special tokens. -/
def specials : List String :=
  ["(", ")", "[", "]", "\x7b", "\x7d", "'", "`", "~", "~@", "^", "@"]

/-- The characters that stand between tokens: blanks, and the start of a comment. -/
def isSeparator (c : Char) : Bool := Text.isBlank c || c == ';'

/-- The characters that bound a word by being or starting another token. -/
def isDelimiter (c : Char) : Bool :=
  c == Text.quoteMark || (specials.flatMap String.toList).contains c

/-- A letter of a word is what neither separates nor delimits. -/
theorem isWordChar_iff {c : Char} :
    isWordChar c = true ↔ isSeparator c = false ∧ isDelimiter c = false := by
  have hchars : specials.flatMap String.toList =
      ['(', ')', '[', ']', '\x7b', '\x7d', '\x27', '\x60', '~', '~', '@', '^', '@'] := rfl
  have hspecials : (specials.flatMap String.toList).contains c = (isMark c || c == '~') := by
    rw [Bool.eq_iff_iff, Bool.or_eq_true, isMark, List.contains_iff_mem, List.contains_iff_mem,
      beq_iff_eq, hchars]
    simp only [List.mem_cons, List.not_mem_nil, or_false]
    grind
  rw [isWordChar, isSeparator, isDelimiter, hspecials]
  cases Text.isBlank c <;> cases isMark c <;> simp [and_comm, and_left_comm]

theorem ofMark_mem_specials {c : Char} (h : isMark c = true) : String.singleton c ∈ specials := by
  simp only [isMark, List.contains_iff_mem, List.mem_cons, List.not_mem_nil, or_false] at h
  rcases h with rfl | rfl | rfl | rfl | rfl | rfl | rfl | rfl | rfl | rfl <;> decide

/-- A special token that the scanner makes is one of the list. -/
theorem Made.mem_specials {t : Token} (h : t.Made) (hspecial : t.kind = .special) :
    t.text ∈ specials := by
  cases h with
  | mark hc => exact ofMark_mem_specials hc
  | tilde | tildeAt => decide
  | literal l =>
    rw [ofLiteral] at hspecial
    split at hspecial <;> cases hspecial
  | unclosed => cases hspecial
  | word =>
    rw [ofWord] at hspecial
    dsimp only at hspecial
    split at hspecial <;> cases hspecial

/-- The text of an atom or a keyword is a run of letters, and the first one tells which it is. -/
theorem IsProper.isRun {t : Token} (h : t.IsProper) (hkind : t.kind = .atom ∨ t.kind = .keyword) :
    IsRun t.text.toList ∧ (t.kind = .keyword ↔ t.text.toList.head? = some ':') := by
  rcases hkind with hkind | hkind
  · simp only [IsProper, hkind] at h
    exact ⟨h.1, by simp [hkind, h.2]⟩
  · simp only [IsProper, hkind] at h
    exact ⟨h.1, by simp [hkind, h.2]⟩

/-- **Tokens survive being written back.**  The tokens of a source text, if no complaint is among
them, are also those of the text that they are written back as.  Whatever the source text is, an
atom or a keyword is a run of at least one character of which none separates or delimits, it is a
keyword exactly if the run starts with a colon, and a special token is one of the twelve. -/
theorem scan_renderAll_scan (source : String) :
    ((∀ t ∈ scan source, t.kind ≠ .error) → scan (renderAll (scan source)) = scan source) ∧
    ∀ t ∈ scan source,
      (t.kind = .atom ∨ t.kind = .keyword → t.text.toList ≠ [] ∧
        (∀ c ∈ t.text.toList, isSeparator c = false ∧ isDelimiter c = false) ∧
        (t.kind = .keyword ↔ t.text.toList.head? = some ':')) ∧
      (t.kind = .special → t.text ∈ specials) := by
  refine ⟨scan_renderAll fun t ht ↦ made_of_mem_scan ht, fun t ht ↦ ⟨fun hkind ↦ ?_, ?_⟩⟩
  · obtain ⟨⟨hne, hrun⟩, hcolon⟩ := (isProper_of_mem_scan ht).isRun hkind
    exact ⟨hne, fun c hc ↦ isWordChar_iff.1 (hrun c hc), hcolon⟩
  · exact (made_of_mem_scan ht).mem_specials

/-- A tilde and an at sign that are apart stay apart, and so do a string and a keyword that are
not. -/
theorem scan_renderAll_scan_six :
    let source := "(~ @b\"c\\n\":d ; e"
    let ts : List Token := [ofMark "(", ofMark "~", ofMark "@", ⟨.atom, "b"⟩, ⟨.string, "c\n"⟩,
      ⟨.keyword, ":d"⟩]
    scan source = ts ∧ (∀ t ∈ scan source, t.kind ≠ .error) ∧
      renderAll ts = "( ~ @ b \"c\\n\" :d" ∧ scan (renderAll ts) = ts ∧
      ":d".toList ≠ [] ∧ (∀ c ∈ ":d".toList, isSeparator c = false ∧ isDelimiter c = false) ∧
      "~" ∈ specials := by
  intro source ts
  have hscan : scan source = ts := by decide
  obtain ⟨hback, htokens⟩ := scan_renderAll_scan source
  have hne : ∀ t ∈ scan source, t.kind ≠ .error := by
    rw [hscan]
    decide
  have hkeyword := (htokens ⟨.keyword, ":d"⟩ (by rw [hscan]; decide)).1 (.inr rfl)
  have hspecial := (htokens (ofMark "~") (by rw [hscan]; decide)).2 rfl
  have hsame := hback hne
  rw [hscan] at hsame
  exact ⟨hscan, hne, by decide, hsame, hkeyword.1, hkeyword.2.1, hspecial⟩

end Lisplet.Token
