import Lisplet.Token.Scan

/-!
# The tokens of a source text

The scanner makes few kinds of token (`Made`): marks, string literals, complaints, and words.  A
*word* is a non-empty run of word characters, and its first character alone decides whether it is an
`atom` or a `keyword`.  This holds whatever the source text is (`made_of_mem_scan`), because the
scanner is in a word only while it has letters, and takes a further letter only if it is a word
character.

`IsProper` is what the reader needs to know of a word, and is read off the way a token was made.
-/

set_option autoImplicit false

namespace Lisplet.Token

/-- A non-empty run of word characters. -/
def IsRun (cs : List Char) : Prop := cs ≠ [] ∧ ∀ c ∈ cs, isWordChar c = true

-- The instance for the second part is named, so that only the members of the list are looked at.
instance (cs : List Char) : Decidable (IsRun cs) :=
  @instDecidableAnd _ _ inferInstance (List.decidableBAll _ cs)

/-- The tokens that the scanner makes. -/
inductive Made : Token → Prop
  | mark {c : Char} (h : isMark c = true) : Made (ofMark (String.singleton c))
  | tilde : Made (ofMark "~")
  | tildeAt : Made (ofMark "~@")
  | literal (l : Text.Literal) : Made (ofLiteral l)
  | unclosed : Made ⟨.error, "unterminated string literal"⟩
  | word {cs : List Char} (h : IsRun cs) : Made (ofWord (String.ofList cs))

namespace Mode

/-- The scanner is inside a word only while it has letters of one. -/
def IsProper : Mode → Prop
  | word letters => IsRun letters
  | _ => True

theorem made_ofWord {letters : List Char} (h : IsRun letters) :
    Made (ofWord (String.ofList letters.reverse)) :=
  .word ⟨by simpa using h.1, fun d hd ↦ h.2 d (List.mem_reverse.1 hd)⟩

/-- Nothing but a letter starts a word. -/
theorem made_enter (c : Char) : (enter c).1.IsProper ∧ ∀ t ∈ (enter c).2, Made t := by
  rw [enter]
  split
  · exact ⟨trivial, by simp⟩
  split
  · exact ⟨trivial, by simp⟩
  split
  · exact ⟨trivial, by simp⟩
  split
  · exact ⟨trivial, by simp⟩
  split
  · rename_i hm
    exact ⟨trivial, fun t h ↦ List.mem_singleton.1 h ▸ .mark hm⟩
  · rename_i hb hs ht hq hm
    refine ⟨⟨by simp, fun d hd ↦ ?_⟩, by simp⟩
    obtain rfl := List.mem_singleton.1 hd
    simp [isWordChar, hb, hs, ht, hq, hm]

theorem made_feed {m : Mode} (h : m.IsProper) (c : Char) :
    (m.feed c).1.IsProper ∧ ∀ t ∈ (m.feed c).2, Made t := by
  have he := made_enter c
  cases m with
  | idle => exact he
  | comment =>
    rw [feed]
    split <;> exact ⟨trivial, by simp⟩
  | tilde =>
    rw [feed]
    split
    · exact ⟨trivial, fun t ht ↦ List.mem_singleton.1 ht ▸ .tildeAt⟩
    · exact ⟨he.1, List.forall_mem_cons.2 ⟨.tilde, he.2⟩⟩
  | word letters =>
    rw [feed]
    split
    · rename_i hc
      refine ⟨⟨by simp, fun d hd ↦ ?_⟩, by simp⟩
      rcases List.mem_cons.1 hd with rfl | hd
      · exact hc
      · exact h.2 d hd
    · exact ⟨he.1, List.forall_mem_cons.2 ⟨made_ofWord h, he.2⟩⟩
  | text literal =>
    rw [feed]
    split
    · exact ⟨trivial, fun t ht ↦ List.mem_singleton.1 ht ▸ .literal _⟩
    · exact ⟨trivial, by simp⟩

theorem made_of_mem_finish {m : Mode} (h : m.IsProper) {t : Token} (ht : t ∈ m.finish) :
    Made t := by
  cases m with
  | idle => simp [finish] at ht
  | comment => simp [finish] at ht
  | tilde => exact List.mem_singleton.1 ht ▸ .tilde
  | word letters => exact List.mem_singleton.1 ht ▸ made_ofWord h
  | text literal =>
    rcases List.mem_cons.1 ht with rfl | ht
    · exact .unclosed
    · have hslash : IsRun [Text.backslash] := by decide
      split at ht
      · exact List.mem_singleton.1 ht ▸ .word hslash
      · simp at ht

theorem made_of_mem_scan {m : Mode} (h : m.IsProper) {cs : List Char} {t : Token}
    (ht : t ∈ m.scan cs) : Made t := by
  induction cs generalizing m with
  | nil => exact made_of_mem_finish h ht
  | cons c cs ih =>
    obtain ⟨hm, hts⟩ := made_feed h c
    rcases List.mem_append.1 ht with ht | ht
    · exact hts t ht
    · exact ih hm ht

end Mode

/-- **Every token of every source text is of a kind that the scanner makes.** -/
theorem made_of_mem_scan {source : String} {t : Token} (ht : t ∈ scan source) : Made t := by
  rw [scan_eq] at ht
  exact Mode.made_of_mem_scan (m := .idle) trivial ht

/-! ## Words -/

/-- What a token is by its kind: atoms and keywords are words, and only keywords start with a
colon. -/
def IsProper (t : Token) : Prop :=
  match t.kind with
  | .atom => IsRun t.text.toList ∧ t.text.toList.head? ≠ some ':'
  | .keyword => IsRun t.text.toList ∧ t.text.toList.head? = some ':'
  | _ => True

theorem isProper_ofWord {cs : List Char} (h : IsRun cs) : (ofWord (String.ofList cs)).IsProper := by
  have hrun : IsRun (String.ofList cs).toList := by rwa [String.toList_ofList]
  by_cases hc : (String.ofList cs).toList.head? = some ':'
  · have hk : ofWord (String.ofList cs) = ⟨.keyword, String.ofList cs⟩ := by rw [ofWord, if_pos hc]
    rw [hk]
    exact ⟨hrun, hc⟩
  · have hk : ofWord (String.ofList cs) = ⟨.atom, String.ofList cs⟩ := by rw [ofWord, if_neg hc]
    rw [hk]
    exact ⟨hrun, hc⟩

theorem Made.isProper {t : Token} (h : Made t) : t.IsProper := by
  cases h with
  | mark | tilde | tildeAt | unclosed => trivial
  | literal l =>
    rw [ofLiteral]
    split <;> trivial
  | word h => exact isProper_ofWord h

/-- **Every token of every source text is proper.** -/
theorem isProper_of_mem_scan {source : String} {t : Token} (ht : t ∈ scan source) : t.IsProper :=
  (made_of_mem_scan ht).isProper

end Lisplet.Token
