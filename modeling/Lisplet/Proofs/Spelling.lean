import Lisplet.Proofs.Numerals
import Lisplet.Proofs.Words
import Lisplet.Reader.Delimiter
import Lisplet.Value.Print

/-!
# Texts that keep their tokens

Printed values stand side by side, with a space or a bracket between them, and each has to make the
tokens there that it makes alone.  `Spells text ts` says that it does: wherever the text stands
between two tokens, and whatever follows it other than another letter, it makes the tokens `ts`.  It
also says that the text is a single line.

Words and quoted strings are of this kind, and so is what is made of such texts by brackets and
spaces (`Spells.bracketed`).  A word has to be told where it ends; a quoted string knows, because
escaping leaves no double quote that could be taken for its end.
-/

set_option autoImplicit false

namespace Lisplet.Token

/-- Alone or before anything but a letter, the text makes the tokens; and it is a single line. -/
structure Spells (text : String) (ts : List Token) : Prop where
  line : '\n' ∉ text.toList
  tokens : ∀ cs : List Char, (∀ c ∈ cs.head?, isWordChar c = false) →
    Mode.idle.scan (text.toList ++ cs) = ts ++ Mode.idle.scan cs

theorem Spells.scan_eq {text : String} {ts : List Token} (h : Spells text ts) : scan text = ts := by
  have htokens := h.tokens [] (by simp)
  rw [List.append_nil] at htokens
  rw [Token.scan_eq, htokens, Mode.scan, Mode.finish, List.append_nil]

/-! ## Words -/

/-- A letter is none of the characters that mean something by themselves. -/
theorem enter_of_isWordChar {c : Char} (h : isWordChar c = true) :
    Mode.enter c = (.word [c], []) := by
  simp only [isWordChar, Bool.not_eq_true', Bool.or_eq_false_iff, beq_eq_false_iff_ne] at h
  obtain ⟨⟨⟨⟨hblank, hmark⟩, htilde⟩, hquote⟩, hsemicolon⟩ := h
  simp [Mode.enter, hblank, hmark, htilde, hquote, hsemicolon]

/-- A word goes on as long as there are letters. -/
theorem scan_word (letters cs : List Char) {rest : List Char}
    (hcs : ∀ c ∈ cs, isWordChar c = true) (hrest : ∀ c ∈ rest.head?, isWordChar c = false) :
    (Mode.word letters).scan (cs ++ rest) =
      ofWord (String.ofList (letters.reverse ++ cs)) :: Mode.idle.scan rest := by
  induction cs generalizing letters with
  | nil =>
    rw [List.nil_append, List.append_nil]
    cases rest with
    | nil => rfl
    | cons c rest =>
      have hc : isWordChar c = false := hrest c rfl
      simp [Mode.scan, Mode.feed, hc]
  | cons c cs ih =>
    obtain ⟨hc, hcs⟩ := List.forall_mem_cons.1 hcs
    have hfeed : (Mode.word letters).feed c = (.word (c :: letters), []) := by
      rw [Mode.feed, if_pos hc]
    rw [List.cons_append, Mode.scan, hfeed, List.nil_append, ih _ hcs, List.reverse_cons,
      List.append_assoc, List.singleton_append]

theorem Spells.word {text : String} (h : IsRun text.toList) : Spells text [ofWord text] where
  line hmem := absurd (h.2 _ hmem) (by decide)
  tokens cs hcs := by
    obtain ⟨hne, hletters⟩ := h
    obtain ⟨c, ds, hds⟩ := List.exists_cons_of_ne_nil hne
    rw [hds] at hletters
    obtain ⟨hc, hletters⟩ := List.forall_mem_cons.1 hletters
    rw [hds, List.cons_append, Mode.scan, Mode.feed, enter_of_isWordChar hc, List.nil_append,
      scan_word _ _ hletters hcs, List.reverse_singleton, List.singleton_append, ← hds,
      String.ofList_toList, List.singleton_append]

/-! ## Quoted strings -/

/-- **No part of an escape is taken for the end** of the string. -/
theorem scan_text_escape {l : Text.Literal} (hl : l.escaping = false) (c : Char) (cs : List Char) :
    (Mode.text l).scan (Text.escape c ++ cs) =
      (Mode.text ((Text.escape c).foldl Text.Literal.push l)).scan cs := by
  have hslash : Text.backslash ≠ Text.quoteMark := by decide
  have hpush {l : Text.Literal} {d : Char} {ds : List Char}
      (h : d ≠ Text.quoteMark ∨ l.escaping = true) :
      (Mode.text l).scan (d :: ds) = (Mode.text (l.push d)).scan ds := by
    have hfeed : (Mode.text l).feed d = (.text (l.push d), []) := by
      rw [Mode.feed, if_neg]
      rcases h with h | h <;> simp [h]
    rw [Mode.scan, hfeed, List.nil_append]
  have hescaping : (l.push Text.backslash).escaping = true := by
    simp [Text.Literal.push, hl]
  rw [Text.escape]
  split
  · exact (hpush (.inl hslash)).trans (hpush (.inr hescaping))
  split
  · exact (hpush (.inl hslash)).trans (hpush (.inr hescaping))
  split
  · exact (hpush (.inl hslash)).trans (hpush (.inr hescaping))
  · rename_i hquote _
    exact hpush (.inl hquote)

/-- Reading undoes quoting, whatever has been read of the string. -/
theorem scan_text {l : Text.Literal} {done : List Char} (hl : l.escaping = false)
    (hdone : l.meant = some done) (cs rest : List Char) :
    (Mode.text l).scan (cs.flatMap Text.escape ++ Text.quoteMark :: rest) =
      ⟨.string, String.ofList (done.reverse ++ cs)⟩ :: Mode.idle.scan rest := by
  induction cs generalizing l done with
  | nil =>
    have hfeed : (Mode.text l).feed Text.quoteMark =
        (.idle, [⟨.string, String.ofList done.reverse⟩]) := by
      rw [Mode.feed, if_pos (by simp [hl]), ofLiteral, Text.Literal.value?, hdone]
      rfl
    rw [List.flatMap_nil, List.nil_append, Mode.scan, hfeed, List.append_nil]
    rfl
  | cons c cs ih =>
    rw [List.flatMap_cons, List.append_assoc, scan_text_escape hl,
      Text.Literal.foldl_push_escape l hl, hdone]
    have hmeant : (some done).map (c :: ·) = some (c :: done) := rfl
    rw [ih rfl hmeant, List.reverse_cons, List.append_assoc, List.singleton_append]

theorem Spells.quote (s : String) : Spells (Text.quote s) [⟨.string, s⟩] where
  line hmem := by
    have hescape (c : Char) : '\n' ∉ Text.escape c := by
      have hslash : '\n' ≠ Text.backslash := by decide
      have hquote : '\n' ≠ Text.quoteMark := by decide
      rw [Text.escape]
      split
      · simp [hslash]
      split
      · simp [hslash, hquote]
      split
      · simp [hslash]
      · rename_i hc
        simpa using Ne.symm hc
    simp only [Text.quote, String.toList_ofList, List.mem_cons, List.mem_append, List.mem_flatMap,
      List.not_mem_nil, or_false] at hmem
    obtain h | ⟨c, -, hc⟩ | h := hmem
    · exact absurd h (by decide)
    · exact hescape c hc
    · exact absurd h (by decide)
  tokens cs _ := by
    have hfeed : Mode.idle.feed Text.quoteMark = (.text {}, []) := rfl
    rw [Text.quote, String.toList_ofList, List.cons_append, List.append_assoc,
      List.singleton_append, Mode.scan, hfeed, List.nil_append, scan_text rfl rfl,
      List.reverse_nil, List.nil_append, String.ofList_toList]
    rfl

/-! ## Texts between brackets -/

/-- A bracket is a token wherever it stands between tokens. -/
theorem scan_opener (b : Bracket) (cs : List Char) :
    Mode.idle.scan (b.opener.toList ++ cs) = ofMark b.opener :: Mode.idle.scan cs := by
  cases b <;> rfl

theorem scan_closer (b : Bracket) (cs : List Char) :
    Mode.idle.scan (b.closer.toList ++ cs) = ofMark b.closer :: Mode.idle.scan cs := by
  cases b <;> rfl

theorem isWordChar_closer (b : Bracket) (cs : List Char) :
    ∀ c ∈ (b.closer.toList ++ cs).head?, isWordChar c = false := by
  cases b <;> exact fun c hc ↦ Option.some.inj hc ▸ rfl

namespace Spells

variable {α : Type} {text : α → String} {ts : α → List Token} {xs : List α}

/-- Texts with spaces between them. -/
theorem separated (h : ∀ x ∈ xs, Spells (text x) (ts x)) :
    Spells (" ".intercalate (xs.map text)) (xs.flatMap ts) := by
  induction xs with
  | nil => exact ⟨by simp, fun cs _ ↦ rfl⟩
  | cons x xs ih =>
    obtain ⟨hx, hxs⟩ := List.forall_mem_cons.1 h
    cases xs with
    | nil => simpa using hx
    | cons y ys =>
      have hrest := ih hxs
      have hspace : " ".toList = [' '] := rfl
      rw [List.map_cons, List.map_cons, String.intercalate_cons_cons, ← List.map_cons]
      refine ⟨?_, fun cs hcs ↦ ?_⟩
      · simp only [String.toList_append, hspace, List.mem_append, not_or]
        exact ⟨⟨hx.line, by decide⟩, hrest.line⟩
      · have hfeed : Mode.idle.feed ' ' = (.idle, []) := rfl
        rw [String.toList_append, String.toList_append, hspace, List.append_assoc,
          List.append_assoc, List.singleton_append, hx.tokens _ (by simp; decide), Mode.scan, hfeed,
          List.nil_append, hrest.tokens _ hcs, ← List.append_assoc, ← List.flatMap_cons]

/-- Texts between brackets. -/
theorem bracketed (b : Bracket) (h : ∀ x ∈ xs, Spells (text x) (ts x)) :
    Spells (Value.bracketed b.opener (xs.map text) b.closer)
      (ofMark b.opener :: (xs.flatMap ts ++ [ofMark b.closer])) where
  line := by
    rw [Value.bracketed, String.toList_append, String.toList_append, List.mem_append,
      List.mem_append, not_or, not_or]
    exact ⟨⟨by cases b <;> decide, (separated h).line⟩, by cases b <;> decide⟩
  tokens cs _ := by
    rw [Value.bracketed, String.toList_append, String.toList_append, List.append_assoc,
      List.append_assoc, scan_opener, (separated h).tokens _ (isWordChar_closer b cs), scan_closer,
      List.cons_append, List.append_assoc, List.singleton_append]

end Spells

end Lisplet.Token

namespace Lisplet

/-! ## Numerals -/

namespace Integer

theorem isDigit_of_mem_toDigits {m : Nat} {c : Char} (h : c ∈ Nat.toDigits 10 m) :
    c.isDigit = true :=
  Nat.isDigit_of_mem_toDigits (by decide) (by decide) h

theorem toList_repr (m : Nat) : (Nat.repr m).toList = Nat.toDigits 10 m := by
  rw [Nat.repr_eq_ofList_toDigits, String.toList_ofList]

theorem toList_minus_append_repr (m : Nat) :
    ("-" ++ Nat.repr m).toList = '-' :: Nat.toDigits 10 m := by
  rw [String.toList_append, toList_repr]
  rfl

theorem isDigits_toDigits (m : Nat) : isDigits (Nat.toDigits 10 m) = true := by
  have hne : (Nat.toDigits 10 m).isEmpty = false := List.isEmpty_eq_false_iff.2 Nat.toDigits_ne_nil
  have hall : (Nat.toDigits 10 m).all Char.isDigit = true :=
    List.all_eq_true.2 fun c hc ↦ isDigit_of_mem_toDigits hc
  simp [isDigits, hne, hall]

theorem digits?_toDigits (m : Nat) : digits? (Nat.toDigits 10 m) = some m :=
  digits?_eq_some_iff.2 ⟨isDigits_toDigits m, Nat.ofDigitChars_ten_toDigits⟩

/-- **The printed form of a number is a numeral for it.** -/
theorem numeral?_repr (n : Int) : numeral? (Int.repr n) = some n := by
  have hdigit {m : Nat} {c : Char} {cs : List Char} (h : Nat.toDigits 10 m = c :: cs) :
      c.isDigit = true := isDigit_of_mem_toDigits (h ▸ List.mem_cons_self)
  rw [Int.repr_eq_if]
  by_cases hn : 0 ≤ n
  · rw [if_pos hn, numeral?, toList_repr]
    split
    · rename_i cs h
      exact absurd (hdigit h) (by decide)
    · rename_i cs h
      exact absurd (hdigit h) (by decide)
    · rw [digits?_toDigits, Option.map_some]
      exact congrArg some (Int.toNat_of_nonneg hn)
  · rw [if_neg hn, numeral?, toList_minus_append_repr]
    simp only [digits?_toDigits, Option.map_some, Option.some.injEq, Int.ofNat_eq_natCast]
    omega

theorem unsigned_repr (n : Int) : unsigned (Int.repr n) = Nat.toDigits 10 n.natAbs := by
  rw [Int.repr_eq_if]
  by_cases hn : 0 ≤ n
  · have habs : n.toNat = n.natAbs := by omega
    rw [if_pos hn, unsigned, toList_repr, habs, dropWhile_isSign (isDigits_toDigits _)]
  · have habs : (-n).toNat = n.natAbs := by omega
    rw [if_neg hn, unsigned, toList_minus_append_repr, habs, List.dropWhile_cons_of_pos rfl,
      dropWhile_isSign (isDigits_toDigits _)]

/-- **An integer in range is printed short enough to be converted.** -/
theorem length_unsigned_repr_le {n : Int} (hn : InRange n) :
    (unsigned (Int.repr n)).length ≤ maxConverted := by
  have habs : n.natAbs < 10 ^ maxConverted := by
    have hsmall : n.natAbs < 10 ^ 19 := by
      rw [InRange, least, greatest] at hn
      omega
    exact Nat.lt_of_lt_of_le hsmall (Nat.pow_le_pow_right (by decide) (by decide))
  rw [unsigned_repr]
  exact (Nat.length_toDigits_le_iff (by decide) (by decide)).2 habs

/-- A numeral is no keyword. -/
theorem head?_ne_colon_of_numeral? {word : String} {n : Int} (h : numeral? word = some n) :
    word.toList.head? ≠ some ':' := by
  intro hcolon
  obtain ⟨cs, hcs⟩ := List.head?_eq_some_iff.1 hcolon
  have hdigit : Char.isDigit ':' = false := by decide
  simp [numeral?, hcs, digits?, isDigits, hdigit] at h

end Integer

namespace Token

theorem isWordChar_of_isDigit {c : Char} (h : c.isDigit = true) : isWordChar c = true := by
  have hdigits : ∀ n : Fin 58, 48 ≤ n.val → isWordChar (Char.ofNat n.val) = true := by decide
  have hc := Integer.toNat_of_isDigit h
  have hw := hdigits ⟨c.toNat, hc.2⟩ hc.1
  rwa [Char.ofNat_toNat] at hw

theorem isRun_repr (n : Int) : IsRun (Int.repr n).toList := by
  rw [Int.repr_eq_if]
  split
  · rw [Integer.toList_repr]
    exact ⟨Nat.toDigits_ne_nil, fun c hc ↦
      isWordChar_of_isDigit (Integer.isDigit_of_mem_toDigits hc)⟩
  · rw [Integer.toList_minus_append_repr]
    exact ⟨by simp, List.forall_mem_cons.2 ⟨by decide, fun c hc ↦
      isWordChar_of_isDigit (Integer.isDigit_of_mem_toDigits hc)⟩⟩

end Token

end Lisplet
