import Lisplet.Proofs.Spelling
import Mathlib.Algebra.Group.Int.Defs

/-!
# Reading numerals

The reader decides numerals exactly.  A word is read as an integer if it is a numeral whose value
is in range, it is an error if it is a numeral whose value is not, and it is something else if it is
no numeral.  A numeral that stands alone is one token, and every integer is printed as a numeral
that denotes it, so that the printed form of an integer in range is read as that integer.

This goes for numerals that are short enough to be converted.  Of the longer ones those are still an
error of which too many digits count, and the others, such as thousands of zeros, come to nothing
(`read_zeros`).
-/

set_option autoImplicit false

namespace Lisplet.Numeral

open Integer (InRange Literal isNumeral literal? maxConverted maxDigits numeral? significant
  unsigned)

theorem isRun_text (m : Numeral) : Token.IsRun m.text.toList := by
  rw [text, String.toList_ofList]
  refine ⟨by simp [letters, m.nonempty], fun c hc ↦ ?_⟩
  rcases List.mem_append.1 hc with hc | hc
  · have hsign (sign : Sign) : ∀ c ∈ sign.letters, Token.isWordChar c = true := by
      cases sign with
      | none => exact List.forall_mem_nil _
      | plus | minus => exact List.forall_mem_singleton.2 (by decide)
    exact hsign m.sign c hc
  · exact Token.isWordChar_of_isDigit (Integer.isDigit_of_mem (isDigits_letters m.nonempty) hc)

/-- A numeral is one token wherever it stands alone, and that token is an atom. -/
theorem scan_text (m : Numeral) : Token.scan m.text = [⟨.atom, m.text⟩] := by
  rw [(Token.Spells.word m.isRun_text).scan_eq, Token.ofWord,
    if_neg (Integer.head?_ne_colon_of_numeral? m.numeral?_text)]

theorem ofWord_text (m : Numeral) :
    Reader.ofWord m.text =
      if Integer.Unconverted m.text then .error (.unconverted m.digits.length)
      else if InRange m.value then .ok (.int m.value)
      else .error (.error (.numeralRange m.text)) := by
  rw [Reader.ofWord_eq, numeral?_text, length_unsigned_text]

theorem not_unconverted {m : Numeral} (h : m.digits.length ≤ maxConverted) :
    ¬Integer.Unconverted m.text :=
  Integer.not_unconverted (m.length_unsigned_text.symm ▸ h)

/-- A numeral in range is read as its value, however little may be nested. -/
theorem read_text (m : Numeral) (hlength : m.digits.length ≤ maxConverted) (h : InRange m.value)
    (limit : Nat) : Reader.read limit m.text = .ok (.int m.value) := by
  refine Reader.read_of_scan m.scan_text ?_
  show (Reader.ofWord m.text).map _ = _
  rw [ofWord_text, if_neg (not_unconverted hlength), if_pos h]
  rfl

/-! ## Zeros -/

/-- Zero, written with one digit and so many more. -/
def zeros (more : Nat) : Numeral := ⟨.none, List.replicate (more + 1) 0, by simp⟩

theorem text_zeros (more : Nat) :
    (zeros more).text = String.ofList (List.replicate (more + 1) '0') := by
  rw [text, zeros, Sign.letters, letters, List.map_replicate]
  rfl

theorem scan_zeros (more : Nat) : Token.scan (String.ofList (List.replicate (more + 1) '0')) =
    [⟨.atom, String.ofList (List.replicate (more + 1) '0')⟩] := by
  rw [← text_zeros, scan_text]

theorem dropWhile_zeros (more : Nat) : (zeros more).digits.dropWhile (· == 0) = [] :=
  (List.dropWhile_replicate ..).trans (if_pos rfl)

theorem value_zeros (more : Nat) : (zeros more).value = 0 := by
  have hmagnitude : magnitude (zeros more).digits = 0 := by
    rw [← magnitude_dropWhile_zero, dropWhile_zeros, magnitude]
  rw [value, hmagnitude]
  rfl

theorem unconverted_zeros {more : Nat} (h : maxConverted ≤ more) :
    Integer.Unconverted (zeros more).text := by
  refine Integer.unconverted_of_significant_eq_nil ?_ ?_
  · rw [significant_text, dropWhile_zeros]
    rfl
  · rw [length_unsigned_text, zeros, List.length_replicate]
    exact Nat.lt_succ_of_le h

/-- **Too many zeros come to nothing**, and not even to an error. -/
theorem read_zeros {more : Nat} (h : maxConverted ≤ more) (limit : Nat) :
    Reader.read limit (String.ofList (List.replicate (more + 1) '0')) =
      .error (.unconverted (more + 1)) := by
  have hword : Reader.ofWord (zeros more).text = .error (.unconverted (more + 1)) := by
    rw [ofWord_text, if_pos (unconverted_zeros h), zeros, List.length_replicate]
  rw [← text_zeros, Reader.read, scan_text, Reader.readAll, if_neg (by simp), Reader.readForm,
    Reader.readFrom, Reader.feed, hword]
  rfl

/-! ## Every numeral -/

theorem inRange_iff {n : Int} : InRange n ↔ -2 ^ 63 ≤ n ∧ n < 2 ^ 63 := by
  rw [InRange, Integer.least, Integer.greatest]
  omega

/-- **Numerals are decided exactly.**

A numeral of any sign and with any number of leading zeros that has at most 4300 digits is read as
the integer that it denotes if that is one of 64 bits, and is an error otherwise.  The digits that
are counted are those behind the leading zeros, more of them than there may be put the integer out
of range, and so giving up because of them has the outcome of the range test on every such word.  A
longer numeral is an error if so many of its digits count, and else is not converted.  What is no
numeral is read, and not as an integer.  So the printed form of an integer of 64 bits is read as
that integer. -/
theorem decided_exactly :
    (∀ m : Numeral, m.digits.length ≤ 4300 → Reader.ofWord m.text =
      if -2 ^ 63 ≤ m.value ∧ m.value < 2 ^ 63 then .ok (.int m.value)
      else .error (.error (.numeralRange m.text))) ∧
    (∀ m : Numeral, 4300 < m.digits.length → Reader.ofWord m.text =
      if maxDigits < (significant m.text).length then .error (.error (.numeralRange m.text))
      else .error (.unconverted m.digits.length)) ∧
    (∀ m : Numeral, significant m.text = letters (m.digits.dropWhile (· == 0)) ∧
      (maxDigits < (significant m.text).length → ¬InRange m.value)) ∧
    (∀ word : String, (unsigned word).length ≤ 4300 →
      literal? word = (numeral? word).map Literal.ofInt) ∧
    (∀ word : String, (∀ m : Numeral, m.text ≠ word) →
      ∃ v : Value, Reader.ofWord word = .ok v ∧ ∀ n : Int, v ≠ .int n) ∧
    ∀ n : Int, -2 ^ 63 ≤ n → n < 2 ^ 63 →
      ∀ (heap : Heap) (style : PrintStyle) (room limit : Nat),
        (Value.int n).print heap style (room + 1) = some (Int.repr n) ∧
          Reader.read limit (Int.repr n) = .ok (.int n) := by
  refine ⟨fun m hm ↦ ?_, fun m hm ↦ ?_, fun m ↦ ⟨m.significant_text, ?_⟩, fun word hword ↦ ?_, ?_,
    ?_⟩
  · rw [ofWord_text, if_neg (not_unconverted hm)]
    simp only [inRange_iff]
  · have hlength : maxConverted < (unsigned m.text).length := m.length_unsigned_text.symm ▸ hm
    rw [ofWord_text]
    by_cases hcount : maxDigits < (significant m.text).length
    · have hwanted : ¬Integer.Unconverted m.text := fun h ↦ Nat.not_lt_of_le h.1 hcount
      rw [if_pos hcount, if_neg hwanted, if_neg (m.not_inRange_of_maxDigits_lt hcount)]
    · rw [if_neg hcount, if_pos ⟨Nat.le_of_not_lt hcount, hlength⟩]
  · exact m.not_inRange_of_maxDigits_lt
  · rw [Integer.literal?_eq]
    simp only [if_neg (Integer.not_unconverted hword)]
  · intro word hword
    have hnum : numeral? word = none := by
      rw [← Option.not_isSome_iff_eq_none, Integer.isSome_numeral?, isNumeral_iff]
      exact fun ⟨m, hm⟩ ↦ hword m hm
    rw [Reader.ofWord_eq, hnum]
    refine ⟨_, rfl, fun n ↦ ?_⟩
    split
    · simp
    split
    · simp
    split <;> simp
  · intro n hleast hgreatest heap style room limit
    have hn : InRange n := inRange_iff.2 ⟨hleast, hgreatest⟩
    have hlength := Integer.length_unsigned_repr_le hn
    -- the printed form is written like a numeral that denotes the integer
    obtain ⟨m, hm, rfl⟩ := numeral?_eq_some_iff.1 (Integer.numeral?_repr n)
    rw [← hm, length_unsigned_text] at hlength
    exact ⟨rfl, hm ▸ m.read_text hlength hn limit⟩

/-- The least integer behind a sign and two zeros, a numeral that just has a digit too many, one of
thousands of zeros, and a word with two signs. -/
theorem decided_exactly_least :
    let m : Numeral :=
      ⟨.minus, [0, 0, 9, 2, 2, 3, 3, 7, 2, 0, 3, 6, 8, 5, 4, 7, 7, 5, 8, 0, 8], by simp⟩
    let large : Numeral := ⟨.plus, 0 :: 1 :: List.replicate 19 0, by simp⟩
    let least : Int := -9223372036854775808
    (m.digits.length ≤ 4300 ∧ m.text = "-009223372036854775808" ∧
      Reader.ofWord m.text = .ok (.int least)) ∧
    (4300 < (zeros 4300).digits.length ∧
      Reader.ofWord (zeros 4300).text = .error (.unconverted 4301)) ∧
    (maxDigits < (significant large.text).length ∧ ¬InRange large.value) ∧
    ((unsigned "-1").length ≤ 4300 ∧ literal? "-1" = some (.value (-1))) ∧
    ((∀ m : Numeral, m.text ≠ "+-1") ∧
      ∃ v : Value, Reader.ofWord "+-1" = .ok v ∧ ∀ n : Int, v ≠ .int n) ∧
    (-2 ^ 63 ≤ least ∧ least < 2 ^ 63) ∧
      (Value.int least).print #[] .readable 1 = some "-9223372036854775808" ∧
      Reader.read 0 "-9223372036854775808" = .ok (.int least) := by
  intro m large least
  obtain ⟨hvalue, hlong, hcounted, hshort, hother, hprinted⟩ := decided_exactly
  have hm : m.value = least := by decide
  have hzeros : 4300 < (zeros 4300).digits.length := by rw [zeros, List.length_replicate]; decide
  have hwanted : (significant (zeros 4300).text).length ≤ maxDigits :=
    (unconverted_zeros (Nat.le_refl maxConverted)).1
  have hlarge : maxDigits < (significant large.text).length := by decide
  have hrange : -2 ^ 63 ≤ least ∧ least < 2 ^ 63 := by decide
  have hsigns (m : Numeral) : m.text ≠ "+-1" := by
    intro hm
    have hnum : isNumeral "+-1" = true := isNumeral_iff.2 ⟨m, hm⟩
    exact absurd hnum (by decide)
  refine ⟨⟨by decide, by decide, ?_⟩, ⟨hzeros, ?_⟩, ⟨hlarge, (hcounted large).2 hlarge⟩,
    ⟨by decide, ?_⟩, ⟨hsigns, hother _ hsigns⟩, hrange,
    hprinted least hrange.1 hrange.2 #[] .readable 0 0⟩
  · rw [hvalue m (by decide), hm, if_pos hrange]
  · rw [hlong _ hzeros, if_neg (Nat.not_lt_of_le hwanted), zeros, List.length_replicate]
  · rw [hshort _ (by decide)]
    rfl

end Lisplet.Numeral
