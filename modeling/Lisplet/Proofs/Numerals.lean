import Mathlib.Algebra.Group.Nat.Defs
import Lisplet.Reader.Read

/-!
# Numerals

A numeral is a sign, or none, and one or more decimal digits (`Numeral`); what it denotes is the sum
of its digits by their places, with the sign put in front.  Nothing in this says how a numeral is
told from other words or how its value is worked out, and the functions that do are compared with
it, each of them once: `isNumeral_iff`, `numeral?_text` and, for the digits that are counted,
`unsigned_text` and `significant_text`.

The reader counts the digits of a numeral before it works out the value, and gives up if too many of
them count.  Giving up changes no answer: behind a first digit other than zero, each digit is a
factor of ten (`pow_le_magnitude`), so that a numeral with too many digits that count is out of
range whatever its sign.  What is not given up may still have too many digits to be converted
(`Integer.Unconverted`), which takes thousands of leading zeros.  But for that, a word may be taken
as if no digits were counted (`literal?_eq`, `ofWord_eq`).
-/

set_option autoImplicit false

namespace Lisplet

/-! ## Digits and signs as characters -/

namespace Integer

variable {cs : List Char} {m : Nat}

theorem isDigit_of_mem (h : isDigits cs = true) {c : Char} (hc : c ∈ cs) : c.isDigit = true := by
  rw [isDigits, Bool.and_eq_true, List.all_eq_true] at h
  exact h.2 c hc

theorem toNat_of_isDigit {c : Char} (h : c.isDigit = true) : 48 ≤ c.toNat ∧ c.toNat < 58 := by
  rw [Char.isDigit, Bool.and_eq_true, decide_eq_true_eq, decide_eq_true_eq] at h
  exact ⟨h.1, Nat.lt_succ_of_le h.2⟩

theorem digits?_eq_some_iff :
    digits? cs = some m ↔ isDigits cs = true ∧ Nat.ofDigitChars 10 cs 0 = m := by
  rw [digits?]
  by_cases h : isDigits cs = true <;> simp [h]

theorem isSome_digits? (cs : List Char) : (digits? cs).isSome = isDigits cs := by
  rw [Bool.eq_iff_iff, Option.isSome_iff_exists]
  simp [digits?_eq_some_iff]

/-- A text has a value as a numeral if it is one. -/
theorem isSome_numeral? (s : String) : (numeral? s).isSome = isNumeral s := by
  rw [numeral?, isNumeral]
  split <;> rw [Option.isSome_map, isSome_digits?]

/-- No sign stands where digits begin. -/
theorem dropWhile_isSign (h : isDigits cs = true) : cs.dropWhile isSign = cs := by
  cases cs with
  | nil => rfl
  | cons c cs =>
    have hc : c.isDigit = true := isDigit_of_mem h List.mem_cons_self
    refine List.dropWhile_cons_of_neg fun hsign ↦ ?_
    rw [isSign, Bool.or_eq_true, beq_iff_eq, beq_iff_eq] at hsign
    rcases hsign with rfl | rfl <;> exact absurd hc (by decide)

end Integer

open Integer (InRange digits? isDigits isNumeral literal? maxConverted maxDigits numeral?
  significant unsigned)

/-! ## Numerals as data -/

/-- The sign of a numeral. -/
inductive Sign
  | none
  | plus
  | minus
  deriving DecidableEq

namespace Sign

/-- How a sign is written. -/
def letters : Sign → List Char
  | none => []
  | plus => ['+']
  | minus => ['-']

/-- The integer of an absolute value and a sign. -/
def apply : Sign → Nat → Int
  | none, m => m
  | plus, m => m
  | minus, m => -m

theorem natAbs_apply (sign : Sign) (m : Nat) : (sign.apply m).natAbs = m := by
  cases sign <;> simp [apply]

end Sign

/-- **A numeral**: a sign or none, and at least one digit. -/
structure Numeral where
  sign : Sign
  digits : List (Fin 10)
  nonempty : digits ≠ []

namespace Numeral

/-- How digits are written. -/
def letters (ds : List (Fin 10)) : List Char := ds.map fun d : Fin 10 ↦ Nat.digitChar d

/-- The number that digits write: each counts as often as its place says. -/
def magnitude : List (Fin 10) → Nat
  | [] => 0
  | d :: ds => d * 10 ^ ds.length + magnitude ds

/-- How a numeral is written. -/
def text (m : Numeral) : String := String.ofList (m.sign.letters ++ letters m.digits)

/-- **The integer that a numeral denotes.** -/
def value (m : Numeral) : Int := m.sign.apply (magnitude m.digits)

variable {ds : List (Fin 10)} {cs : List Char}

theorem isDigits_letters (h : ds ≠ []) : isDigits (letters ds) = true := by
  simp [isDigits, letters, h]

/-- **Evaluating digits from the left** gives their sum by places. -/
theorem ofDigitChars_letters (ds : List (Fin 10)) :
    Nat.ofDigitChars 10 (letters ds) 0 = magnitude ds := by
  induction ds with
  | nil => rfl
  | cons d ds ih =>
    have hcons : letters (d :: ds) = Nat.digitChar d :: letters ds := rfl
    have hlength : (letters ds).length = ds.length := List.length_map _
    rw [hcons, Nat.ofDigitChars_cons_digitChar_of_lt_ten d.isLt,
      Nat.ofDigitChars_eq_ofDigitChars_zero, ih, hlength, magnitude, Nat.mul_zero, Nat.zero_add,
      Nat.mul_comm]

theorem digits?_letters (h : ds ≠ []) : digits? (letters ds) = some (magnitude ds) :=
  Integer.digits?_eq_some_iff.2 ⟨isDigits_letters h, ofDigitChars_letters ds⟩

/-- Every ASCII digit is how a digit is written. -/
theorem exists_digitChar_eq {c : Char} (h : c.isDigit = true) :
    ∃ d : Fin 10, Nat.digitChar d = c := by
  obtain ⟨hle, hlt⟩ := Integer.toNat_of_isDigit h
  have hten : c.toNat - 48 < 10 := by omega
  refine ⟨⟨c.toNat - 48, hten⟩, Char.toNat_inj.1 ?_⟩
  rw [Nat.toNat_digitChar_of_lt_ten hten]
  omega

theorem exists_letters_eq (h : ∀ c ∈ cs, c.isDigit = true) : ∃ ds, letters ds = cs := by
  induction cs with
  | nil => exact ⟨[], rfl⟩
  | cons c cs ih =>
    obtain ⟨hc, hcs⟩ := List.forall_mem_cons.1 h
    obtain ⟨d, rfl⟩ := exists_digitChar_eq hc
    obtain ⟨ds, rfl⟩ := ih hcs
    exact ⟨d :: ds, rfl⟩

/-! ## What is a numeral -/

/-- The value that the reader works out is the one that the numeral denotes. -/
theorem numeral?_text (m : Numeral) : numeral? m.text = some m.value := by
  obtain ⟨sign, ds, h⟩ := m
  have hdigits := digits?_letters h
  rw [numeral?, text, String.toList_ofList, value]
  cases sign with
  | plus | minus => exact congrArg (Option.map _) hdigits
  | none =>
    have hdigit {c : Char} {cs : List Char} (hcs : letters ds = c :: cs) : c.isDigit = true :=
      Integer.isDigit_of_mem (isDigits_letters h) (hcs ▸ List.mem_cons_self)
    split
    · rename_i hcs
      exact absurd (hdigit hcs) (by decide)
    · rename_i hcs
      exact absurd (hdigit hcs) (by decide)
    · exact congrArg (Option.map _) hdigits

/-- **The texts that the reader takes for numerals** are those that are written like one. -/
theorem isNumeral_iff {word : String} : isNumeral word = true ↔ ∃ m : Numeral, m.text = word := by
  constructor
  · intro h
    have hmake (sign : Sign) {cs : List Char} (hword : word.toList = sign.letters ++ cs)
        (hcs : isDigits cs = true) : ∃ m : Numeral, m.text = word := by
      obtain ⟨ds, rfl⟩ := exists_letters_eq fun c hc ↦ Integer.isDigit_of_mem hcs hc
      refine ⟨⟨sign, ds, ?_⟩, ?_⟩
      · rintro rfl
        cases hcs
      · rw [text, ← hword, String.ofList_toList]
    rw [isNumeral] at h
    split at h
    · rename_i hword
      exact hmake .plus hword h
    · rename_i hword
      exact hmake .minus hword h
    · exact hmake .none rfl h
  · rintro ⟨m, rfl⟩
    rw [← Integer.isSome_numeral?, numeral?_text, Option.isSome_some]

/-- **A word has a value as a numeral** if it is written like one that denotes it. -/
theorem numeral?_eq_some_iff {word : String} {n : Int} :
    numeral? word = some n ↔ ∃ m : Numeral, m.text = word ∧ m.value = n := by
  constructor
  · intro h
    obtain ⟨m, rfl⟩ : ∃ m : Numeral, m.text = word := by
      rw [← isNumeral_iff, ← Integer.isSome_numeral?, h, Option.isSome_some]
    exact ⟨m, rfl, Option.some.inj (m.numeral?_text.symm.trans h)⟩
  · rintro ⟨m, rfl, rfl⟩
    exact m.numeral?_text

/-! ## Too many digits -/

/-- **The digits that the reader counts** are all that stand behind the sign, -/
theorem unsigned_text (m : Numeral) : unsigned m.text = letters m.digits := by
  obtain ⟨sign, ds, h⟩ := m
  rw [unsigned, text, String.toList_ofList]
  cases sign <;> exact Integer.dropWhile_isSign (isDigits_letters h)

theorem length_unsigned_text (m : Numeral) : (unsigned m.text).length = m.digits.length := by
  rw [unsigned_text, letters, List.length_map]

/-- and those of them that stand behind the leading zeros. -/
theorem significant_text (m : Numeral) :
    significant m.text = letters (m.digits.dropWhile (· == 0)) := by
  have hzero : ((· == '0') ∘ fun d : Fin 10 ↦ Nat.digitChar d) = (· == 0) := by
    funext d
    revert d
    decide
  rw [significant, unsigned_text, letters, List.dropWhile_map, hzero, letters]

/-- Leading zeros add nothing. -/
theorem magnitude_dropWhile_zero (ds : List (Fin 10)) :
    magnitude (ds.dropWhile (· == 0)) = magnitude ds := by
  induction ds with
  | nil => rfl
  | cons d ds ih =>
    rw [List.dropWhile_cons]
    split
    · rename_i hd
      rw [ih, eq_of_beq hd, magnitude, Fin.val_zero, Nat.zero_mul, Nat.zero_add]
    · rfl

/-- **Behind a first digit other than zero, each digit is a factor of ten.** -/
theorem pow_le_magnitude {d : Fin 10} (hd : d ≠ 0) (ds : List (Fin 10)) :
    10 ^ ds.length ≤ magnitude (d :: ds) := by
  have hpos : 0 < d.val := Nat.pos_of_ne_zero fun h ↦ hd (Fin.ext h)
  rw [magnitude]
  exact Nat.le_trans (Nat.le_mul_of_pos_left _ hpos) (Nat.le_add_right _ _)

/-- Digits that count bound the value from below. -/
theorem pow_le_of_lt_length {k : Nat} (hk : k < (ds.dropWhile (· == 0)).length) :
    10 ^ k ≤ magnitude ds := by
  rw [← magnitude_dropWhile_zero]
  cases hds : ds.dropWhile (· == 0) with
  | nil => simp [hds] at hk
  | cons d rest =>
    have hd : d ≠ 0 := by
      have hhead := List.head?_dropWhile_not (· == 0) ds
      rw [hds] at hhead
      simpa using hhead
    rw [hds, List.length_cons] at hk
    exact Nat.le_trans (Nat.pow_le_pow_right (by decide) (Nat.le_of_lt_succ hk))
      (pow_le_magnitude hd rest)

/-- **A numeral with too many digits that count is out of range**, whatever its sign. -/
theorem not_inRange_of_maxDigits_lt (m : Numeral) (h : maxDigits < (significant m.text).length) :
    ¬InRange m.value := by
  rw [significant_text, letters, List.length_map] at h
  have hlarge : 10 ^ maxDigits ≤ magnitude m.digits := pow_le_of_lt_length h
  have habs : m.value.natAbs = magnitude m.digits := m.sign.natAbs_apply _
  rw [maxDigits] at hlarge
  rw [InRange, Integer.least, Integer.greatest]
  omega

end Numeral

namespace Integer

/-- So few digits of a numeral count that its value is wanted, and it has more digits than are
converted. -/
def Unconverted (word : String) : Prop :=
  (significant word).length ≤ maxDigits ∧ maxConverted < (unsigned word).length

instance (word : String) : Decidable (Unconverted word) := inferInstanceAs (Decidable (_ ∧ _))

/-- **Giving up early changes no answer**: what is not too long to be converted is judged by its
value alone. -/
theorem literal?_eq (word : String) :
    literal? word = (numeral? word).map fun n ↦
      if Unconverted word then .unconverted (unsigned word).length else .ofInt n := by
  rw [literal?, ← isSome_numeral?]
  cases h : numeral? word with
  | none => rfl
  | some n =>
    obtain ⟨m, rfl, rfl⟩ := Numeral.numeral?_eq_some_iff.1 h
    rw [Option.isSome_some, Bool.not_true, if_neg Bool.false_ne_true, Option.map_some,
      Option.map_some]
    by_cases hcount : maxDigits < (significant m.text).length
    · have hwanted : ¬Unconverted m.text := fun h ↦ Nat.not_lt_of_le h.1 hcount
      rw [if_pos hcount, if_neg hwanted, Literal.ofInt,
        if_neg (m.not_inRange_of_maxDigits_lt hcount)]
    · by_cases hlong : maxConverted < (unsigned m.text).length
      · rw [if_neg hcount, if_pos hlong, if_pos ⟨Nat.le_of_not_lt hcount, hlong⟩]
      · rw [if_neg hcount, if_neg hlong, if_neg fun h ↦ hlong h.2]

theorem unconverted_of_significant_eq_nil {word : String} (h : significant word = [])
    (hlength : maxConverted < (unsigned word).length) : Unconverted word :=
  ⟨by rw [h]; exact Nat.zero_le _, hlength⟩

theorem not_unconverted {word : String} (h : (unsigned word).length ≤ maxConverted) :
    ¬Unconverted word := fun hlong ↦ Nat.not_lt_of_le h hlong.2

/-- Of the numerals in range, those are not converted that are too long. -/
theorem unconverted_iff {word : String} {n : Int} (h : numeral? word = some n) (hn : InRange n) :
    Unconverted word ↔ maxConverted < (unsigned word).length := by
  obtain ⟨m, rfl, rfl⟩ := Numeral.numeral?_eq_some_iff.1 h
  refine and_iff_right (Nat.le_of_not_lt fun hcount ↦ ?_)
  exact m.not_inRange_of_maxDigits_lt hcount hn

end Integer

namespace Reader

/-- A numeral is judged by its value alone, unless it is too long to be converted. -/
theorem ofWord_eq (word : String) :
    ofWord word =
      match numeral? word with
      | some n =>
        if Integer.Unconverted word then .error (.unconverted (unsigned word).length)
        else if InRange n then .ok (.int n)
        else .error (.error (.numeralRange word))
      | none =>
        .ok (if word = "nil" then .nil
          else if word = "true" then .bool true
          else if word = "false" then .bool false
          else .sym word) := by
  rw [ofWord, Integer.literal?_eq]
  cases numeral? word with
  | none => rfl
  | some n =>
    rw [Option.map_some, Integer.Literal.ofInt]
    dsimp only
    by_cases hlong : Integer.Unconverted word
    · rw [if_pos hlong, if_pos hlong]
    · rw [if_neg hlong, if_neg hlong]
      by_cases hn : InRange n
      · rw [if_pos hn, if_pos hn]
      · rw [if_neg hn, if_neg hn]

end Reader

end Lisplet
