import Lisplet.Proofs.Program

/-!
# Arithmetic in range

The integers are the 64-bit signed ones, and arithmetic is exact or throws: what an operation gives
is the result among all integers if that is in range, and a value that says which operation
overflowed if it is not (`Checked`).  Division cuts off toward zero (`Integer.IsQuotient`), which
determines the quotient, and it throws in two more cases only: by zero, and the least integer by
minus one (`Divided`).

The quotient is computed from the absolute values and given its sign afterwards; that this is
division toward zero for every combination of signs is `Integer.quotient_eq_tdiv`, and the rest
follows from the library's truncating division.
-/

set_option autoImplicit false

namespace Lisplet

/-! ## The quotient -/

namespace Integer

variable {a b q q' : Int}

/-- **The quotient that is cut off toward zero**: what remains is smaller than the divisor, and
nothing or of the sign of the dividend. -/
def IsQuotient (a b q : Int) : Prop :=
  ∃ r, a = q * b + r ∧ r.natAbs < b.natAbs ∧ (r = 0 ∨ r.sign = a.sign)

theorem quotient_eq_tdiv (a b : Int) : quotient a b = a.tdiv b := by
  have hnat (n : Nat) : ¬Int.ofNat n < 0 := Int.not_lt.2 (Int.natCast_nonneg n)
  have hneg (n : Nat) : Int.negSucc n < 0 := Int.negSucc_lt_zero n
  rw [quotient]
  cases a with
  | ofNat m =>
    cases b with
    | ofNat n =>
      rw [if_pos (by simp only [hnat])]
      rfl
    | negSucc n =>
      rw [if_neg (by simp [hneg])]
      rfl
  | negSucc m =>
    cases b with
    | ofNat n =>
      rw [if_neg (by simp [hneg])]
      rfl
    | negSucc n =>
      rw [if_pos (by simp only [hneg])]
      rfl

theorem isQuotient_quotient (a : Int) (hb : b ≠ 0) : IsQuotient a b (quotient a b) := by
  refine ⟨a.tmod b, ?_, ?_, ?_⟩
  · rw [quotient_eq_tdiv, Int.tdiv_mul_add_tmod]
  · rw [Int.natAbs_tmod]
    exact Nat.mod_lt _ (Int.natAbs_pos.2 hb)
  · rw [Int.sign_tmod]
    by_cases hdvd : b ∣ a
    · exact .inl (Int.tmod_eq_zero_of_dvd hdvd)
    · exact .inr (if_neg hdvd)

example : (quotient (-7) 2, quotient 7 (-2), quotient (-7) (-2)) = (-3, -3, 3) := by decide

/-- What remains is on the same side of zero as the dividend. -/
theorem same_side {r : Int} (h : r = 0 ∨ r.sign = a.sign) : (0 ≤ a → 0 ≤ r) ∧ (a ≤ 0 → r ≤ 0) := by
  rcases h with rfl | h
  · exact ⟨fun _ ↦ Int.le_refl 0, fun _ ↦ Int.le_refl 0⟩
  · refine ⟨fun ha ↦ ?_, fun ha ↦ ?_⟩
    · rwa [← Int.sign_nonneg_iff, h, Int.sign_nonneg_iff]
    · rwa [← Int.sign_nonpos_iff, h, Int.sign_nonpos_iff]

/-- There is one such quotient. -/
theorem IsQuotient.unique (h : IsQuotient a b q) (h' : IsQuotient a b q') : q = q' := by
  obtain ⟨r, ha, hr, hside⟩ := h
  obtain ⟨r', ha', hr', hside'⟩ := h'
  have hsides := same_side hside
  have hsides' := same_side hside'
  -- two remainders on one side of zero differ by less than the divisor
  have hlt : (r' - r).natAbs < b.natAbs := by omega
  have hmul : (q - q') * b = r' - r := by
    rw [Int.sub_mul]
    omega
  refine Decidable.byContradiction fun hne ↦ ?_
  have hpos : 0 < (q - q').natAbs := by omega
  have hle : b.natAbs ≤ ((q - q') * b).natAbs := by
    rw [Int.natAbs_mul]
    exact Nat.le_mul_of_pos_left _ hpos
  rw [hmul] at hle
  omega

/-- **The quotient of two integers in range is in range**, but for the one of the least by minus
one. -/
theorem inRange_quotient_iff (ha : InRange a) (hb : b ≠ 0) :
    InRange (quotient a b) ↔ ¬(a = least ∧ b = -1) := by
  constructor
  · rintro h ⟨rfl, rfl⟩
    exact absurd h (by decide)
  · intro h
    rw [quotient_eq_tdiv]
    rw [InRange, least, greatest] at ha ⊢
    rw [least] at h
    by_cases hone : b.natAbs = 1
    · rcases Int.natAbs_eq b with hb | hb
      · rw [hb, hone, Int.natCast_one, Int.tdiv_one]
        exact ha
      · rw [hone, Int.natCast_one] at hb
        rw [hb, Int.tdiv_neg, Int.tdiv_one]
        omega
    · -- any other divisor at least halves the dividend
      have hhalf : (a.tdiv b).natAbs ≤ a.natAbs / 2 := by
        rw [Int.natAbs_tdiv]
        exact Nat.div_le_div_left (by omega) Nat.two_pos
      omega

theorem quotient_mul_self (a : Int) (hb : b ≠ 0) : quotient (a * b) b = a := by
  rw [quotient_eq_tdiv, Int.mul_tdiv_cancel a hb]

end Integer

/-! ## What the operations come to -/

open Integer (InRange IsQuotient least)

/-- **How a checked operation ends**: in the exact result if it is in range, and otherwise it throws
a text that names the operation. -/
inductive Checked (s : Store) (op : Builtin) (n : Int) : EStateM.Result Failure Store Value → Prop
  | exact (h : InRange n) : Checked s op n (.ok (.int n) s)
  | overflow (h : ¬InRange n) :
      Checked s op n (.error (.thrown (.str ("integer overflow in " ++ op.name))) s)

/-- **How a division ends.** -/
inductive Divided (s : Store) (a b : Int) : EStateM.Result Failure Store Value → Prop
  | quotient {q : Int} (hb : b ≠ 0) (hleast : ¬(a = least ∧ b = -1)) (h : IsQuotient a b q)
      (hunique : ∀ q', IsQuotient a b q' → q' = q) (hrange : InRange q) :
      Divided s a b (.ok (.int q) s)
  | zero (hb : b = 0) : Divided s a b (.error (.thrown (.str "division by zero")) s)
  | overflow (ha : a = least) (hb : b = -1) :
      Divided s a b (.error (.thrown (.str "integer overflow in /")) s)

/-- The result is an integer in range, or a value is thrown, and a thrown value can be caught. -/
inductive Arithmetical (s : Store) (x : Eval Value) : Prop
  | returns {n : Int} (h : InRange n) (hx : x s = .ok (.int n) s)
  | throws {text : String} (hx : x s = .error (.thrown (.str text)) s)
      (hcaught : Eval.catchThrown x s = .ok (.error (.str text)) s)

theorem Arithmetical.of_throws {s : Store} {x : Eval Value} {text : String}
    (h : x s = .error (.thrown (.str text)) s) : Arithmetical s x :=
  .throws h (by rw [Eval.catchThrown, h])

theorem Checked.arithmetical {s : Store} {x : Eval Value} {op : Builtin} {n : Int}
    (h : Checked s op n (x s)) : Arithmetical s x := by
  generalize hx : x s = r at h
  cases h with
  | exact h => exact .returns h hx
  | overflow => exact .of_throws hx

theorem Divided.arithmetical {s : Store} {x : Eval Value} {a b : Int}
    (h : Divided s a b (x s)) : Arithmetical s x := by
  generalize hx : x s = r at h
  cases h with
  | quotient _ _ _ _ h => exact .returns h hx
  | zero | overflow => exact .of_throws hx

namespace Builtin

section

variable (eng : Engine) (f : FrameId) (s : Store) {a b : Int}

theorem lift_checked (op : Builtin) (n : Int) :
    Checked s op n (eng.lift (Arithmetic.checked op n) s) := by
  rw [Arithmetic.checked]
  by_cases h : InRange n
  · rw [if_pos h]
    exact .exact h
  · rw [if_neg h]
    exact .overflow h

theorem call_div (ha : InRange a) : Divided s a b (call eng f .div [.int a, .int b] s) := by
  have hcall : call eng f .div [.int a, .int b] =
      eng.lift (if b = 0 then .error (.thrown (.str "division by zero"))
        else Arithmetic.checked .div (Integer.quotient a b)) := rfl
  rw [hcall]
  by_cases hb : b = 0
  · rw [if_pos hb]
    exact .zero hb
  · have hquotient := Integer.isQuotient_quotient a hb
    have hiff := Integer.inRange_quotient_iff ha hb
    rw [if_neg hb, Arithmetic.checked]
    by_cases hleast : a = least ∧ b = -1
    · rw [if_neg fun h ↦ hiff.1 h hleast]
      exact .overflow hleast.1 hleast.2
    · rw [if_pos (hiff.2 hleast)]
      exact .quotient hb hleast hquotient (fun q' hq' ↦ hq'.unique hquotient) (hiff.2 hleast)

theorem arithmetical_call (ha : InRange a) {op : Builtin} (hop : op ∈ [add, sub, mul, div]) :
    Arithmetical s (call eng f op [.int a, .int b]) := by
  simp only [List.mem_cons, List.not_mem_nil, or_false] at hop
  rcases hop with rfl | rfl | rfl | rfl
  · exact (lift_checked eng s .add (a + b)).arithmetical
  · exact (lift_checked eng s .sub (a - b)).arithmetical
  · exact (lift_checked eng s .mul (a * b)).arithmetical
  · exact (call_div eng f s ha).arithmetical

end

section

variable {disk : Disk} {s : Store} {f : FrameId} {a b : Int}

/-- **Division takes back a multiplication** that does not overflow. -/
theorem settles_div_mul (ha : InRange a) (hb : b ≠ 0) (hab : InRange (a * b))
    (hmul : s.Resolves f .mul) (hdiv : s.Resolves f .div) (l l' : Option Label) :
    Settles disk (fun eng ↦ eng.eval f
      (.list l [.sym "/", .list l' [.sym "*", .int a, .int b], .int b])) s (.ok (.int a) s) := by
  have hint (n : Int) : Settles disk (fun eng ↦ eng.eval f (.int n)) s (.ok (.int n) s) :=
    settles_itself fun _ ↦ rfl
  have hproduct : Settles disk (fun eng ↦ eng.eval f (.list l' [.sym "*", .int a, .int b])) s
      (.ok (.int (a * b)) s) := by
    refine (settles_call_of_args [(.int a, .int a), (.int b, .int b)] hmul
      (by simp [hint])).2 (settles_of_forall trivial fun eng ↦ ?_)
    show eng.lift (Arithmetic.checked .mul (a * b)) s = _
    rw [Arithmetic.checked, if_pos hab]
    rfl
  refine (settles_call_of_args [(.list l' [.sym "*", .int a, .int b], .int (a * b)),
    (.int b, .int b)] hdiv (by simp [hint, hproduct])).2 (settles_of_forall trivial fun eng ↦ ?_)
  show eng.lift (if b = 0 then _ else Arithmetic.checked .div (Integer.quotient (a * b) b)) s = _
  rw [if_neg hb, Integer.quotient_mul_self a hb, Arithmetic.checked, if_pos ha]
  rfl

end

/-- **Arithmetic is exact or throws.**

Of two integers in range, sum, difference and product are exact if they are in range, and otherwise
throw with the name of the operation.  Division throws exactly for the divisor zero and for the least
integer by minus one, and otherwise gives the one quotient that is cut off toward zero.  So whatever
integer comes out is in range, and whatever is thrown can be caught; dividing a product that did not
overflow by one factor gives the other.  The comparisons are the order of the integers. -/
theorem arithmetic_is_checked (disk : Disk) (eng : Engine) (f : FrameId) (s : Store) {a : Int}
    (b : Int) (ha : InRange a) :
    (Checked s .add (a + b) (call eng f .add [.int a, .int b] s) ∧
      Checked s .sub (a - b) (call eng f .sub [.int a, .int b] s) ∧
      Checked s .mul (a * b) (call eng f .mul [.int a, .int b] s) ∧
      Divided s a b (call eng f .div [.int a, .int b] s)) ∧
    (∀ op ∈ [add, sub, mul, div], Arithmetical s (call eng f op [.int a, .int b])) ∧
    (b ≠ 0 → InRange (a * b) → s.Resolves f .mul → s.Resolves f .div → ∀ l l' : Option Label,
      Evaluates disk (.eval (.list l [.sym "/", .list l' [.sym "*", .int a, .int b], .int b]) f) s
        (.ok (.int a) s)) ∧
    call eng f .less [.int a, .int b] s = .ok (.bool (decide (a < b))) s ∧
    call eng f .lessEq [.int a, .int b] s = .ok (.bool (decide (a ≤ b))) s ∧
    call eng f .greater [.int a, .int b] s = .ok (.bool (decide (b < a))) s ∧
    call eng f .greaterEq [.int a, .int b] s = .ok (.bool (decide (b ≤ a))) s := by
  refine ⟨⟨lift_checked eng s .add (a + b), lift_checked eng s .sub (a - b),
    lift_checked eng s .mul (a * b), call_div eng f s ha⟩, ?_, ?_, rfl, rfl, rfl, rfl⟩
  · exact fun op hop ↦ arithmetical_call eng f s ha hop
  · exact fun hb hab hmul hdiv ↦ settles_div_mul ha hb hab hmul hdiv

/-- A product that is just in range, and one that is just out of it. -/
theorem arithmetic_is_checked_least :
    let a : Int := -4611686018427387904
    let disk : Disk := fun _ ↦ none
    let s : Store := Session.bare
    let f : FrameId := Session.topLevel
    let eng : Engine := .granted disk 1 1
    (InRange a ∧ a * 2 = least ∧ InRange (a * 2)) ∧
    Divided s a 2 (call eng f .div [.int a, .int 2] s) ∧
    (Builtin.mul ∈ [add, sub, mul, div] ∧ Arithmetical s (call eng f .mul [.int a, .int (-2)])) ∧
    s.Resolves f .mul ∧ s.Resolves f .div ∧
    Evaluates disk
      (.eval (.list none [.sym "/", .list none [.sym "*", .int a, .int 2], .int 2]) f) s
      (.ok (.int a) s) := by
  intro a disk s f eng
  have ha : InRange a := by decide
  have hab : InRange (a * 2) := by decide
  have hop : Builtin.mul ∈ [add, sub, mul, div] := by simp
  have hmul : s.Resolves f .mul := Session.resolves_bare .mul
  have hdiv : s.Resolves f .div := Session.resolves_bare .div
  obtain ⟨⟨-, -, -, hdivided⟩, -, hback, -⟩ := arithmetic_is_checked disk eng f s 2 ha
  obtain ⟨-, hall, -⟩ := arithmetic_is_checked disk eng f s (-2) ha
  exact ⟨⟨ha, rfl, hab⟩, hdivided, ⟨hop, hall .mul hop⟩, hmul, hdiv,
    hback (by decide) hab hmul hdiv none none⟩

end Builtin

end Lisplet
