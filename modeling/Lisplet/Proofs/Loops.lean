import Lisplet.Proofs.Choosing

/-!
# Loops that take no room

Four loops, each written as a call in tail position: one sums up numbers (`sumBody`), one asks two
functions in turn for parity (`parityBody`), one throws its number to a handler that tries again
(`retryBody`), and one goes through the prelude's macro `cond` (`loopBody`).

For each of them there is a property of moments that is indexed by the number from which the loop
has still to count down (`SumAt`, `ParityAt`, `RetryAt`, `LoopAt`).  A call of the function makes it
hold (`…_of_call`), a turn of the loop takes it from a number to the one before (`chain_…`), and at
zero the loop ends (`ends_…`).  So it ends from any number, in a room that does not depend on it.
In less room a call with two overflows already (`overflows_…`), and so whatever room is enough for
two turns is enough for any number of them (`tail_calls_take_no_room`).
-/

set_option autoImplicit false

namespace Lisplet.Loop

open Moment
open Prelude (Chooses chain_cond overflows_cond condUses condBody)
open Value (call)

variable {disk : Disk} {room : Nat} {s s₁ : Store} {f g : FrameId} {k : Nat} {a total : Int}
  {name : String} {m : Moment} {args : List Value} {l : Option Label}

/-! ## What the loops have in common -/

/-- Is the number zero? -/
def isZero : Value := call "=" [.sym "n", .int 0]

/-- The number before. -/
def before (name : String) : Value := call "-" [.sym name, .int 1]

theorem ends_isZero (hop : s.Resolves f .equal) (hn : s.get? f "n" = some (.int k)) :
    (start isZero f s).Ends disk (room + 1) (.ok (.bool (k == 0)) s) := by
  have hequal : Value.equal? (room + 1) (.int k) (.int 0) = some (k == 0) := by
    have hleaf : Value.equal? (room + 1) (.int k) (.int 0) = some ((k : Int) == 0) := rfl
    rw [hleaf]
    cases k <;> rfl
  refine ends_builtin hop (.cons (ends_name hn) (.cons (ends_itself fun _ ↦ rfl) (.nil s)))
    fun n ↦ ?_
  have hcall : Builtin.call (.stepping disk n (room + 1)) f .equal [.int k, .int 0] =
      Engine.fit (Value.equal? (room + 1) (.int k) (.int 0)) >>= fun b ↦ pure (.bool b) := rfl
  rw [hcall, hequal]
  rfl

theorem inRange_of_succ (hk : Integer.InRange (k + 1 : Nat)) : Integer.InRange k := by
  obtain ⟨-, hle⟩ := hk
  rw [Integer.InRange, Integer.least]
  omega

theorem ends_before (hop : s.Resolves f .sub) (hn : s.get? f name = some (.int (k + 1 : Nat)))
    (hk : Integer.InRange (k + 1 : Nat)) :
    (start (before name) f s).Ends disk (room + 1) (.ok (.int k) s) := by
  have hchecked : Builtin.Arithmetic.checked .sub ((k + 1 : Nat) - 1 : Int) = .ok (.int k) := by
    have heq : ((k + 1 : Nat) - 1 : Int) = k := by omega
    rw [heq, Builtin.Arithmetic.checked, if_pos (inRange_of_succ hk)]
  refine ends_builtin hop (.cons (ends_name hn) (.cons (ends_itself fun _ ↦ rfl) (.nil s)))
    fun n ↦ ?_
  have hcall : Builtin.call (.stepping disk n (room + 1)) f .sub [.int (k + 1 : Nat), .int 1] =
      (Engine.stepping disk n (room + 1)).lift
        (Builtin.Arithmetic.checked .sub ((k + 1 : Nat) - 1 : Int)) := rfl
  rw [hcall, hchecked]
  rfl

/-- A function of a loop, as its definition in a frame leaves it: it closes over that frame. -/
def Defined (s : Store) (g : FrameId) (name : String) (formals : List String) (body : Value) :
    Prop :=
  ∃ serial, s.Binds g name ⟨serial, ⟨formals, none⟩, body, g, false⟩

theorem Defined.keeps {formals : List String} {body : Value} (h : Defined s g name formals body)
    (hs : s.Keeps s₁) : Defined s₁ g name formals body := by
  obtain ⟨serial, hc⟩ := h
  exact ⟨serial, hc.keeps hs⟩

/-- **A call of it** goes on with its body, in a frame that binds the parameters. -/
theorem Defined.turn {formals : List String} {body : Value} {args vs : List Value}
    (h : Defined s g name formals body) (hname : SpecialForm.ofName? name = none)
    (hsees : s.get? f name = s.get? g name)
    (hargs : ArgumentsEnd disk room f s args vs s) (hlength : formals.length = vs.length) :
    ∃ s' f', s.Keeps s' ∧ s'.Opens f' g (formals.zip vs) ∧
      Turn disk (room + 1) (start (call name args) f s) (start body f' s') := by
  obtain ⟨serial, hc⟩ := h
  have hg := hc.lt_size
  have hcalled : s.Binds f name ⟨serial, ⟨formals, none⟩, body, g, false⟩ := by
    obtain ⟨v, hget, hv⟩ := hc
    exact ⟨v, hsees.trans hget, hv⟩
  exact ⟨_, _, .addFrame s (some g) (.ofList (formals.zip vs)), .new hg _,
    turn_call hname hcalled rfl rfl hargs hlength⟩

/-- The form that defines it. -/
def definition (name : String) (formals : List String) (body : Value) : Value :=
  .list none [.sym "def!", .sym name,
    .list none [.sym "fn*", .list none (formals.map .sym), body]]

/-- The function that the form makes. -/
def made (s : Store) (g : FrameId) (formals : List String) (body : Value) : Value :=
  .fn ⟨s.serials, ⟨formals, none⟩, body, g, false⟩

/-- The store in which it is bound. -/
def defined (s : Store) (g : FrameId) (name : String) (formals : List String) (body : Value) :
    Store :=
  s.nextSerial.2.define g name (made s g formals body)

theorem defined_defined (hg : g < s.frames.size) (name : String) (formals : List String)
    (body : Value) : Defined (defined s g name formals body) g name formals body := by
  refine ⟨s.serials, made s g formals body, Store.get?_of_own? ?_, rfl⟩
  rw [defined, Store.own?_define, if_pos ⟨rfl, hg, rfl⟩]

theorem ofForm_syms {names : List String} (h : Params.ofNames names = .ok ⟨names, none⟩) :
    Params.ofForm (.list none (names.map .sym)) = .ok ⟨names, none⟩ := by
  have hnames : (names.map Value.sym).mapM Params.nameOf = .ok names :=
    mapM_map_eq_ok (fun name ↦ show Params.nameOf (.sym name) = _ from rfl) names
  have hform : Params.ofForm (.list none (names.map .sym)) =
      (names.map Value.sym).mapM Params.nameOf >>= Params.ofNames := rfl
  rw [hform, hnames]
  exact h

/-- **Evaluating the form** defines the function and does nothing else. -/
theorem ends_definition (name : String) {formals : List String} (body : Value)
    (hformals : Params.ofNames formals = .ok ⟨formals, none⟩) :
    (start (definition name formals body) g s).Ends disk (room + 1)
      (.ok (made s g formals body) (defined s g name formals body)) := by
  have hfn : (start (.list none [.sym "fn*", .list none (formals.map .sym), body]) g s).Ends disk
      room (.ok (made s g formals body) s.nextSerial.2) := by
    refine Steps.ends_ok (reaches_of_forall trivial fun n ↦ ?_)
    have hstep (eng : Engine) : (Task.eval (.list none [.sym "fn*",
        .list none (formals.map .sym), body]) g).step eng =
        SpecialForm.stepFunction eng g [.list none (formals.map .sym), body] := rfl
    simp only [hstep, SpecialForm.stepFunction, ofForm_syms hformals]
    rfl
  have hstep (eng : Engine) : (Task.eval (definition name formals body) g).step eng =
      SpecialForm.stepDefine eng g [.sym name,
        .list none [.sym "fn*", .list none (formals.map .sym), body]] := rfl
  refine Steps.ends_ok ?_
  simp only [Steps, hstep, SpecialForm.stepDefine]
  exact reaches_bind hfn.inside (reaches_of_forall trivial fun _ ↦ rfl)

theorem argumentsEnd_ints (ns : List Int) :
    ArgumentsEnd disk room f s (ns.map .int) (ns.map .int) s := by
  induction ns with
  | nil => exact .nil s
  | cons n ns ih => exact .cons (ends_itself fun _ ↦ rfl) ih

/-! ## Zero or not

Each loop asks first whether its number is zero. -/

/-- The form that asks. -/
def choice (zero other : Value) : Value := .list none [.sym "if", isZero, zero, other]

theorem turn_choice_zero {zero other : Value} (hop : s.Resolves f .equal)
    (hn : s.get? f "n" = some (.int (0 : Nat))) :
    Turn disk (room + 2) (start (.list l [.sym "if", isZero, zero, other]) f s) (start zero f s) :=
  (TailCall.positive (ends_isZero hop hn).inside rfl (by simp)).turn

theorem turn_choice_succ {zero other : Value} (hop : s.Resolves f .equal)
    (hn : s.get? f "n" = some (.int (k + 1 : Nat))) :
    Turn disk (room + 2) (start (.list l [.sym "if", isZero, zero, other]) f s)
      (start other f s) :=
  (TailCall.negative (ends_isZero hop hn).inside rfl).turn

/-- In so little room there is no answer. -/
theorem overflows_choice (zero other : Value) (f : FrameId) (s : Store) :
    (start (choice zero other) f s).Overflows disk 1 :=
  ⟨s, (steps_choice_of_error (steps_zero rfl).ends_error).ends_error⟩

/-! ## A sum -/

/-- The body of `sum-to`, `(if (= n 0) acc (sum-to (- n 1) (+ n acc)))`. -/
def sumBody : Value :=
  choice (.sym "acc") (call "sum-to" [before "n", call "+" [.sym "n", .sym "acc"]])

/-- `sum-to` is defined in the frame, and so are the functions that it uses. -/
structure Sums (s : Store) (g : FrameId) : Prop where
  sumTo : Defined s g "sum-to" ["n", "acc"] sumBody
  equal : s.Resolves g .equal
  sub : s.Resolves g .sub
  add : s.Resolves g .add

theorem Sums.keeps (h : Sums s g) (hs : s.Keeps s₁) : Sums s₁ g where
  sumTo := h.sumTo.keeps hs
  equal := h.equal.keeps hs
  sub := h.sub.keeps hs
  add := h.add.keeps hs

/-- The sum of the numbers up to `n`. -/
def triangle (n : Nat) : Nat := n * (n + 1) / 2

theorem triangle_succ (n : Nat) : triangle (n + 1) = n + 1 + triangle n := by
  have h : (n + 1) * (n + 1 + 1) = (n + 1) * 2 + n * (n + 1) := by
    rw [Nat.mul_add_one, Nat.mul_comm n, Nat.mul_add_one (n + 1) n]
    omega
  rw [triangle, h, Nat.mul_comm (n + 1) 2, Nat.mul_add_div (by decide), triangle]

theorem ends_next (hop : s.Resolves f .add) (hn : s.get? f "n" = some (.int k))
    (hacc : s.get? f "acc" = some (.int a)) (hrange : Integer.InRange (k + a)) :
    (start (call "+" [.sym "n", .sym "acc"]) f s).Ends disk (room + 1) (.ok (.int (k + a)) s) := by
  have hchecked : Builtin.Arithmetic.checked .add (k + a) = .ok (.int (k + a)) := if_pos hrange
  refine ends_builtin hop (.cons (ends_name hn) (.cons (ends_name hacc) (.nil s))) fun n ↦ ?_
  have hcall : Builtin.call (.stepping disk n (room + 1)) f .add [.int k, .int a] =
      (Engine.stepping disk n (room + 1)).lift (Builtin.Arithmetic.checked .add (k + a)) := rfl
  rw [hcall, hchecked]
  rfl

/-- The loop has still to count down from `k`: what is summed up so far and what is to come make
the total. -/
def SumAt (g : FrameId) (total : Int) (k : Nat) (m : Moment) : Prop :=
  ∃ (s : Store) (f : FrameId) (a : Int), m = start sumBody f s ∧ Sums s g ∧
    s.Opens f g [("n", .int k), ("acc", .int a)] ∧ Integer.InRange k ∧ Integer.InRange a ∧
    a + triangle k = total

theorem sumAt_of_call (h : Sums s g) (hsees : s.get? f "sum-to" = s.get? g "sum-to")
    (hargs : ArgumentsEnd disk room f s args [.int k, .int a] s) (hk : Integer.InRange k)
    (ha : Integer.InRange a) (htotal : a + triangle k = total) :
    ∃ m, Turn disk (room + 1) (start (call "sum-to" args) f s) m ∧ SumAt g total k m := by
  obtain ⟨s', f', hkeeps, hopens, hturn⟩ := h.sumTo.turn rfl hsees hargs rfl
  exact ⟨_, hturn, s', f', a, rfl, h.keeps hkeeps, hopens, hk, ha, htotal⟩

/-- One turn of the loop. -/
theorem chain_sum (htotal : Integer.InRange total) (h : SumAt g total (k + 1) m) :
    ∃ m', Chain disk (room + 2) m m' ∧ SumAt g total k m' := by
  obtain ⟨s, f, a, rfl, hsums, hopens, hk, ha, hsum⟩ := h
  have hn : s.get? f "n" = some (.int (k + 1 : Nat)) := hopens.get?_own rfl
  have hacc : s.get? f "acc" = some (.int a) := hopens.get?_own rfl
  rw [triangle_succ] at hsum
  -- The next sum lies between the one so far and the total.
  have hrange : Integer.InRange ((k + 1 : Nat) + a) := by
    obtain ⟨-, hle⟩ := htotal
    obtain ⟨hle', -⟩ := ha
    rw [Integer.InRange]
    omega
  have hargs : ArgumentsEnd disk (room + 1) f s [before "n", call "+" [.sym "n", .sym "acc"]]
      [.int k, .int ((k + 1 : Nat) + a)] s :=
    .cons (ends_before (hopens.resolves hsums.sub rfl) hn hk)
      (.cons (ends_next (hopens.resolves hsums.add rfl) hn hacc hrange) (.nil s))
  obtain ⟨m', hturn, hm'⟩ := sumAt_of_call hsums (hopens.get?_outer rfl) hargs (inRange_of_succ hk)
    hrange
    (show _ = total by omega)
  exact ⟨m', .head (turn_choice_succ (hopens.resolves hsums.equal rfl) hn) (.single hturn), hm'⟩

theorem ends_sum (h : SumAt g total 0 m) :
    ∃ s, m.Ends disk (room + 2) (.ok (.int total) s) := by
  obtain ⟨s, f, a, rfl, hsums, hopens, -, -, hsum⟩ := h
  obtain rfl : a = total := by simpa [triangle] using hsum
  have hturn : Turn disk (room + 2) (start sumBody f s) (start (.sym "acc") f s) :=
    turn_choice_zero (hopens.resolves hsums.equal rfl) (hopens.get?_own rfl)
  exact ⟨s, hturn.ends_iff.2 (ends_name (hopens.get?_own rfl))⟩

/-- **Summing up** takes two units of room, however many numbers there are. -/
theorem exists_ends_sumTo (h : Sums s g) {n : Nat} (hn : Integer.InRange n)
    (ha : Integer.InRange a) (htotal : Integer.InRange (a + triangle n)) :
    ∃ s', (start (call "sum-to" [.int n, .int a]) g s).Ends disk (room + 2)
      (.ok (.int (a + triangle n)) s') :=
  exists_ends_of_chain (sumAt_of_call h rfl (argumentsEnd_ints [n, a]) hn ha rfl)
    (fun _ _ ↦ chain_sum htotal) fun _ ↦ ends_sum

theorem overflows_sumTo (h : Sums s g) :
    (start (call "sum-to" [.int 2, .int 0]) g s).Overflows disk 1 := by
  obtain ⟨m, hturn, s', f, a, rfl, -⟩ := sumAt_of_call h rfl (argumentsEnd_ints [(2 : Nat), 0])
    (by decide) (by decide) rfl
  exact hturn.overflows_iff.2 (overflows_choice _ _ f s')

/-! ## Even or odd -/

/-- The name of the function that says `b` for zero. -/
def parityName (b : Bool) : String := if b then "even?" else "odd?"

/-- Its body, `(if (= n 0) true (odd? (- n 1)))` or `(if (= n 0) false (even? (- n 1)))`. -/
def parityBody (b : Bool) : Value := choice (.bool b) (call (parityName !b) [before "n"])

/-- Both functions are defined in the frame, and so are those that they use. -/
structure Parities (s : Store) (g : FrameId) : Prop where
  parity : ∀ b, Defined s g (parityName b) ["n"] (parityBody b)
  equal : s.Resolves g .equal
  sub : s.Resolves g .sub

theorem Parities.keeps (h : Parities s g) (hs : s.Keeps s₁) : Parities s₁ g where
  parity b := (h.parity b).keeps hs
  equal := h.equal.keeps hs
  sub := h.sub.keeps hs

/-- What the function that says `b` for zero says for `n`. -/
def verdict (b : Bool) (n : Nat) : Bool := b == (n % 2 == 0)

theorem verdict_succ (b : Bool) (n : Nat) : verdict b (n + 1) = verdict (!b) n := by
  rcases Nat.mod_two_eq_zero_or_one n with h | h <;> cases b <;> simp [verdict, Nat.add_mod, h]

/-- One of the functions is called with `k`, and will say `v`. -/
def ParityAt (g : FrameId) (v : Bool) (k : Nat) (m : Moment) : Prop :=
  ∃ (s : Store) (f : FrameId) (b : Bool), m = start (parityBody b) f s ∧ Parities s g ∧
    s.Opens f g [("n", .int k)] ∧ Integer.InRange k ∧ verdict b k = v

theorem parityAt_of_call {b v : Bool} (h : Parities s g)
    (hsees : s.get? f (parityName b) = s.get? g (parityName b))
    (hargs : ArgumentsEnd disk room f s args [.int k] s) (hk : Integer.InRange k)
    (hv : verdict b k = v) :
    ∃ m, Turn disk (room + 1) (start (call (parityName b) args) f s) m ∧ ParityAt g v k m := by
  have hname : SpecialForm.ofName? (parityName b) = none := by cases b <;> rfl
  obtain ⟨s', f', hkeeps, hopens, hturn⟩ := (h.parity b).turn hname hsees hargs rfl
  exact ⟨_, hturn, s', f', b, rfl, h.keeps hkeeps, hopens, hk, hv⟩

theorem chain_parity {v : Bool} (h : ParityAt g v (k + 1) m) :
    ∃ m', Chain disk (room + 2) m m' ∧ ParityAt g v k m' := by
  obtain ⟨s, f, b, rfl, hparities, hopens, hk, hv⟩ := h
  have hn : s.get? f "n" = some (.int (k + 1 : Nat)) := hopens.get?_own rfl
  have hargs : ArgumentsEnd disk (room + 1) f s [before "n"] [.int k] s :=
    .cons (ends_before (hopens.resolves hparities.sub rfl) hn hk) (.nil s)
  have hsees : s.get? f (parityName !b) = s.get? g (parityName !b) :=
    hopens.get?_outer (by cases b <;> rfl)
  obtain ⟨m', hturn, hm'⟩ := parityAt_of_call hparities hsees hargs (inRange_of_succ hk)
    ((verdict_succ b k).symm.trans hv)
  exact ⟨m', .head (turn_choice_succ (hopens.resolves hparities.equal rfl) hn) (.single hturn),
    hm'⟩

theorem ends_parity {v : Bool} (h : ParityAt g v 0 m) :
    ∃ s, m.Ends disk (room + 2) (.ok (.bool v) s) := by
  obtain ⟨s, f, b, rfl, hparities, hopens, -, hv⟩ := h
  obtain rfl : b = v := by simpa [verdict] using hv
  have hturn : Turn disk (room + 2) (start (parityBody b) f s) (start (.bool b) f s) :=
    turn_choice_zero (hopens.resolves hparities.equal rfl) (hopens.get?_own rfl)
  exact ⟨s, hturn.ends_iff.2 (ends_itself fun _ ↦ rfl)⟩

/-- **Asking for parity** takes two units of room for any number. -/
theorem exists_ends_parity (h : Parities s g) (b : Bool) {n : Nat} (hn : Integer.InRange n) :
    ∃ s', (start (call (parityName b) [.int n]) g s).Ends disk (room + 2)
      (.ok (.bool (verdict b n)) s') :=
  exists_ends_of_chain (parityAt_of_call h rfl (argumentsEnd_ints [n]) hn rfl)
    (fun _ _ ↦ chain_parity) fun _ ↦ ends_parity

theorem overflows_parity (h : Parities s g) (b : Bool) :
    (start (call (parityName b) [.int 2]) g s).Overflows disk 1 := by
  obtain ⟨m, hturn, s', f, b', rfl, -⟩ := parityAt_of_call h rfl (argumentsEnd_ints [(2 : Nat)])
    (by decide) rfl
  exact hturn.overflows_iff.2 (overflows_choice _ _ f s')

/-! ## Trying again -/

/-- What `retry` tries, `(if (= n 0) "ok" (throw n))`. -/
def tried : Value := choice (.str "ok") (call "throw" [.sym "n"])

/-- The body of `retry`, which tries that and else `(catch* e (retry (- e 1)))`. -/
def retryBody : Value := attemptOf none tried (catching none "e" (call "retry" [before "e"]))

/-- `retry` is defined in the frame, and so are the functions that it uses. -/
structure Retries (s : Store) (g : FrameId) : Prop where
  retry : Defined s g "retry" ["n"] retryBody
  equal : s.Resolves g .equal
  sub : s.Resolves g .sub
  throw : s.Resolves g .throw

theorem Retries.keeps (h : Retries s g) (hs : s.Keeps s₁) : Retries s₁ g where
  retry := h.retry.keeps hs
  equal := h.equal.keeps hs
  sub := h.sub.keeps hs
  throw := h.throw.keeps hs

/-- `retry` is called with `k`. -/
def RetryAt (g : FrameId) (k : Nat) (m : Moment) : Prop :=
  ∃ (s : Store) (f : FrameId), m = start retryBody f s ∧ Retries s g ∧
    s.Opens f g [("n", .int k)] ∧ Integer.InRange k

theorem retryAt_of_call (h : Retries s g) (hsees : s.get? f "retry" = s.get? g "retry")
    (hargs : ArgumentsEnd disk room f s args [.int k] s) (hk : Integer.InRange k) :
    ∃ m, Turn disk (room + 1) (start (call "retry" args) f s) m ∧ RetryAt g k m := by
  obtain ⟨s', f', hkeeps, hopens, hturn⟩ := h.retry.turn rfl hsees hargs rfl
  exact ⟨_, hturn, s', f', rfl, h.keeps hkeeps, hopens, hk⟩

/-- A number that is not zero is thrown. -/
theorem ends_tried_succ (hequal : s.Resolves f .equal) (hthrow : s.Resolves f .throw)
    (hn : s.get? f "n" = some (.int (k + 1 : Nat))) :
    (start tried f s).Ends disk (room + 2) (.error (.thrown (.int (k + 1 : Nat))) s) := by
  exact (turn_choice_succ hequal hn).ends_iff.2
    (ends_builtin_of_throw hthrow (.cons (ends_name hn) (.nil s)) fun _ ↦ rfl)

theorem chain_retry (h : RetryAt g (k + 1) m) :
    ∃ m', Chain disk (room + 3) m m' ∧ RetryAt g k m' := by
  obtain ⟨s, f, rfl, hretries, hopens, hk⟩ := h
  have hn : s.get? f "n" = some (.int (k + 1 : Nat)) := hopens.get?_own rfl
  have htried : (start tried f s).Ends disk (room + 2) (.error (.thrown (.int (k + 1 : Nat))) s) :=
    ends_tried_succ (hopens.resolves hretries.equal rfl) (hopens.resolves hretries.throw rfl) hn
  -- The handler runs in a frame inside that of the call, and calls from there.
  have hthrown : ∃ s' f', s.Keeps s' ∧ s'.Opens f' f [("e", .int (k + 1 : Nat))] ∧
      Turn disk (room + 3) (start retryBody f s) (start (call "retry" [before "e"]) f' s') :=
    turn_handler htried hopens.lt_size rfl
  obtain ⟨s', f', hkeeps, hinner, hhandler⟩ := hthrown
  have houter := hopens.keeps hkeeps
  have hretries' := hretries.keeps hkeeps
  have he : s'.get? f' "e" = some (.int (k + 1 : Nat)) := hinner.get?_own rfl
  have hsub : s'.Resolves f' .sub := hinner.resolves (houter.resolves hretries'.sub rfl) rfl
  have hsees : s'.get? f' "retry" = s'.get? g "retry" :=
    (hinner.get?_outer rfl).trans (houter.get?_outer rfl)
  obtain ⟨m', hturn, hm'⟩ := retryAt_of_call hretries' hsees
    (.cons (ends_before hsub he hk) (.nil s')) (inRange_of_succ hk)
  exact ⟨m', .head hhandler (.single hturn), hm'⟩

theorem ends_retry (h : RetryAt g 0 m) : ∃ s, m.Ends disk (room + 3) (.ok (.str "ok") s) := by
  obtain ⟨s, f, rfl, hretries, hopens, -⟩ := h
  have hturn : Turn disk (room + 2) (start tried f s) (start (.str "ok") f s) :=
    turn_choice_zero (hopens.resolves hretries.equal rfl) (hopens.get?_own rfl)
  have htried : (start tried f s).Ends disk (room + 2) (.ok (.str "ok") s) :=
    hturn.ends_iff.2 (ends_itself fun _ ↦ rfl)
  exact ⟨s, ends_attempt_of_ok htried⟩

/-- **Trying again** takes three units of room for any number of attempts. -/
theorem exists_ends_retry (h : Retries s g) {n : Nat} (hn : Integer.InRange n) :
    ∃ s', (start (call "retry" [.int n]) g s).Ends disk (room + 3) (.ok (.str "ok") s') :=
  exists_ends_of_chain (retryAt_of_call h rfl (argumentsEnd_ints [n]) hn)
    (fun _ _ ↦ chain_retry) fun _ ↦ ends_retry

theorem overflows_retry (h : Retries s g) :
    (start (call "retry" [.int 2]) g s).Overflows disk 2 := by
  obtain ⟨m, hturn, s', f, rfl, -⟩ := retryAt_of_call h rfl (argumentsEnd_ints [(2 : Nat)])
    (by decide)
  have htried : (start tried f s').Overflows disk 1 := overflows_choice _ _ f s'
  obtain ⟨s'', hover⟩ := htried
  exact hturn.overflows_iff.2 ⟨s'', ends_attempt_of_overflow hover⟩

/-! ## Through a macro -/

/-- The body of `loop`, `(cond (= n 0) "finished" true (loop (- n 1)))`. -/
def loopBody : Value :=
  call "cond" [isZero, .str "finished", .bool true, call "loop" [before "n"]]

/-- `loop` is defined in the frame, and so are `cond` and the functions that it uses. -/
structure Finishes (s : Store) (g h : FrameId) : Prop where
  loop : Defined s g "loop" ["n"] loopBody
  chooses : Chooses s g h
  equal : s.Resolves g .equal
  sub : s.Resolves g .sub

theorem Finishes.keeps {h : FrameId} (hf : Finishes s g h) (hs : s.Keeps s₁) :
    Finishes s₁ g h where
  loop := hf.loop.keeps hs
  chooses := hf.chooses.keeps hs
  equal := hf.equal.keeps hs
  sub := hf.sub.keeps hs

/-- `loop` is called with `k`. -/
def LoopAt (g h : FrameId) (k : Nat) (m : Moment) : Prop :=
  ∃ (s : Store) (f : FrameId), m = start loopBody f s ∧ Finishes s g h ∧
    s.Opens f g [("n", .int k)] ∧ Integer.InRange k

section

variable {h : FrameId}

theorem loopAt_of_call (hf : Finishes s g h) (hsees : s.get? f "loop" = s.get? g "loop")
    (hargs : ArgumentsEnd disk room f s args [.int k] s) (hk : Integer.InRange k) :
    ∃ m, Turn disk (room + 1) (start (call "loop" args) f s) m ∧ LoopAt g h k m := by
  obtain ⟨s', f', hkeeps, hopens, hturn⟩ := hf.loop.turn rfl hsees hargs rfl
  exact ⟨_, hturn, s', f', rfl, hf.keeps hkeeps, hopens, hk⟩

/-- One turn of the loop goes through `cond` twice. -/
theorem chain_loop (hm : LoopAt g h (k + 1) m) :
    ∃ m', Chain disk (room + 4) m m' ∧ LoopAt g h k m' := by
  obtain ⟨s, f, rfl, hf, hopens, hk⟩ := hm
  -- The first `cond`: the number is not zero.
  obtain ⟨s₁, l₁, l₁', hkeeps₁, hfirst⟩ := chain_cond disk room [] none isZero (.str "finished")
    [.bool true, call "loop" [before "n"]] (hf.chooses.inside hopens rfl)
  have hf₁ := hf.keeps hkeeps₁
  have hopens₁ := hopens.keeps hkeeps₁
  have hzero : Turn disk (room + 4) (start (.list l₁ [.sym "if", isZero, .str "finished",
      .list l₁' [.sym "cond", .bool true, call "loop" [before "n"]]]) f s₁)
      (start (.list l₁' [.sym "cond", .bool true, call "loop" [before "n"]]) f s₁) :=
    turn_choice_succ (hopens₁.resolves hf₁.equal rfl) (hopens₁.get?_own rfl)
  -- The second one, which the first has left: its condition is `true`.
  obtain ⟨s₂, l₂, l₂', hkeeps₂, hsecond⟩ := chain_cond disk room [] l₁' (.bool true)
    (call "loop" [before "n"]) [] (hf₁.chooses.inside hopens₁ rfl)
  have hf₂ := hf₁.keeps hkeeps₂
  have hopens₂ := hopens₁.keeps hkeeps₂
  have htrue : (start (.bool true) f s₂).Ends disk (room + 3) (.ok (.bool true) s₂) :=
    ends_itself fun _ ↦ rfl
  have hchosen : Turn disk (room + 4) (start (.list l₂ [.sym "if", .bool true,
      call "loop" [before "n"], .list l₂' [.sym "cond"]]) f s₂)
      (start (call "loop" [before "n"]) f s₂) :=
    (TailCall.positive htrue.inside rfl (by simp)).turn
  have hbefore : (start (before "n") f s₂).Ends disk (room + 3) (.ok (.int k) s₂) :=
    ends_before (hopens₂.resolves hf₂.sub rfl) (hopens₂.get?_own rfl) hk
  obtain ⟨m', hcall, hm'⟩ := loopAt_of_call hf₂ (hopens₂.get?_outer rfl)
    (.cons hbefore (.nil s₂)) (inRange_of_succ hk)
  exact ⟨m', (hfirst.tail hzero).trans (hsecond.trans (.head hchosen (.single hcall))), hm'⟩

theorem ends_loop (hm : LoopAt g h 0 m) :
    ∃ s, m.Ends disk (room + 4) (.ok (.str "finished") s) := by
  obtain ⟨s, f, rfl, hf, hopens, -⟩ := hm
  obtain ⟨s₁, l, l', hkeeps, hchain⟩ := chain_cond disk room [] none isZero (.str "finished")
    [.bool true, call "loop" [before "n"]] (hf.chooses.inside hopens rfl)
  have hopens₁ := hopens.keeps hkeeps
  have hturn : Turn disk (room + 4) (start (.list l [.sym "if", isZero, .str "finished",
      .list l' [.sym "cond", .bool true, call "loop" [before "n"]]]) f s₁)
      (start (.str "finished") f s₁) :=
    turn_choice_zero (hopens₁.resolves (hf.keeps hkeeps).equal rfl) (hopens₁.get?_own rfl)
  have hwhole : Chain disk (room + 4) (start loopBody f s) (start (.str "finished") f s₁) :=
    hchain.tail hturn
  exact ⟨s₁, hwhole.ends_iff.2 (ends_itself fun _ ↦ rfl)⟩

/-- **A loop through `cond`** takes four units of room for any number of turns. -/
theorem exists_ends_loop (hf : Finishes s g h) {n : Nat} (hn : Integer.InRange n) :
    ∃ s', (start (call "loop" [.int n]) g s).Ends disk (room + 4) (.ok (.str "finished") s') :=
  exists_ends_of_chain (loopAt_of_call hf rfl (argumentsEnd_ints [n]) hn)
    (fun _ _ ↦ chain_loop) fun _ ↦ ends_loop

theorem overflows_loop (hf : Finishes s g h) :
    (start (call "loop" [.int 2]) g s).Overflows disk 3 := by
  obtain ⟨m, hturn, s', f, rfl, hf', hopens, -⟩ := loopAt_of_call hf rfl
    (argumentsEnd_ints [(2 : Nat)]) (by decide)
  exact hturn.overflows_iff.2 (overflows_cond (hf'.chooses.inside hopens rfl))

end

/-! ## No room for tail calls -/

/-- **Tail calls take no room.**  Each form that hands on a task takes a turn, in the room in which
it is evaluated, and so does the code that a macro has come to where the macro was called.  All
moments of a chain of such turns, of any length, end alike in that room, so that a run overflows
exactly if the step of some moment on the way does, started in the room of the run.

So a loop does not overflow, however long it is, in any room that is enough for two turns: it ends
with its value.  The loops here sum up numbers while the sum stays in range, ask two functions in
turn for parity, throw to a handler that tries again, and go through the macro `cond`. -/
theorem tail_calls_take_no_room (disk : Disk) (room : Nat) :
    (∀ m m', TailCall disk room m m' → m.Turn disk room m') ∧
    (∀ m m', Chain disk room m m' → ∀ r, m.Ends disk room r ↔ m'.Ends disk room r) ∧
    (∀ m : Moment, m.Overflows disk room ↔
      ∃ m', Chain disk room m m' ∧ m'.StepOverflows disk room) ∧
    (∀ s g, Sums s g →
      ¬(start (call "sum-to" [.int 2, .int 0]) g s).Overflows disk room →
      ∀ (n : Nat) (acc : Int), Integer.InRange n → Integer.InRange acc →
        Integer.InRange (acc + triangle n) →
        ∃ s', (start (call "sum-to" [.int n, .int acc]) g s).Ends disk room
          (.ok (.int (acc + triangle n)) s')) ∧
    (∀ s g, Parities s g → ∀ b,
      ¬(start (call (parityName b) [.int 2]) g s).Overflows disk room →
      ∀ n : Nat, Integer.InRange n →
        ∃ s', (start (call (parityName b) [.int n]) g s).Ends disk room
          (.ok (.bool (verdict b n)) s')) ∧
    (∀ s g, Retries s g →
      ¬(start (call "retry" [.int 2]) g s).Overflows disk room →
      ∀ n : Nat, Integer.InRange n →
        ∃ s', (start (call "retry" [.int n]) g s).Ends disk room (.ok (.str "ok") s')) ∧
    (∀ s g h, Finishes s g h →
      ¬(start (call "loop" [.int 2]) g s).Overflows disk room →
      ∀ n : Nat, Integer.InRange n →
        ∃ s', (start (call "loop" [.int n]) g s).Ends disk room (.ok (.str "finished") s')) := by
  refine ⟨fun _ _ ↦ TailCall.turn, fun _ _ hchain _ ↦ hchain.ends_iff, fun _ ↦ overflows_iff,
    ?sum, ?parity, ?retry, ?loop⟩
  case sum =>
    intro s g hs hroom n acc hn hacc htotal
    exact exists_ends_of_not_overflows (overflows_sumTo hs) hroom fun _ ↦
      exists_ends_sumTo hs hn hacc htotal
  case parity =>
    intro s g hs b hroom n hn
    exact exists_ends_of_not_overflows (overflows_parity hs b) hroom fun _ ↦
      exists_ends_parity hs b hn
  case retry =>
    intro s g hs hroom n hn
    exact exists_ends_of_not_overflows (overflows_retry hs) hroom fun _ ↦ exists_ends_retry hs hn
  case loop =>
    intro s g h hs hroom n hn
    exact exists_ends_of_not_overflows (overflows_loop hs) hroom fun _ ↦ exists_ends_loop hs hn

/-! ## The loops in a session -/

open Session (bare topLevel resolves_bare)

/-- The store in which functions are defined at the top level, one after the other. -/
def definedAll (s : Store) (functions : List (String × List String × Value)) : Store :=
  functions.foldl (fun s fn ↦ defined s topLevel fn.1 fn.2.1 fn.2.2) s

section

variable {s : Store} {functions : List (String × List String × Value)} {name : String}

theorem get?_definedAll (hname : name ∉ functions.map Prod.fst) :
    (definedAll s functions).get? topLevel name = s.get? topLevel name := by
  induction functions generalizing s with
  | nil => rfl
  | cons fn functions ih =>
    exact (ih (List.not_mem_of_not_mem_cons hname)).trans
      (Prelude.get?_define (List.ne_of_not_mem_cons hname) _)

/-- **Evaluating their definitions** one after the other comes to this store. -/
theorem exists_argumentsEnd_definitions
    (hformals : ∀ fn ∈ functions, Params.ofNames fn.2.1 = .ok ⟨fn.2.1, none⟩) :
    ∃ vs, ArgumentsEnd disk (room + 1) topLevel s
      (functions.map fun fn ↦ definition fn.1 fn.2.1 fn.2.2) vs (definedAll s functions) := by
  induction functions generalizing s with
  | nil => exact ⟨[], .nil s⟩
  | cons fn functions ih =>
    obtain ⟨hfn, hrest⟩ := List.forall_mem_cons.1 hformals
    obtain ⟨vs, hvs⟩ := ih (s := defined s topLevel fn.1 fn.2.1 fn.2.2) hrest
    exact ⟨_, .cons (ends_definition fn.1 fn.2.2 hfn) hvs⟩

/-- Functions of different names are all defined in the end. -/
theorem defined_definedAll {formals : List String} {body : Value} (hs : topLevel < s.frames.size)
    (hnames : (functions.map Prod.fst).Nodup) (hfn : (name, formals, body) ∈ functions) :
    Defined (definedAll s functions) topLevel name formals body := by
  induction functions generalizing s with
  | nil => cases hfn
  | cons fn functions ih =>
    obtain ⟨hnot, hrest⟩ := List.nodup_cons.1 hnames
    rcases List.mem_cons.1 hfn with rfl | htail
    · obtain ⟨serial, v, hget, hv⟩ := defined_defined hs name formals body
      exact ⟨serial, v, (get?_definedAll hnot).trans hget, hv⟩
    · have hsize : topLevel < (defined s topLevel fn.1 fn.2.1 fn.2.2).frames.size := by
        simpa [defined, Store.define, Store.nextSerial] using hs
      exact ih hsize hrest htail

end

/-- The prelude's `cond`. -/
def cond : Closure Value := ⟨bare.serials, ⟨[], some "xs"⟩, condBody, topLevel, true⟩

/-- A session in which it is defined. -/
def choosing : Store := bare.nextSerial.2.define topLevel "cond" (.fn cond)

/-- The functions of the loops. -/
def functions : List (String × List String × Value) :=
  [("sum-to", ["n", "acc"], sumBody), ("even?", ["n"], parityBody true),
    ("odd?", ["n"], parityBody false), ("retry", ["n"], retryBody), ("loop", ["n"], loopBody)]

theorem ofNames_functions : ∀ fn ∈ functions, Params.ofNames fn.2.1 = .ok ⟨fn.2.1, none⟩ := by
  simp only [functions, List.forall_mem_cons]
  exact ⟨rfl, rfl, rfl, rfl, rfl, by simp⟩

/-- A session in which they are defined too. -/
def looping : Store := definedAll choosing functions

theorem resolves_choosing {op : Builtin} (h : op.name ≠ "cond") : choosing.Resolves topLevel op :=
  Prelude.resolves_define (resolves_bare op) h _

theorem resolves_looping {op : Builtin} (h : op.name ∉ "cond" :: functions.map Prod.fst) :
    looping.Resolves topLevel op := by
  obtain ⟨v, home, hget, hv⟩ := resolves_choosing (List.ne_of_not_mem_cons h)
  exact ⟨v, home, (get?_definedAll (List.not_mem_of_not_mem_cons h)).trans hget, hv⟩

theorem defined_looping {name : String} {formals : List String} {body : Value}
    (h : (name, formals, body) ∈ functions) : Defined looping topLevel name formals body :=
  defined_definedAll (resolves_choosing (show Builtin.equal.name ≠ "cond" by decide)).lt_size
    (by decide) h

theorem sums_looping : Sums looping topLevel where
  sumTo := defined_looping (by simp [functions])
  equal := resolves_looping (by decide)
  sub := resolves_looping (by decide)
  add := resolves_looping (by decide)

theorem parities_looping : Parities looping topLevel where
  parity
    | true => defined_looping (by simp [functions, parityName])
    | false => defined_looping (by simp [functions, parityName])
  equal := resolves_looping (by decide)
  sub := resolves_looping (by decide)

theorem retries_looping : Retries looping topLevel where
  retry := defined_looping (by simp [functions])
  equal := resolves_looping (by decide)
  sub := resolves_looping (by decide)
  throw := resolves_looping (by decide)

theorem chooses_looping : Chooses looping topLevel topLevel where
  cond := by
    refine ⟨bare.serials, .fn cond, ?_, rfl⟩
    refine (get?_definedAll (by decide)).trans (Store.get?_of_own? ?_)
    exact (Store.own?_define ..).trans (if_pos ⟨rfl, (resolves_bare .equal).lt_size, rfl⟩)
  resolves := by
    have hnames : ∀ op ∈ condUses, op.name ∉ "cond" :: functions.map Prod.fst := by decide
    exact fun op hop ↦ resolves_looping (hnames op hop)

theorem finishes_looping : Finishes looping topLevel topLevel where
  loop := defined_looping (by simp [functions])
  chooses := chooses_looping
  equal := resolves_looping (by decide)
  sub := resolves_looping (by decide)

/-- The functions are defined, and in four units of room each loop makes two turns, and so it makes
any number of them. -/
theorem tail_calls_take_no_room_looping :
    let disk : Disk := fun _ ↦ none
    (∃ vs, ArgumentsEnd disk 4 topLevel choosing
      (functions.map fun fn ↦ definition fn.1 fn.2.1 fn.2.2) vs looping) ∧
    (∃ s, (start (call "sum-to" [.int (100000 : Nat), .int 0]) topLevel looping).Ends disk 4
      (.ok (.int 5000050000) s)) ∧
    (∃ s, (start (call "odd?" [.int (50001 : Nat)]) topLevel looping).Ends disk 4
      (.ok (.bool true) s)) ∧
    (∃ s, (start (call "retry" [.int (3 : Nat)]) topLevel looping).Ends disk 4
      (.ok (.str "ok") s)) ∧
    ∃ s, (start (call "loop" [.int (20000 : Nat)]) topLevel looping).Ends disk 4
      (.ok (.str "finished") s) := by
  intro disk
  have htwo : Integer.InRange (2 : Nat) := by decide
  obtain ⟨_, hsum⟩ : ∃ s, (start (call "sum-to" [.int 2, .int 0]) topLevel looping).Ends disk 4
      (.ok (.int 3) s) := exists_ends_sumTo sums_looping htwo (by decide) (by decide)
  obtain ⟨_, hodd⟩ : ∃ s, (start (call "odd?" [.int 2]) topLevel looping).Ends disk 4
      (.ok (.bool false) s) := exists_ends_parity parities_looping false htwo
  obtain ⟨_, hretry⟩ : ∃ s, (start (call "retry" [.int 2]) topLevel looping).Ends disk 4
      (.ok (.str "ok") s) := exists_ends_retry retries_looping htwo
  obtain ⟨_, hloop⟩ : ∃ s, (start (call "loop" [.int 2]) topLevel looping).Ends disk 4
      (.ok (.str "finished") s) := exists_ends_loop finishes_looping htwo
  obtain ⟨-, -, -, hsumTo, hparity, hattempt, hcond⟩ := tail_calls_take_no_room disk 4
  refine ⟨?_, ?_, ?_, ?_, ?_⟩
  · exact exists_argumentsEnd_definitions ofNames_functions
  · exact hsumTo looping topLevel sums_looping hsum.not_overflows 100000 0 (by decide) (by decide)
      (by decide)
  · exact hparity looping topLevel parities_looping false hodd.not_overflows 50001 (by decide)
  · exact hattempt looping topLevel retries_looping hretry.not_overflows 3 (by decide)
  · exact hcond looping topLevel topLevel finishes_looping hloop.not_overflows 20000 (by decide)

end Lisplet.Loop
