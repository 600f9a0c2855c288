import Lisplet.Proofs.Answers
import Lisplet.Proofs.Expansion

/-!
# What becomes of a thrown value

A form that catches evaluates its body and looks at how that ends.  A value is the value of the
form, and a failure other than a thrown value is its failure; what the clause says does not matter
then.  A thrown value goes to the handler, which is evaluated in a frame of its own in place of the
form.

Between the two stands one thing more: the value is printed, although nobody gets to see the text.
So the handler is reached exactly by the values that print (`attempt_handles`).  A value that fits
into no room, as an atom does that holds itself, turns into an overflow, and that is not caught by
anything.
-/

set_option autoImplicit false

namespace Lisplet

variable {α : Type} {disk : Disk} {scope : FrameId} {s s₁ : Store} {l : Option Label}
  {body clause handler payload v : Value} {name : String} {e : Failure}
  {r : EStateM.Result Failure Store Value}

/-! ## Intercepting -/

/-- How a computation ends of which thrown values are intercepted. -/
def caught : EStateM.Result Failure Store α → EStateM.Result Failure Store (Except Value α)
  | .ok a s => .ok (.ok a) s
  | .error (.thrown payload) s => .ok (.error payload) s
  | .error e s => .error e s

theorem catchThrown_apply (x : Eval α) (s : Store) : Eval.catchThrown x s = caught (x s) := by
  rw [Eval.catchThrown]
  cases x s with
  | ok a s₁ => rfl
  | error e s₁ => cases e <;> rfl

theorem settled_caught {q : EStateM.Result Failure Store α} (h : Settled q) :
    Settled (caught q) := by
  cases q with
  | ok a s₁ => trivial
  | error e s₁ => cases e <;> exact h

/-- Of what has settled, a thrown value is intercepted. -/
theorem Settles.caught {x : Engine → Eval α} {q : EStateM.Result Failure Store α}
    (h : Settles disk x s q) :
    Settles disk (fun eng ↦ Eval.catchThrown (x eng)) s (caught q) := by
  obtain ⟨hq, n, h⟩ := h
  exact ⟨settled_caught hq, n, fun steps room hsteps hroom ↦
    (catchThrown_apply _ s).trans (congrArg _ (h steps room hsteps hroom))⟩

/-- A failure that throws nothing is not intercepted. -/
theorem caught_error (h : ∀ payload, e ≠ .thrown payload) :
    caught (.error e s : EStateM.Result Failure Store α) = .error e s := by
  cases e with
  | thrown payload => exact (h payload rfl).elim
  | _ => rfl

/-- A value that prints in some room is printed without effect. -/
theorem settles_print {style : PrintStyle} {room : Nat}
    (h : (v.print s.atoms style room).isSome) :
    Settles disk (fun eng ↦ discard (eng.print style "" [v])) s (.ok () s) := by
  obtain ⟨text, h⟩ := Option.isSome_iff_exists.1 h
  refine ⟨trivial, room, fun steps room' _ hroom ↦ ?_⟩
  have hprint : v.print s.atoms style room' = some text := Value.print_within hroom v text h
  simp only [discard_eq_bind, Engine.print, bind_assoc, get_bind_apply, Engine.granted,
    Value.printAll_singleton, hprint]
  rfl

/-! ## The form that catches -/

/-- The form that evaluates a body, with a clause for what it throws. -/
def attemptOf (l : Option Label) (body clause : Value) : Value :=
  .list l [.sym SpecialForm.attempt.name, body, clause]

/-- The clause that binds a thrown value to a name and evaluates a handler. -/
def catching (l : Option Label) (name : String) (handler : Value) : Value :=
  .list l [.sym "catch*", .sym name, handler]

theorem catchClause?_catching : SpecialForm.catchClause? (catching l name handler) =
    some (name, handler) := rfl

theorem settles_attempt_iff :
    Settles disk (fun eng ↦ eng.eval scope (attemptOf l body clause)) s r ↔
      Settles disk (fun eng ↦ Direct.attempt eng scope [body, clause]) s r := by
  have hform (eng : Engine) : Direct.value eng (.eval (attemptOf l body clause) scope) =
      Direct.attempt eng scope [body, clause] := by
    rw [Direct.value, attemptOf, Direct.form, SpecialForm.ofHead?, SpecialForm.ofName?_name]
    rfl
  refine settles_run_iff_value.trans ?_
  simp only [hform]

/-- A body that has a value is all that counts. -/
theorem settles_attempt_of_ok (h : Settles disk (fun eng ↦ eng.eval scope body) s (.ok v s₁)) :
    Settles disk (fun eng ↦ eng.eval scope (attemptOf l body clause)) s (.ok v s₁) := by
  rw [settles_attempt_iff]
  simp only [Direct.attempt]
  exact (settles_bind_of_ok h.caught).2 (settles_pure v)

/-- A failure that throws nothing is not caught. -/
theorem settles_attempt_of_error (he : ∀ payload, e ≠ .thrown payload)
    (h : Settles disk (fun eng ↦ eng.eval scope body) s (.error e s₁)) :
    Settles disk (fun eng ↦ eng.eval scope (attemptOf l body clause)) s (.error e s₁) := by
  have hcaught := h.caught
  rw [caught_error he] at hcaught
  rw [settles_attempt_iff]
  simp only [Direct.attempt]
  exact settles_bind_of_error hcaught

/-- **A thrown value that prints goes to the handler.** -/
theorem settles_attempt_of_thrown {lc : Option Label} {room : Nat}
    (h : Settles disk (fun eng ↦ eng.eval scope body) s (.error (.thrown payload) s₁))
    (hprint : (payload.print s₁.atoms .readable room).isSome) :
    let inner := s₁.addFrame (some scope) (.ofList [(name, payload)])
    Settles disk (fun eng ↦ eng.eval scope (attemptOf l body (catching lc name handler))) s r ↔
      Settles disk (fun eng ↦ eng.eval inner.1 handler) inner.2 r := by
  intro inner
  rw [settles_attempt_iff]
  simp only [Direct.attempt, catchClause?_catching]
  refine (settles_bind_of_ok h.caught).trans ?_
  refine (settles_bind_of_ok (settles_print hprint)).trans ?_
  have hframe : Settles disk (fun _ ↦ (modifyGet fun s ↦
      s.addFrame (some scope) (.ofList [(name, payload)]) : Eval FrameId)) s₁
      (.ok inner.1 inner.2) := settles_const_iff.2 ⟨trivial, rfl⟩
  exact settles_bind_of_ok hframe

/-! ### When the room runs out -/

/-- What a run of the form comes to, step by step, by how its body ends. -/
theorem run_attempt (disk : Disk) (steps room : Nat) (l : Option Label) (body clause : Value)
    (scope : FrameId) (s : Store) :
    run disk (steps + 1) (room + 1) [] (.eval (attemptOf l body clause) scope) s =
      match run disk steps room [] (.eval body scope) s with
      | .ok v s₁ => .ok v s₁
      | .error (.thrown payload) s₁ =>
        (SpecialForm.handle ⟨room + 1, disk, run disk steps room []⟩ scope clause payload >>=
          proceed disk steps (room + 1) []) s₁
      | .error e s₁ => .error e s₁ := by
  have hstep : (Task.eval (attemptOf l body clause) scope).step
      ⟨room + 1, disk, nested (fun room t ↦ run disk steps room [] t) (room + 1)⟩ =
      SpecialForm.stepAttempt ⟨room + 1, disk, run disk steps room []⟩ scope [body, clause] := by
    rw [Task.step, attemptOf, Task.stepEval, SpecialForm.ofHead?, SpecialForm.ofName?_name]
    rfl
  rw [run_succ, hstep, SpecialForm.stepAttempt, bind_assoc]
  have hcaught := catchThrown_apply (run disk steps room [] (.eval body scope)) s
  simp only [Bind.bind, EStateM.bind, Engine.eval, hcaught]
  cases run disk steps room [] (.eval body scope) s with
  | ok v s₁ => rfl
  | error e s₁ => cases e <;> rfl

/-- An overflow inside the body is not caught. -/
theorem run_attempt_overflow {steps room : Nat}
    (h : run disk steps room [] (.eval body scope) s = .error .overflow s₁) :
    run disk (steps + 1) (room + 1) [] (.eval (attemptOf l body clause) scope) s =
      .error .overflow s₁ := by
  rw [run_attempt, h]

/-- **A thrown value that never prints becomes an overflow**, however much is granted. -/
theorem exists_overflow_of_thrown {lc : Option Label}
    (h : Settles disk (fun eng ↦ eng.eval scope body) s (.error (.thrown payload) s₁))
    (hprint : ∀ room, payload.print s₁.atoms .readable room = none) :
    ∃ enough, ∀ steps room, enough ≤ steps → enough ≤ room →
      run disk steps room [] (.eval (attemptOf l body (catching lc name handler)) scope) s =
        .error .overflow s₁ := by
  obtain ⟨-, n, h⟩ := h
  refine ⟨n + 1, fun steps room hsteps hroom ↦ ?_⟩
  obtain ⟨steps, rfl⟩ := Nat.exists_eq_add_one.2 (Nat.lt_of_lt_of_le n.succ_pos hsteps)
  obtain ⟨room, rfl⟩ := Nat.exists_eq_add_one.2 (Nat.lt_of_lt_of_le n.succ_pos hroom)
  have hbody : run disk steps room [] (.eval body scope) s = .error (.thrown payload) s₁ :=
    h steps room (Nat.le_of_succ_le_succ hsteps) (Nat.le_of_succ_le_succ hroom)
  rw [run_attempt, hbody]
  exact overflow_bind ((Engine.strict _ s₁).caught scope _ payload rfl (hprint _)) _

/-- **The handler is reached exactly by the thrown values that print.**

The form has the value that its body has, and fails as its body fails if that throws nothing; an
overflow is among these failures, and the clause, whatever it is, is not looked at.  If the body
throws a value that prints, then the form ends as the handler does in a new frame that binds the
value to the name.  If the value does not print in any room, then the form overflows instead. -/
theorem attempt_handles (disk : Disk) (scope : FrameId) (s : Store) (l : Option Label)
    (body : Value) :
    (∀ clause v s₁, Evaluates disk (.eval body scope) s (.ok v s₁) →
      Evaluates disk (.eval (attemptOf l body clause) scope) s (.ok v s₁)) ∧
    (∀ clause e s₁, (∀ payload, e ≠ .thrown payload) →
      Evaluates disk (.eval body scope) s (.error e s₁) →
        Evaluates disk (.eval (attemptOf l body clause) scope) s (.error e s₁)) ∧
    (∀ clause steps room s₁, run disk steps room [] (.eval body scope) s = .error .overflow s₁ →
      run disk (steps + 1) (room + 1) [] (.eval (attemptOf l body clause) scope) s =
        .error .overflow s₁) ∧
    ∀ (lc : Option Label) (name : String) (handler payload : Value) (s₁ : Store),
      Evaluates disk (.eval body scope) s (.error (.thrown payload) s₁) →
      let form := attemptOf l body (catching lc name handler)
      let inner := s₁.addFrame (some scope) (.ofList [(name, payload)])
      ((∃ room, (payload.print s₁.atoms .readable room).isSome) →
        ∀ r, Evaluates disk (.eval form scope) s r ↔
          Evaluates disk (.eval handler inner.1) inner.2 r) ∧
      ((∀ room, payload.print s₁.atoms .readable room = none) →
        ∃ enough, ∀ steps room, enough ≤ steps → enough ≤ room →
          run disk steps room [] (.eval form scope) s = .error .overflow s₁) := by
  refine ⟨fun clause v s₁ h ↦ settles_attempt_of_ok h,
    fun clause e s₁ he h ↦ settles_attempt_of_error he h,
    fun clause steps room s₁ h ↦ run_attempt_overflow h,
    fun lc name handler payload s₁ h ↦ ⟨?_, exists_overflow_of_thrown h⟩⟩
  rintro ⟨room, hprint⟩ r
  exact settles_attempt_of_thrown h hprint

namespace Session

/-- A handler that is not needed, a failure and an overflow that are not caught, a thrown list that
is, and a thrown atom that holds itself. -/
theorem attempt_handles_five :
    let disk : Disk := fun _ ↦ none
    let s : Store :=
      { frames := #[⟨⟨[("throw", .builtin topLevel .throw), ("a", .atom 0)]⟩, none⟩]
        atoms := #[.atom 0] }
    let throwing (payload : Value) : Value := .list none [.sym "throw", payload]
    let unbound : Failure := .error (.unbound "x") "'x' not found"
    let inner := s.addFrame (some topLevel) (.ofList [("e", .vec [.int 1])])
    Evaluates disk (.eval (attemptOf none (.int 7) .nil) topLevel) s (.ok (.int 7) s) ∧
      Evaluates disk (.eval (attemptOf none (.sym "x") .nil) topLevel) s (.error unbound s) ∧
      run disk 9 1 [] (.eval (attemptOf none (.vec [.int 1]) .nil) topLevel) s =
        .error .overflow s ∧
      Evaluates disk (.eval (attemptOf none (throwing (.vec [.int 1]))
        (catching none "e" (.sym "e"))) topLevel) s (.ok (.vec [.int 1]) inner.2) ∧
      ∃ enough, ∀ steps room, enough ≤ steps → enough ≤ room →
        run disk steps room [] (.eval (attemptOf none (throwing (.sym "a"))
          (catching none "e" (.int 1))) topLevel) s = .error .overflow s := by
  intro disk s throwing unbound inner
  have hseven : run disk 9 9 [] (.eval (.int 7) topLevel) s = .ok (.int 7) s := rfl
  have hunbound : run disk 9 9 [] (.eval (.sym "x") topLevel) s = .error unbound s := by
    with_unfolding_all rfl
  have hsmall : run disk 8 0 [] (.eval (.vec [.int 1]) topLevel) s = .error .overflow s := rfl
  have hthrown : run disk 9 9 [] (.eval (throwing (.vec [.int 1])) topLevel) s =
      .error (.thrown (.vec [.int 1])) s := by
    with_unfolding_all rfl
  have hendless : run disk 9 9 [] (.eval (throwing (.sym "a")) topLevel) s =
      .error (.thrown (.atom 0)) s := by
    with_unfolding_all rfl
  have hname : run disk 9 9 [] (.eval (.sym "e") inner.1) inner.2 =
      .ok (.vec [.int 1]) inner.2 := by
    with_unfolding_all rfl
  obtain ⟨hvalue, -, -, -⟩ := attempt_handles disk topLevel s none (.int 7)
  obtain ⟨-, hfails, -, -⟩ := attempt_handles disk topLevel s none (.sym "x")
  obtain ⟨-, -, hover, -⟩ := attempt_handles disk topLevel s none (.vec [.int 1])
  obtain ⟨-, -, -, hcaught⟩ :=
    attempt_handles disk topLevel s none (throwing (.vec [.int 1]))
  obtain ⟨-, -, -, hmissed⟩ := attempt_handles disk topLevel s none (throwing (.sym "a"))
  refine ⟨hvalue _ _ _ (.of_run hseven trivial),
    hfails _ _ _ (fun payload ↦ Failure.noConfusion) (.of_run hunbound trivial),
    hover _ 8 0 _ hsmall, ?_, ?_⟩
  · obtain ⟨hhandled, -⟩ := hcaught none "e" (.sym "e") _ _ (.of_run hthrown trivial)
    exact (hhandled ⟨9, rfl⟩ _).2 (.of_run hname trivial)
  · obtain ⟨-, hoverflow⟩ := hmissed none "e" (.int 1) _ _ (.of_run hendless trivial)
    exact hoverflow (Value.print_atom_eq_none rfl)

/-- If an endless atom is thrown where a text is read and evaluated, then its form throws it. -/
theorem exists_of_rep_throwsEndless {w : World} {line : String} {form : Value}
    (hread : Reader.read w.depth line = .ok form)
    (h : Repl.throwsEndless (Session.rep w line s) = true) :
    ∃ a s', run w.disk w.steps w.depth [] (.eval form topLevel) s = .error (.thrown (.atom a)) s' ∧
      s'.atoms.content a = .atom a := by
  obtain ⟨a, s', hrep, hcontent⟩ := Repl.exists_of_throwsEndless h
  refine ⟨a, s', ?_, hcontent⟩
  have heval : Session.eval w line s =
      performed (run w.disk w.steps w.depth [] (.eval form topLevel) s) := by
    rw [eval_apply, hread]
    exact perform_apply _ _
  rw [rep_apply, heval] at hrep
  cases hrun : run w.disk w.steps w.depth [] (.eval form topLevel) s with
  | ok v s₁ =>
    rw [hrun] at hrep
    simp only [performed] at hrep
    split at hrep <;> cases hrep
  | error e s₁ =>
    rw [hrun] at hrep
    cases hrep
    rfl

set_option maxRecDepth 2000 in
/-- An atom is made to hold itself and thrown: the handler would have the value `1`, but the form
that it belongs to does not come to any end. -/
theorem handler_missed_by_endless_payload :
    let disk : Disk := fun _ ↦ none
    let body : Value := .list none [.sym "let*",
      .list none [.sym "a", .list none [.sym "atom", .nil]],
      .list none [.sym "do", .list none [.sym "reset!", .sym "a", .sym "a"],
        .list none [.sym "throw", .sym "a"]]]
    let inner (payload : Value) (s₁ : Store) :=
      s₁.addFrame (some topLevel) (.ofList [("e", payload)])
    Reachable anything bare ∧ ∃ payload s₁,
      Evaluates disk (.eval body topLevel) bare (.error (.thrown payload) s₁) ∧
      Evaluates disk (.eval (.int 1) (inner payload s₁).1) (inner payload s₁).2
        (.ok (.int 1) (inner payload s₁).2) ∧
      ∀ r, ¬Evaluates disk
        (.eval (attemptOf none body (catching none "e" (.int 1))) topLevel) bare r := by
  intro disk body inner
  let few : World := { disk, depth := 20, steps := 40 }
  have hthrows : Repl.throwsEndless (Session.rep few
      "(let* (a (atom nil)) (do (reset! a a) (throw a)))" bare) = true := by
    decide +kernel
  have hread : Reader.read few.depth "(let* (a (atom nil)) (do (reset! a a) (throw a)))" =
      .ok body := rfl
  obtain ⟨a, s₁, hrun, hcontent⟩ := exists_of_rep_throwsEndless hread hthrows
  have hthrown := Evaluates.of_run hrun trivial
  refine ⟨reachable_bare disk, .atom a, s₁, hthrown, ?_, ?_⟩
  · have hvalue : run disk 1 1 [] (.eval (.int 1) (inner (.atom a) s₁).1) (inner (.atom a) s₁).2 =
        .ok (.int 1) (inner (.atom a) s₁).2 := rfl
    exact .of_run hvalue trivial
  · rintro r ⟨hr, n, h⟩
    obtain ⟨enough, hoverflow⟩ :=
      exists_overflow_of_thrown hthrown (Value.print_atom_eq_none hcontent)
    have hend := h (max n enough) (max n enough) (Nat.le_max_left ..) (Nat.le_max_left ..)
    have hover := hoverflow _ _ (Nat.le_max_right n enough) (Nat.le_max_right n enough)
    obtain rfl : r = .error .overflow s₁ := hend.symm.trans hover
    exact hr

end Session

end Lisplet
