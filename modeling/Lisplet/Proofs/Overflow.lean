import Lisplet.Proofs.Program
import Lisplet.Proofs.Session

/-!
# The limit of nesting cannot be observed

A program meets the limit of nesting as an overflow, and no program can do anything about one.  So
the limit decides only whether there is an answer, and never which: an evaluation that ends without
an overflow ends in the same way under every greater limit, with the same store.

That rests on the fact that nothing swallows an overflow, wherever it comes about.  What an
evaluation ends in does not show what went on inside it, so the fact is stated by way of runs in
which something else is put in place of whatever overflows (`runRescued`): the run itself and every
evaluation that it makes, at every depth.  If a run does not overflow, then there was nothing to
replace, whatever is put there (`run_refines_rescued`).  And if it does, there is something that
makes a difference (`overflow_iff_rescued_ne`), such as an alarm (`overflow_iff_alarm`).

An overflow comes about where an evaluation has no room for another one inside it, and where a step
prints, compares or reads something that does not fit (`Engine.Strict`).
-/

set_option autoImplicit false

namespace Lisplet

variable {α β : Type} {disk : Disk}

/-! ## Something else in place of an overflow -/

/-- Goes on with another computation where the first one overflows. -/
def Eval.rescue (x other : Eval α) : Eval α := fun s ↦
  match x s with
  | .error .overflow s' => other s'
  | r => r

/-- A run in which something else is done in place of whatever overflows: a step of the run, or an
evaluation inside a step. -/
def runRescued (other : Task → Eval Value) (disk : Disk) :
    (steps room : Nat) → (sites : List FrameId) → Task → Eval Value
  | 0, _, _, _ => throw .exhausted
  | steps + 1, room, sites, task => do
    let below (t : Task) : Eval Value :=
      (nested (fun room t ↦ runRescued other disk steps room [] t) room t).rescue (other t)
    match ← (task.step ⟨room, disk, below⟩).rescue (Step.done <$> other task) with
    | .next task => runRescued other disk steps room sites task
    | .code task site => runRescued other disk steps room (site :: sites) task
    | .done v =>
      match sites with
      | [] => return v
      | site :: sites => runRescued other disk steps room sites (.eval v site)

/-- What does not overflow is not replaced. -/
theorem Eval.rescue_apply_of_settled {x other : Eval α} {s : Store} (h : Settled (x s)) :
    x.rescue other s = x s := by
  rw [rescue]
  split
  · rename_i heq
    rw [heq] at h
    exact h.elim
  · rfl

theorem Refines.rescue {x y : Eval α} (h : Refines x y) (other : Eval α) :
    Refines x (y.rescue other) := by
  intro s s₁ hs₁ hl
  obtain ⟨hout, hy⟩ := h s s₁ hs₁ hl
  refine ⟨hout, fun hset ↦ ?_⟩
  have heq : y s₁ = x s₁ := hy hset
  have hsettled : Settled (y s₁) := heq ▸ Law.settled_of_answers trivial trivial hset
  rw [Eval.rescue_apply_of_settled hsettled, heq]

/-- One level further down there is one unit of room less on both sides. -/
theorem Refines.nested {room room' : Nat} {go go' : Nat → Task → Eval Value} (hroom : room ≤ room')
    (h : ∀ m n, m ≤ n → ∀ t, Refines (go m t) (go' n t)) (t : Task) :
    Refines (Lisplet.nested go room t) (Lisplet.nested go' room' t) := by
  cases room with
  | zero => exact .overflow
  | succ room =>
    obtain ⟨room', rfl⟩ := Nat.exists_eq_add_one.2 (Nat.lt_of_lt_of_le room.succ_pos hroom)
    exact h room room' (Nat.le_of_succ_le_succ hroom) t

/-- **A run that has an answer did not overflow anywhere**: it ends in the same way if something
else is done in place of whatever overflows, and if more is granted. -/
theorem run_refines_rescued (other : Task → Eval Value) (disk : Disk)
    {steps steps' room room' : Nat} (hsteps : steps ≤ steps') (hroom : room ≤ room')
    (sites : List FrameId) (t : Task) :
    Refines (run disk steps room sites t) (runRescued other disk steps' room' sites t) := by
  induction steps generalizing steps' room room' sites t with
  | zero => exact .exhausted
  | succ steps ih =>
    obtain ⟨steps', rfl⟩ := Nat.exists_eq_add_one.2 (Nat.lt_of_lt_of_le steps.succ_pos hsteps)
    replace hsteps : steps ≤ steps' := Nat.le_of_succ_le_succ hsteps
    rw [run_succ, runRescued]
    have hbelow := Refines.nested hroom fun _ _ hle t ↦ ih hsteps hle [] t
    refine .bind (.rescue (.step hroom (fun t ↦ .rescue (hbelow t) _) t) _) fun st ↦ ?_
    cases st with
    | next t => exact ih hsteps hroom sites t
    | code t site => exact ih hsteps hroom (site :: sites) t
    | done v =>
      cases sites with
      | nil => exact .pure v
      | cons site sites => exact ih hsteps hroom sites _

/-! ## Nothing swallows an overflow -/

/-- A computation has an answer, overflows or runs out of steps. -/
theorem settled_cases (r : EStateM.Result Failure Store α) :
    Settled r ∨ (∃ s, r = .error .overflow s) ∨ ∃ s, r = .error .exhausted s := by
  match r with
  | .error .overflow s => exact .inr (.inl ⟨s, rfl⟩)
  | .error .exhausted s => exact .inr (.inr ⟨s, rfl⟩)
  | .ok _ _ | .error (.error _ _) _ | .error (.thrown _) _ | .error (.crashed _) _
  | .error (.unread _) _ => exact .inl trivial

/-- An alarm in place of an overflow: the run gives up, which nothing intercepts and which is no
answer. -/
def alarmed (_ : Task) : Eval Value := throw .exhausted

theorem Eval.rescue_ne_overflow {x other : Eval α}
    (h : ∀ s s', other s ≠ .error .overflow s') (s s' : Store) :
    x.rescue other s ≠ .error .overflow s' := by
  rw [rescue]
  split
  · exact h _ _
  · rename_i hne
    exact fun heq ↦ hne s' heq

/-- If an alarm is raised in place of every overflow, none is left. -/
theorem runRescued_alarmed_ne_overflow (disk : Disk) (steps room : Nat) (sites : List FrameId)
    (t : Task) (s s' : Store) :
    runRescued alarmed disk steps room sites t s ≠ .error .overflow s' := by
  induction steps generalizing room sites t s with
  | zero => exact fun h ↦ by cases h
  | succ steps ih =>
    rw [runRescued]
    simp only [Bind.bind, EStateM.bind]
    split
    · rename_i st s₁ _
      cases st with
      | next t => exact ih room sites t s₁
      | code t site => exact ih room (site :: sites) t s₁
      | done v =>
        cases sites with
        | nil => exact fun h ↦ by cases h
        | cons site sites => exact ih room sites _ s₁
    · rename_i e s₁ heq
      rintro h
      obtain ⟨rfl, rfl⟩ := EStateM.Result.error.inj h
      exact Eval.rescue_ne_overflow (fun _ _ h ↦ by cases h) _ _ heq

theorem Refines.rescue_alarm {x y alarm : Eval α} (h : Refines x y)
    (halarm : ∀ s, alarm s = .error .exhausted s) : Refines (x.rescue alarm) y := by
  intro s s₁ hs₁ hl
  obtain ⟨hout, hy⟩ := h s s₁ hs₁ hl
  rw [Eval.rescue]
  split
  · rename_i s₂ heq
    rw [heq] at hout
    rw [halarm]
    exact ⟨⟨hout.1, hout.2.1, trivial⟩, fun hset ↦ (hset trivial).elim⟩
  · exact ⟨hout, hy⟩

/-- **A run in which no alarm goes off is as it is without alarms.** -/
theorem runRescued_alarmed_refines (disk : Disk) {steps steps' room room' : Nat}
    (hsteps : steps ≤ steps') (hroom : room ≤ room') (sites : List FrameId) (t : Task) :
    Refines (runRescued alarmed disk steps room sites t) (run disk steps' room' sites t) := by
  induction steps generalizing steps' room room' sites t with
  | zero => exact .exhausted
  | succ steps ih =>
    obtain ⟨steps', rfl⟩ := Nat.exists_eq_add_one.2 (Nat.lt_of_lt_of_le steps.succ_pos hsteps)
    replace hsteps : steps ≤ steps' := Nat.le_of_succ_le_succ hsteps
    rw [run_succ, runRescued]
    have halarm (t : Task) (s : Store) : alarmed t s = .error .exhausted s := rfl
    have hbelow := Refines.nested hroom fun _ _ hle t ↦ ih hsteps hle [] t
    refine .bind (.rescue_alarm (.step hroom (fun t ↦ (hbelow t).rescue_alarm (halarm t)) t)
      fun _ ↦ rfl) fun st ↦ ?_
    cases st with
    | next t => exact ih hsteps hroom sites t
    | code t site => exact ih hsteps hroom (site :: sites) t
    | done v =>
      cases sites with
      | nil => exact .pure v
      | cons site sites => exact ih hsteps hroom sites _

section

variable {steps room : Nat} {t : Task} {s : Store}
  (hend : ∀ s', run disk steps room [] t s ≠ .error .exhausted s')
include hend

/-- **A run overflows exactly if something in it does**: if there is something to be replaced. -/
theorem overflow_iff_rescued_ne :
    (∃ s', run disk steps room [] t s = .error .overflow s') ↔
      ∃ other, runRescued other disk steps room [] t s ≠ run disk steps room [] t s := by
  constructor
  · rintro ⟨s', h⟩
    refine ⟨alarmed, fun heq ↦ ?_⟩
    exact runRescued_alarmed_ne_overflow disk steps room [] t s s' (heq.trans h)
  · rintro ⟨other, hne⟩
    rcases settled_cases (run disk steps room [] t s) with hset | hover | ⟨s', hex⟩
    · have href := run_refines_rescued other disk (Nat.le_refl steps) (Nat.le_refl room) [] t
      exact absurd (href.eq_of_settled hset) hne
    · exact hover
    · exact absurd hex (hend s')

/-- **A run overflows exactly if an alarm goes off in it** when one is set on every overflow. -/
theorem overflow_iff_alarm :
    (∃ s', run disk steps room [] t s = .error .overflow s') ↔
      ∃ s', runRescued alarmed disk steps room [] t s = .error .exhausted s' := by
  constructor
  · rintro ⟨s', h⟩
    rcases settled_cases (runRescued alarmed disk steps room [] t s) with
      hset | ⟨s₁, hover⟩ | halarm
    · have href := runRescued_alarmed_refines disk (Nat.le_refl steps) (Nat.le_refl room) [] t
      have hsame := href.eq_of_settled hset
      rw [← hsame, h] at hset
      exact hset.elim
    · exact absurd hover (runRescued_alarmed_ne_overflow disk steps room [] t s s₁)
    · exact halarm
  · rintro ⟨s', h⟩
    have hne : runRescued alarmed disk steps room [] t s ≠ run disk steps room [] t s :=
      fun heq ↦ hend s' (heq.symm.trans h)
    exact (overflow_iff_rescued_ne hend).2 ⟨alarmed, hne⟩

end

/-! ## What overflows -/

/-- How a built-in function prints its arguments, if it does. -/
def Builtin.printing? : Builtin → Option (PrintStyle × String)
  | prStr | prn => some (.readable, " ")
  | str => some (.display, "")
  | println => some (.display, " ")
  | _ => none

/-- Whatever a step has to print, compare, read or build makes it overflow if it does not fit. -/
structure Engine.Strict (eng : Engine) (s : Store) : Prop where
  /-- The message of an error. -/
  message : ∀ (α : Type) (e : EvalError), e.message s.atoms eng.room = none →
    (eng.fail e : Eval α) s = .error .overflow s
  /-- Printing arguments. -/
  print : ∀ (op : Builtin) (style : PrintStyle) (sep : String) (args : List Value) (f : FrameId),
    op.printing? = some (style, sep) → Value.printAll s.atoms style eng.room sep args = none →
      op.call eng f args s = .error .overflow s
  /-- Comparing two values. -/
  equal : ∀ (a b : Value) (f : FrameId), a.equal? eng.room b = none →
    Builtin.call eng f .equal [a, b] s = .error .overflow s
  /-- Reading a text. -/
  read : ∀ (op : Builtin) (text : String) (f : FrameId), op = .readString ∨ op = .symbol ∨
    op = .keyword → Reader.read eng.room text = .error .tooDeep →
      op.call eng f [.str text] s = .error .overflow s
  /-- The thrown value that a clause catches. -/
  caught : ∀ (f : FrameId) (clause payload : Value), (SpecialForm.catchClause? clause).isSome →
    payload.print s.atoms .readable eng.room = none →
      SpecialForm.handle eng f clause payload s = .error .overflow s
  /-- The form that is expanded. -/
  expanded : ∀ (f : FrameId) (form : Value), (s.macroCall? f form).isSome →
    form.print s.atoms .readable eng.room = none →
      Task.stepExpand eng f form s = .error .overflow s
  /-- The code of a template. -/
  template : ∀ (form : Value), Template.code eng.room ⟨s.serials, []⟩ form = .error .tooDeep →
    SpecialForm.codeOf eng form s = .error .overflow s.nextSerial.2

theorem Value.printAll_singleton {heap : Heap} {style : PrintStyle} {room : Nat} (v : Value) :
    printAll heap style room "" [v] = v.print heap style room := by
  rw [printAll, List.mapM_cons, List.mapM_nil]
  cases v.print heap style room <;> rfl

/-- A computation that starts with one that overflows does so too. -/
theorem overflow_bind {x : Eval α} {s s' : Store} (h : x s = .error .overflow s')
    (f : α → Eval β) : (x >>= f) s = .error .overflow s' := by
  simp only [Bind.bind, EStateM.bind, h]

theorem Engine.print_overflow {eng : Engine} {style : PrintStyle} {sep : String} {vs : List Value}
    {s : Store} (h : Value.printAll s.atoms style eng.room sep vs = none) :
    eng.print style sep vs s = .error .overflow s := by
  change Engine.fit (Value.printAll s.atoms style eng.room sep vs) s = _
  rw [h]
  rfl

theorem Effect.readText_overflow {eng : Engine} {text : String} {unreadable : ReadError → EvalError}
    {s : Store} (h : Reader.read eng.room text = .error .tooDeep) :
    readText eng text unreadable s = .error .overflow s := by
  rw [readText, h]
  rfl

/-- **Nothing that a step has to do swallows an overflow.** -/
theorem Engine.strict (eng : Engine) (s : Store) : eng.Strict s where
  message α e h := by
    rw [fail_apply, h]
    rfl
  print op style sep args f hop h := by
    cases op <;>
      simp only [Builtin.printing?, Option.some.injEq, Prod.mk.injEq, reduceCtorEq] at hop
    all_goals
      obtain ⟨rfl, rfl⟩ := hop
      exact overflow_bind (print_overflow h) _
  equal a b f h := by
    change (fit (a.equal? eng.room b) >>= _) s = _
    rw [h]
    rfl
  read op text f hop h := by
    rcases hop with rfl | rfl | rfl
    · exact Effect.readText_overflow h
    · exact overflow_bind (Effect.readText_overflow h) _
    · exact overflow_bind (Effect.readText_overflow h) _
  caught f clause payload hclause h := by
    obtain ⟨⟨name, handler⟩, hclause⟩ := Option.isSome_iff_exists.1 hclause
    have hprint := print_overflow ((Value.printAll_singleton payload).trans h)
    rw [SpecialForm.handle, hclause, discard_eq_bind]
    exact overflow_bind (overflow_bind hprint _) _
  expanded f form hcall h := by
    obtain ⟨⟨c, args⟩, hcall⟩ := Option.isSome_iff_exists.1 hcall
    have hprint := print_overflow ((Value.printAll_singleton form).trans h)
    rw [Task.stepExpand, get_bind_apply, hcall, discard_eq_bind]
    exact overflow_bind (overflow_bind hprint _) _
  template form h := by
    change eng.lift (Template.code eng.room ⟨s.serials, []⟩ form) s.nextSerial.2 = _
    rw [h]
    rfl

/-! ## Sessions -/

/-- The second world is like the first one, and grants at least as much. -/
structure World.Grants (w w' : World) : Prop where
  disk : w'.disk = w.disk
  depth : w.depth ≤ w'.depth
  steps : w.steps ≤ w'.steps

namespace Session

variable {x : World → Session α} {f : World → α → Session β} {s : Store}

/-- A computation of a session keeps its answer when more is granted. -/
def Growing (x : World → Session α) : Prop :=
  ∀ ⦃w w' : World⦄, w.Grants w' → ∀ s, Settled (x w s) → x w' s = x w s

namespace Growing

/-- Nothing settles after something that has not. -/
theorem settled_of_bind {x : Session α} {f : α → Session β} (h : Settled ((x >>= f) s)) :
    Settled (x s) := by
  cases hx : x s with
  | ok a s₁ => trivial
  | error t s₁ =>
    simp only [Bind.bind, EStateM.bind, hx] at h
    match t, h with
    | .failed (.error _ _), _ | .failed (.thrown _), _ | .failed (.crashed _), _
    | .failed (.unread _), _ | .unreadable _, _ | .noPrelude _ _, _ => trivial

theorem bind (hx : Growing x) (hf : ∀ a, Growing fun w ↦ f w a) :
    Growing fun w ↦ x w >>= f w := by
  intro w w' hw s hs
  have hfirst : x w' s = x w s := hx hw s (settled_of_bind hs)
  simp only [Bind.bind, EStateM.bind, hfirst] at hs ⊢
  split
  · rename_i a s₁ heq
    simp only [heq] at hs
    exact hf a hw s₁ hs
  · rfl

/-- **Evaluating a form.** -/
theorem evalForm (scope : FrameId) (form : Value) :
    Growing fun w ↦ Session.evalForm w scope form := by
  intro w w' hw s hs
  have happly (w : World) : Session.evalForm w scope form s =
      performed (run w.disk w.steps w.depth [] (.eval form scope) s) := perform_apply _ _
  simp only [happly] at hs ⊢
  rw [hw.disk, (run_mono w.disk hw.steps hw.depth [] _).eq_of_settled (settled_performed.1 hs)]

/-- Reading a text. -/
theorem read (source : String) : Growing fun w ↦ Session.read w source := by
  intro w w' hw s hs
  have hread : Reader.read w'.depth source = Reader.read w.depth source := by
    refine Reader.read_sameUnless hw.depth source fun hdeep ↦ ?_
    simp only [Session.read, hdeep] at hs
    exact hs
  simp only [Session.read, hread]

/-- Evaluating a text. -/
theorem eval (source : String) : Growing fun w ↦ Session.eval w source :=
  .bind (.read source) fun form ↦ .evalForm topLevel form

/-- Evaluating a text and printing its value. -/
theorem rep (source : String) : Growing fun w ↦ Session.rep w source := by
  refine .bind (.eval source) fun v w w' hw s hs ↦ ?_
  have hget (f : Store → Session String) : (get >>= f) s = f s s := rfl
  simp only [hget] at hs ⊢
  cases hprint : v.print s.atoms .readable w.depth with
  | none =>
    rw [hprint] at hs
    exact hs.elim
  | some text => rw [Value.print_within hw.depth v text hprint]

end Growing

/-- **Programs cannot observe the limit of nesting.**

What ends without an overflow, be it the evaluation of a form in some frame or all that a session
does with a text, ends in the same way under every greater limit: with the same value or the same
failure, and in the same store.

An evaluation overflows exactly if something in it does, at whatever depth: in functions, macros and
their expansions, and inside whatever intercepts thrown values.  For it overflows exactly if an
alarm goes off in it when one is set on every overflow, and exactly if it makes a difference to do
something else in place of everything in it that overflows.  And a step overflows if it has to
print, compare, read or build what does not fit. -/
theorem limit_unobservable :
    (∀ w w' : World, w.Grants w' →
      (∀ (scope : FrameId) (form : Value) (s : Store), Settled (Session.evalForm w scope form s) →
        Session.evalForm w' scope form s = Session.evalForm w scope form s) ∧
      ∀ (source : String) (s : Store), Settled (Session.rep w source s) →
        Session.rep w' source s = Session.rep w source s) ∧
    (∀ (w : World) (scope : FrameId) (form : Value) (s : Store),
      (∀ s', Session.evalForm w scope form s ≠ .error (.failed .exhausted) s') →
        ((∃ s', Session.evalForm w scope form s = .error (.failed .overflow) s') ↔
          ∃ s', runRescued alarmed w.disk w.steps w.depth [] (.eval form scope) s =
            .error .exhausted s') ∧
        ((∃ s', Session.evalForm w scope form s = .error (.failed .overflow) s') ↔
          ∃ other, runRescued other w.disk w.steps w.depth [] (.eval form scope) s ≠
            run w.disk w.steps w.depth [] (.eval form scope) s)) ∧
    ∀ (eng : Engine) (s : Store), eng.Strict s := by
  have happly (w : World) (scope : FrameId) (form : Value) (s : Store) :
      Session.evalForm w scope form s =
        performed (run w.disk w.steps w.depth [] (.eval form scope) s) := perform_apply _ _
  have hfailed {r : EStateM.Result Failure Store Value} {e : Failure} {s' : Store} :
      performed r = .error (.failed e) s' ↔ r = .error e s' :=
    ⟨fun h ↦ performed_injective h, fun h ↦ h ▸ rfl⟩
  refine ⟨fun w w' hw ↦ ⟨fun scope form s ↦ Growing.evalForm scope form hw s,
    fun source s ↦ Growing.rep source hw s⟩, fun w scope form s hend ↦ ?_, Engine.strict⟩
  simp only [happly, hfailed, ne_eq] at hend ⊢
  exact ⟨overflow_iff_alarm hend, overflow_iff_rescued_ne hend⟩

/-- A vector that fits into little room fits into more, and one that does not fit into the room that
is left inside a `try*` overflows in spite of the clause. -/
theorem limit_unobservable_vector :
    let w : World := { disk := fun _ ↦ none, depth := 2, steps := 9 }
    let more : World := { disk := fun _ ↦ none }
    let less : World := { disk := fun _ ↦ none, depth := 1, steps := 9 }
    let form : Value := .list none [.sym "try*", .vec [.int 1],
      .list none [.sym "catch*", .sym "e", .int 2]]
    (w.Grants more ∧ Settled (Session.evalForm w topLevel form bare) ∧
      Session.evalForm more topLevel form bare = .ok (.vec [.int 1]) bare ∧
      Settled (Session.rep w "[1 2]" bare) ∧ Session.rep more "[1 2]" bare = .ok "[1 2]" bare) ∧
    (∀ s', Session.evalForm less topLevel form bare ≠ .error (.failed .exhausted) s') ∧
    Session.evalForm less topLevel form bare = .error (.failed .overflow) bare ∧
    (∃ s', runRescued alarmed less.disk 9 1 [] (.eval form topLevel) bare =
      .error .exhausted s') ∧
    ∃ other, runRescued other less.disk 9 1 [] (.eval form topLevel) bare ≠
      run less.disk 9 1 [] (.eval form topLevel) bare := by
  intro w more less form
  obtain ⟨hlimit, hinside, -⟩ := limit_unobservable
  have hmore : w.Grants more := ⟨rfl, by decide, by decide⟩
  obtain ⟨hforms, htexts⟩ := hlimit w more hmore
  have hform : Session.evalForm w topLevel form bare = .ok (.vec [.int 1]) bare := rfl
  have htext : Session.rep w "[1 2]" bare = .ok "[1 2]" bare := rfl
  have hover : Session.evalForm less topLevel form bare = .error (.failed .overflow) bare := rfl
  have hend (s' : Store) :
      Session.evalForm less topLevel form bare ≠ .error (.failed .exhausted) s' := by
    rw [hover]
    exact fun h ↦ by cases h
  obtain ⟨halarm, hother⟩ := hinside less topLevel form bare hend
  refine ⟨⟨hmore, hform ▸ trivial, ?_, htext ▸ trivial, ?_⟩, hend, hover, ?_, ?_⟩
  · exact (hforms topLevel form bare (hform ▸ trivial)).trans hform
  · exact (htexts "[1 2]" bare (htext ▸ trivial)).trans htext
  · exact halarm.1 ⟨bare, hover⟩
  · exact hother.1 ⟨bare, hover⟩

end Session

end Lisplet
