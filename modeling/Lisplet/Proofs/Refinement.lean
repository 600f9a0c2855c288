import Lisplet.Proofs.Direct
import Lisplet.Proofs.Law.Run

/-!
# The run is evaluation in direct style

A run takes steps in a loop, with a stack of the frames where code is still awaited.  Evaluation in
direct style has neither: it calls itself.  Here they are shown to be the same, whatever is
evaluated and in whatever store, however the evaluation ends.

Both are granted something, steps and room on the one side and a depth on the other, and where it
does not suffice they end without an answer.  `Refines x y` says that `y` ends like `x` wherever `x`
has an answer.  Each of the two evaluators refines the other once that is granted enough
(`run_refines`, `evaluate_refines`).

What relates them is how a stack is understood: as what the recursive calls that are under way have
left to do (`StackRefines`, `RefinesStack`).  Both inductions are uniform in that continuation, of
which all that is known is that it does for every value what the run does once it has come to that
value, with the steps that are left.  A macro call puts one frame on the stack and one evaluation in
front of the continuation; every other step leaves both alone.  That the steps themselves agree,
through all special forms and the functions that call functions, is what the laws of evaluation are
there for, and the law that asks for nothing is enough.
-/

set_option autoImplicit false

namespace Lisplet

/-! ## Refinement -/

/-- The law that asks for nothing, and for which running out is no answer. -/
def Law.free : Law where
  lax := True
  fits _ := True
  shape _ := True
  captured _ _ := True
  active _ _ := True
  ok _ _ := True
  captured_mono _ _ := trivial
  active_mono _ _ := trivial
  ok_mono _ _ := trivial
  captured_of_active _ := trivial
  shape_congr _ _ _ := trivial
  shape_define _ _ _ _ := trivial
  shape_addFrame _ _ _ := trivial
  active_addFrame _ _ _ := trivial
  active_topLevel _ _ := trivial
  ok_written _ := trivial
  ok_fn := Iff.rfl
  ok_atom _ := trivial
  ok_withMeta _ _ := trivial
  ok_count _ _ := trivial

namespace Law

theorem good_free (s : Store) (v : Value) : free.Good s v :=
  Value.all_of_forall (fun _ ↦ trivial) v

theorem holds_free (s : Store) : free.Holds s :=
  .of_good trivial (good_free s)

theorem admits_free (s : Store) (t : Task) : free.Admits s t := by
  cases t with
  | eval form scope | expand form scope => exact ⟨good_free s form, trivial⟩
  | call fn args scope => exact ⟨good_free s fn, fun v _ ↦ good_free s v, trivial⟩

theorem fits_free (t : Task) : free.Fits t := by
  cases t with
  | eval | expand => trivial
  | call fn args scope => exact fun _ _ ↦ trivial

end Law

/-- **The second computation ends like the first one wherever that has an answer.** -/
def Refines {α : Type} (x y : Eval α) : Prop :=
  ∀ s, Law.free.Agree s x y fun _ _ ↦ True

namespace Refines

variable {α β : Type} {x y : Eval α}

theorem pure (a : α) : Refines (Pure.pure a) (Pure.pure a) :=
  fun _ ↦ .pure fun _ _ ↦ trivial

theorem bind {f g : α → Eval β} (hxy : Refines x y) (hfg : ∀ a, Refines (f a) (g a)) :
    Refines (x >>= f) (y >>= g) :=
  fun s ↦ .bind (hxy s) fun s₁ a _ _ ↦ hfg a s₁

theorem overflow : Refines (MonadExcept.throw .overflow) y :=
  fun _ ↦ .overflow trivial

theorem exhausted : Refines (MonadExcept.throw .exhausted) y :=
  fun _ ↦ .exhausted trivial

theorem eq_of_settled (h : Refines x y) {s : Store} (hs : Settled (x s)) : y s = x s :=
  (h s s (.refl s) (Law.holds_free s)).2 (Law.answers_of_settled hs)

/-- Steps refine each other if the evaluations inside them do. -/
theorem step {disk : Disk} {room room' : Nat} {go go' : Task → Eval Value}
    (hroom : room ≤ room') (h : ∀ t, Refines (go t) (go' t)) (t : Task) :
    Refines (t.step ⟨room, disk, go⟩) (t.step ⟨room', disk, go'⟩) := by
  intro s
  have hengines : Law.free.Engines ⟨room, disk, go⟩ ⟨room', disk, go'⟩ := by
    refine ⟨rfl, hroom, fun hroomy ↦ (hroomy trivial).elim, fun s₁ t₁ _ ↦ ?_⟩
    exact (h t₁ s₁).imp fun s₂ v _ _ ↦ ⟨Law.good_free s₂ v, trivial⟩
  have hstep := hengines.step (Law.admits_free s t) (Law.fits_free t)
  exact hstep.imp fun _ _ _ _ ↦ trivial

end Refines

/-! ## Granting more -/

/-- More steps and more room change nothing about a run that has an answer. -/
theorem run_mono (disk : Disk) {steps steps' room room' : Nat} (hsteps : steps ≤ steps')
    (hroom : room ≤ room') (sites : List FrameId) (t : Task) :
    Refines (run disk steps room sites t) (run disk steps' room' sites t) := by
  intro s
  rw [← runWatched_idle .overflow, ← runWatched_idle .overflow]
  have hsites : ∀ f ∈ sites, Law.free.active s f := fun _ _ ↦ trivial
  have hrun := Law.run_agree (.idle fun _ ↦ trivial) Failure.isFinal_overflow disk hsteps hroom
    (fun hlax ↦ (hlax trivial).elim) (fun hroomy ↦ (hroomy trivial).elim) hsites
    (Law.admits_free s t)
  exact hrun.imp fun _ _ _ _ ↦ trivial

/-- A greater depth changes nothing about an evaluation that has an answer. -/
theorem Direct.evaluate_mono (disk : Disk) {depth depth' : Nat} (h : depth ≤ depth') (t : Task) :
    Refines (evaluate disk depth t) (evaluate disk depth' t) := by
  induction depth generalizing depth' t with
  | zero => exact .overflow
  | succ depth ih =>
    obtain ⟨depth', rfl⟩ := Nat.exists_eq_add_one.2 (Nat.lt_of_lt_of_le depth.succ_pos h)
    have hle : depth ≤ depth' := Nat.le_of_succ_le_succ h
    rw [evaluate, evaluate, value_eq, value_eq]
    refine .bind (.step hle (ih hle) t) fun st ↦ ?_
    cases st with
    | done v => exact .pure v
    | next t => exact ih hle t
    | code t site => exact .bind (ih hle t) fun code ↦ ih hle _

/-! ## A stack of frames as a continuation -/

section

variable {disk : Disk} {steps room : Nat} {sites : List FrameId} {k : Value → Eval Value}

/-- **A stack refines a continuation**: once a value is there, the run ends like the continuation,
if less than so many steps are left. -/
def StackRefines (disk : Disk) (steps room : Nat) (sites : List FrameId)
    (k : Value → Eval Value) : Prop :=
  ∀ left, left < steps → ∀ v, Refines (proceed disk left room sites (.done v)) (k v)

/-- **A continuation refines a stack**: once a value is there, the continuation ends like the run,
if at least so many steps are left. -/
def RefinesStack (disk : Disk) (steps room : Nat) (k : Value → Eval Value)
    (sites : List FrameId) : Prop :=
  ∀ left, steps ≤ left → ∀ v, Refines (k v) (proceed disk left room sites (.done v))

theorem StackRefines.nil : StackRefines disk steps room [] pure :=
  fun _ _ v ↦ .pure v

theorem StackRefines.mono {steps' : Nat} (h : StackRefines disk steps' room sites k)
    (hle : steps ≤ steps') : StackRefines disk steps room sites k :=
  fun left hlt ↦ h left (Nat.lt_of_lt_of_le hlt hle)

theorem RefinesStack.nil : RefinesStack disk steps room pure [] :=
  fun _ _ v ↦ .pure v

end

/-- **A run ends like evaluation in direct style that goes on**, if its stack refines how that goes
on. -/
theorem run_refines (disk : Disk) {steps room depth : Nat} (hdepth : steps + room ≤ depth)
    {sites : List FrameId} {k : Value → Eval Value} (hk : StackRefines disk steps room sites k)
    (t : Task) :
    Refines (run disk steps room sites t) (Direct.evaluate disk depth t >>= k) := by
  induction steps using Nat.strongRecOn generalizing room depth sites k t with
  | ind steps ih =>
    cases steps with
    | zero => exact .exhausted
    | succ steps =>
      obtain ⟨depth, rfl⟩ := Nat.exists_eq_add_one.2 (show 0 < depth by omega)
      have hle : steps + room ≤ depth := by omega
      rw [run_succ, Direct.evaluate, Direct.value_eq, bind_assoc]
      refine .bind (.step (by omega) (fun t ↦ ?_) t) fun st ↦ ?_
      · -- an evaluation inside the step starts a stack of its own
        cases room with
        | zero => exact .overflow
        | succ room =>
          have hrun := ih steps (Nat.lt_succ_self steps) (Nat.le_of_succ_le hle) .nil t
          rwa [bind_pure] at hrun
      · have hrest : StackRefines disk steps room sites k := hk.mono (Nat.le_succ steps)
        cases st with
        | done v =>
          rw [Direct.finish, pure_bind]
          exact hk steps (Nat.lt_succ_self steps) v
        | next t => exact ih steps (Nat.lt_succ_self steps) hle hrest t
        | code t site =>
          -- with the frame on the stack, evaluating the code is what is left to do first
          rw [Direct.finish, bind_assoc]
          refine ih steps (Nat.lt_succ_self steps) hle (fun left hlt code ↦ ?_) t
          have hlt' : left ≤ steps := Nat.le_of_lt hlt
          exact ih left (Nat.lt_succ_of_le hlt') (by omega) (hrest.mono hlt') _

/-- The steps that evaluation to some depth takes at most: one, and those of two evaluations, for a
call of a macro evaluates a body and then the code that this comes to. -/
def Direct.stepsOf : (depth : Nat) → Nat
  | 0 => 0
  | depth + 1 => 1 + stepsOf depth + stepsOf depth

/-- **Evaluation in direct style that goes on ends like a run**, if how it goes on refines the stack
of the run. -/
theorem evaluate_refines (disk : Disk) {steps room depth rest : Nat}
    (hsteps : Direct.stepsOf depth + rest ≤ steps) (hroom : depth ≤ room)
    {sites : List FrameId} {k : Value → Eval Value} (hk : RefinesStack disk rest room k sites)
    (t : Task) :
    Refines (Direct.evaluate disk depth t >>= k) (run disk steps room sites t) := by
  induction depth generalizing steps room rest sites k t with
  | zero => exact .overflow
  | succ depth ih =>
    rw [Direct.stepsOf] at hsteps
    obtain ⟨steps, rfl⟩ := Nat.exists_eq_add_one.2 (show 0 < steps by omega)
    have hroom' : depth ≤ room := Nat.le_of_succ_le hroom
    rw [run_succ, Direct.evaluate, Direct.value_eq, bind_assoc]
    refine .bind (.step hroom' (fun t ↦ ?_) t) fun st ↦ ?_
    · -- a recursive call inside the step is a run of its own
      obtain ⟨room, rfl⟩ := Nat.exists_eq_add_one.2 (Nat.lt_of_lt_of_le depth.succ_pos hroom)
      have hinner : Direct.stepsOf depth + 0 ≤ steps := by omega
      have hrun := ih hinner (Nat.le_of_succ_le_succ hroom) .nil t
      rwa [bind_pure] at hrun
    · cases st with
      | done v =>
        rw [Direct.finish, pure_bind]
        exact hk steps (by omega) v
      | next t => exact ih (by omega) hroom' hk t
      | code t site =>
        -- the steps that the body does not take are enough for the code that it comes to
        rw [Direct.finish, bind_assoc]
        have hbody : Direct.stepsOf depth + (Direct.stepsOf depth + rest) ≤ steps := by omega
        refine ih hbody hroom' (fun left hleft code ↦ ?_) t
        exact ih hleft hroom' hk _

/-! ## The two evaluators -/

/-- A run refines evaluation in direct style. -/
theorem run_refines_direct (disk : Disk) {steps room depth : Nat} (h : steps + room ≤ depth)
    (t : Task) : Refines (run disk steps room [] t) (Direct.evaluate disk depth t) := by
  have hrun := run_refines disk h .nil t
  rwa [bind_pure] at hrun

/-- Evaluation in direct style refines a run. -/
theorem direct_refines_run (disk : Disk) {steps room depth : Nat}
    (hsteps : Direct.stepsOf depth ≤ steps) (hroom : depth ≤ room) (t : Task) :
    Refines (Direct.evaluate disk depth t) (run disk steps room [] t) := by
  have hrun := evaluate_refines disk (show Direct.stepsOf depth + 0 ≤ steps from hsteps) hroom
    .nil t
  rwa [bind_pure] at hrun

/-! ## The same answers -/

/-- **An evaluation ends** in `r` if it does so with all the steps and the room that it takes. -/
def Evaluates (disk : Disk) (task : Task) (s : Store)
    (r : EStateM.Result Failure Store Value) : Prop :=
  Settled r ∧ ∃ enough, ∀ steps room, enough ≤ steps → enough ≤ room →
    run disk steps room [] task s = r

/-- **An evaluation in direct style ends** in `r` if it does so as deep as it takes. -/
def Direct.Evaluates (disk : Disk) (task : Task) (s : Store)
    (r : EStateM.Result Failure Store Value) : Prop :=
  Settled r ∧ ∃ enough, ∀ depth, enough ≤ depth → evaluate disk depth task s = r

section

variable {disk : Disk} {task : Task} {s : Store} {r : EStateM.Result Failure Store Value}

/-- A run that has an answer shows how the evaluation ends. -/
theorem Evaluates.of_run {steps room : Nat} (h : run disk steps room [] task s = r)
    (hr : Settled r) : Evaluates disk task s r := by
  refine ⟨hr, steps + room, fun steps' room' hsteps hroom ↦ ?_⟩
  have hmono := run_mono disk (Nat.le_of_add_right_le hsteps) (Nat.le_of_add_left_le hroom) [] task
  rw [hmono.eq_of_settled (h ▸ hr), h]

/-- An answer at some depth shows how the evaluation ends. -/
theorem Direct.Evaluates.of_evaluate {depth : Nat} (h : evaluate disk depth task s = r)
    (hr : Settled r) : Direct.Evaluates disk task s r := by
  refine ⟨hr, depth, fun depth' hdepth ↦ ?_⟩
  rw [(evaluate_mono disk hdepth task).eq_of_settled (h ▸ hr), h]

end

/-- **Evaluation in steps ends exactly where evaluation in direct style does**, with the same value
or the same failure, and in the same store: the frames, the atoms and what was written are the
same. -/
theorem evaluates_iff_direct (disk : Disk) (task : Task) (s : Store)
    (r : EStateM.Result Failure Store Value) :
    Evaluates disk task s r ↔ Direct.Evaluates disk task s r := by
  constructor
  · rintro ⟨hr, n, h⟩
    have hn : run disk n n [] task s = r := h n n (Nat.le_refl n) (Nat.le_refl n)
    have href := run_refines_direct disk (Nat.le_refl (n + n)) task
    exact .of_evaluate ((href.eq_of_settled (hn ▸ hr)).trans hn) hr
  · rintro ⟨hr, n, h⟩
    have hn : Direct.evaluate disk n task s = r := h n (Nat.le_refl n)
    have href := direct_refines_run disk (Nat.le_refl _) (Nat.le_refl n) task
    exact .of_run ((href.eq_of_settled (hn ▸ hr)).trans hn) hr

end Lisplet
