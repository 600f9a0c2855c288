import Lisplet.Eval.Run

/-!
# Runs under watch

What an evaluation ends in does not show what it went through.  To speak about that, `runWatched`
makes the same run under a `Watch`, which looks at every task that comes up, with the store and the
frames where code is still awaited, and at every value that a step comes to, in nested evaluations
too.  At the first moment that is not as it should be the run ends in an alarm.

An alarm has to be a failure that no code can intercept (`Failure.IsFinal`).  If a run under watch
ends like the unwatched run *whatever the alarm*, no alarm was set off, and so every moment was as
it should be.
-/

set_option autoImplicit false

namespace Lisplet

/-! ## One step of a run -/

/-- Evaluation one level further down, where there is one unit of room less. -/
def nested (evaluate : Nat → Task → Eval Value) : (room : Nat) → Task → Eval Value
  | 0, _ => throw .overflow
  | room + 1, task => evaluate room task

/-- How a run goes on from what a step came to. -/
def proceed (disk : Disk) (steps room : Nat) (sites : List FrameId) : Step → Eval Value
  | .next task => run disk steps room sites task
  | .code task site => run disk steps room (site :: sites) task
  | .done v =>
    match sites with
    | [] => return v
    | site :: sites => run disk steps room sites (.eval v site)

/-- A run takes a step and goes on. -/
theorem run_succ (disk : Disk) (steps room : Nat) (sites : List FrameId) (task : Task) :
    run disk (steps + 1) room sites task =
      task.step ⟨room, disk, nested (fun room t ↦ run disk steps room [] t) room⟩ >>=
        proceed disk steps room sites := by
  rw [run]
  refine congr (congrArg Bind.bind ?_) (funext fun st ↦ ?_)
  · refine congrArg (fun below ↦ task.step ⟨room, disk, below⟩) (funext fun t ↦ ?_)
    cases room <;> rfl
  · cases st <;> rfl

/-! ## Watches -/

/-- A failure that no code can intercept. -/
def Failure.IsFinal : Failure → Prop
  | .thrown _ => False
  | _ => True

theorem Failure.isFinal_overflow : Failure.IsFinal .overflow :=
  trivial

/-- What is looked at while an evaluation runs. -/
structure Watch where
  /-- How the store, the frames where code is awaited and the task have to be before a step. -/
  task : Store → List FrameId → Task → Prop
  /-- How the store, the frames where code is awaited and the value have to be after a step that
  comes to a value. -/
  value : Store → List FrameId → Value → Prop

/-- The watch that lets everything pass. -/
def Watch.idle : Watch := ⟨fun _ _ _ ↦ True, fun _ _ _ ↦ True⟩

open Classical in
/-- Ends in an alarm unless the store is as it should be. -/
noncomputable def Eval.require (holds : Store → Prop) (alarm : Failure) : Eval Unit := fun s ↦
  if holds s then .ok () s else .error alarm s

/-- What always holds sets off no alarm. -/
theorem Eval.require_eq_pure {holds : Store → Prop} (h : ∀ s, holds s) (alarm : Failure) :
    Eval.require holds alarm = pure () := by
  funext s
  exact if_pos (h s)

/-- A run that ends in an alarm as soon as a moment is not as it should be. -/
noncomputable def runWatched (w : Watch) (alarm : Failure) (disk : Disk) :
    (steps room : Nat) → (sites : List FrameId) → Task → Eval Value
  | 0, _, _, _ => throw .exhausted
  | steps + 1, room, sites, task => do
    Eval.require (fun s ↦ w.task s sites task) alarm
    let below := nested (fun room t ↦ runWatched w alarm disk steps room [] t) room
    match ← task.step ⟨room, disk, below⟩ with
    | .next task => runWatched w alarm disk steps room sites task
    | .code task site => runWatched w alarm disk steps room (site :: sites) task
    | .done v =>
      Eval.require (fun s ↦ w.value s sites v) alarm
      match sites with
      | [] => return v
      | site :: sites => runWatched w alarm disk steps room sites (.eval v site)

/-- **Under a watch that lets everything pass a run is as it is without.** -/
theorem runWatched_idle (alarm : Failure) (disk : Disk) (steps room : Nat) (sites : List FrameId)
    (task : Task) : runWatched .idle alarm disk steps room sites task =
      run disk steps room sites task := by
  induction steps generalizing room sites task with
  | zero => rfl
  | succ steps ih =>
    have hbelow : (fun room t ↦ runWatched .idle alarm disk steps room [] t) =
        fun room t ↦ run disk steps room [] t := by
      funext room t
      exact ih room [] t
    rw [runWatched, run_succ]
    dsimp only
    rw [hbelow]
    show (Eval.require (fun _ ↦ True) alarm >>= _) = _
    rw [Eval.require_eq_pure fun _ ↦ trivial, pure_bind]
    refine congrArg _ (funext fun st ↦ ?_)
    cases st with
    | next task => exact ih room sites task
    | code task site => exact ih room (site :: sites) task
    | done v =>
      show (Eval.require (fun _ ↦ True) alarm >>= _) = _
      rw [Eval.require_eq_pure fun _ ↦ trivial, pure_bind]
      cases sites with
      | nil => rfl
      | cons site sites => exact ih room sites (.eval v site)

end Lisplet
