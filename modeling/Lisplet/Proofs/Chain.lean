import Lisplet.Proofs.Overflow
import Lisplet.Proofs.Handling
import Mathlib.Logic.Relation

/-!
# Tail calls take no room

A loop is written as a call in tail position.  What such a call takes is steps and no room: the step
hands on the body of the function, and the run goes on with it in the room in which it started.

To say so, the room is held fixed and only steps are granted freely.  `Reaches x s r` says what a
computation ends in with enough steps; that it ran out of room is then an answer like any other, and
more steps do not change it (`Patient`).  What a run goes through is a chain of moments (`Moment`):
a task, the store, and the frames where code is still awaited.  One moment leads to the next by one
step (`Turn`), and which forms hand on what is listed in `TailCall`.

All moments of a chain end alike (`Turn.ends_iff`), so whatever overflows in a chain is the step of
some moment of it, started in the room of the first one (`overflows_iff`).
-/

set_option autoImplicit false

namespace Lisplet

variable {α β : Type} {disk : Disk} {room : Nat} {s s₁ : Store}

/-! ## Laws for a fixed number of steps or a fixed room -/

/-- The law that asks for nothing, and for which running out of steps is no answer. -/
def Law.sameRoom : Law := { Law.free with roomy := False }

/-- The law that asks for nothing, and for which running out of room is no answer. -/
def Law.sameSteps : Law := { Law.free with lax := False, roomy := True }

theorem Law.holds_sameRoom (s : Store) : Law.sameRoom.Holds s :=
  .of_good trivial (good_free s)

theorem Law.holds_sameSteps (s : Store) : Law.sameSteps.Holds s :=
  .of_good trivial (good_free s)

/-- A computation has ended, unless it ran out of steps. -/
def Ended : EStateM.Result Failure Store α → Prop
  | .error .exhausted _ => False
  | _ => True

theorem Ended.error {e : Failure} {s s' : Store}
    (h : Ended (.error e s : EStateM.Result Failure Store α)) :
    Ended (.error e s' : EStateM.Result Failure Store β) := by
  cases e with
  | exhausted => exact h
  | overflow | error | thrown | unread | crashed => trivial

theorem Law.answers_sameRoom {r : EStateM.Result Failure Store α} (h : Ended r) :
    Law.sameRoom.Answers r := by
  match r, h with
  | .error .overflow _, _ => exact not_false
  | .ok _ _, _ | .error (.error _ _) _, _ | .error (.thrown _) _, _ | .error (.unread _) _, _
  | .error (.crashed _) _, _ => trivial

/-- More steps change nothing about a run that has ended, and no more do they in a step. -/
theorem run_agree_sameRoom (disk : Disk) (room : Nat) {m n : Nat} (hmn : m ≤ n)
    (sites : List FrameId) (t : Task) (s : Store) :
    Law.sameRoom.Agree s (run disk m room sites t) (run disk n room sites t) fun s₁ v ↦
      Law.sameRoom.Good s₁ v ∧ True := by
  rw [← runWatched_idle .overflow, ← runWatched_idle .overflow]
  exact Law.run_agree (.idle fun _ ↦ trivial) Failure.isFinal_overflow disk hmn (Nat.le_refl room)
    (fun hlax ↦ (hlax trivial).elim) (fun _ ↦ rfl) (fun _ _ ↦ trivial) (Law.admits_free s t)

/-- A run that has run out of steps would have done so in more room. -/
theorem exhausted_of_room_le {steps room' : Nat} {sites : List FrameId} {t : Task} {s' : Store}
    (hroom : room ≤ room') (h : run disk steps room sites t s = .error .exhausted s') :
    run disk steps room' sites t s = .error .exhausted s' := by
  rw [← runWatched_idle .overflow] at h ⊢
  have hagree : Law.sameSteps.Agree s (runWatched .idle .overflow disk steps room sites t)
      (runWatched .idle .overflow disk steps room' sites t) _ :=
    Law.run_agree (.idle fun _ ↦ trivial) Failure.isFinal_overflow disk (Nat.le_refl steps) hroom
      (fun _ ↦ rfl) (fun hroomy ↦ (hroomy trivial).elim) (fun _ _ ↦ trivial) (Law.admits_free s t)
  have hsame := (hagree s (.refl s) (Law.holds_sameSteps s)).2
  rw [h] at hsame
  exact hsame not_false

/-! ## What is reached with enough steps -/

/-- **With enough steps** a computation ends in `r`. -/
def Reaches (x : Nat → Eval α) (s : Store) (r : EStateM.Result Failure Store α) : Prop :=
  Ended r ∧ ∃ enough, ∀ steps, enough ≤ steps → x steps s = r

/-- More steps change nothing about a computation that has ended. -/
def Patient (x : Nat → Eval α) : Prop :=
  ∀ ⦃m n : Nat⦄, m ≤ n → ∀ s, Ended (x m s) → x n s = x m s

section

variable {x : Nat → Eval α} {f : Nat → α → Eval β} {a : α} {e : Failure}
  {r r' : EStateM.Result Failure Store α} {q : EStateM.Result Failure Store β}

theorem Patient.reaches (hx : Patient x) {steps : Nat} (h : x steps s = r) (hr : Ended r) :
    Reaches x s r :=
  ⟨hr, steps, fun _ hsteps ↦ (hx hsteps s (h ▸ hr)).trans h⟩

theorem Reaches.unique (h : Reaches x s r) (h' : Reaches x s r') : r = r' := by
  obtain ⟨-, m, hm⟩ := h
  obtain ⟨-, n, hn⟩ := h'
  exact (hm (max m n) (Nat.le_max_left m n)).symm.trans (hn (max m n) (Nat.le_max_right m n))

theorem reaches_of_forall (hr : Ended r) (h : ∀ steps, x steps s = r) : Reaches x s r :=
  ⟨hr, 0, fun steps _ ↦ h steps⟩

theorem reaches_pure (a : α) : Reaches (fun _ ↦ pure a) s (.ok a s) :=
  reaches_of_forall trivial fun _ ↦ rfl

/-- What has been reached is over: what comes behind it starts from there. -/
theorem reaches_bind_of_ok (hx : Reaches x s (.ok a s₁)) :
    Reaches (fun n ↦ x n >>= f n) s q ↔ Reaches (fun n ↦ f n a) s₁ q := by
  obtain ⟨-, m, hm⟩ := hx
  have heq (n : Nat) (hn : m ≤ n) : (x n >>= f n) s = f n a s₁ := by
    simp only [Bind.bind, EStateM.bind, hm n hn]
  constructor
  · rintro ⟨hq, k, hk⟩
    refine ⟨hq, max m k, fun n hn ↦ ?_⟩
    exact (heq n (Nat.le_trans (Nat.le_max_left m k) hn)).symm.trans
      (hk n (Nat.le_trans (Nat.le_max_right m k) hn))
  · rintro ⟨hq, k, hk⟩
    refine ⟨hq, max m k, fun n hn ↦ ?_⟩
    exact (heq n (Nat.le_trans (Nat.le_max_left m k) hn)).trans
      (hk n (Nat.le_trans (Nat.le_max_right m k) hn))

/-- Nothing comes behind a failure. -/
theorem reaches_bind_of_error (hx : Reaches x s (.error e s₁)) :
    Reaches (fun n ↦ x n >>= f n) s (.error e s₁) := by
  obtain ⟨he, m, hm⟩ := hx
  refine ⟨he.error, m, fun n hn ↦ ?_⟩
  simp only [Bind.bind, EStateM.bind, hm n hn]

/-- What is done first has an answer, and then so does the rest. -/
theorem reaches_bind (hx : Reaches x s (.ok a s₁)) (hf : Reaches (fun n ↦ f n a) s₁ q) :
    Reaches (fun n ↦ x n >>= f n) s q :=
  (reaches_bind_of_ok hx).2 hf

end

theorem patient_run (disk : Disk) (room : Nat) (sites : List FrameId) (t : Task) :
    Patient fun n ↦ run disk n room sites t := fun _ _ hmn s hs ↦
  (run_agree_sameRoom disk room hmn sites t s s (.refl s) (Law.holds_sameRoom s)).2
    (Law.answers_sameRoom hs)

/-- The engine of a step of a run. -/
def Engine.stepping (disk : Disk) (steps room : Nat) : Engine :=
  ⟨room, disk, nested (fun room t ↦ Lisplet.run disk steps room [] t) room⟩

/-- **Inside a step** that has so much room, a computation ends in `r`. -/
def Inside (disk : Disk) (room : Nat) (x : Engine → Eval α) (s : Store)
    (r : EStateM.Result Failure Store α) : Prop :=
  Reaches (fun n ↦ x (.stepping disk n room)) s r

theorem patient_step (disk : Disk) (room : Nat) (t : Task) :
    Patient fun n ↦ t.step (.stepping disk n room) := by
  intro m n hmn s hs
  -- Both engines evaluate in the same room, the second one with more steps.
  have hengines : Law.sameRoom.Engines (.stepping disk m room) (.stepping disk n room) := by
    refine Law.engines_nested (Nat.le_refl room) (fun _ ↦ rfl) fun k k' hk hexact s₁ t₁ _ ↦ ?_
    rw [hexact not_false]
    exact run_agree_sameRoom disk k hmn [] t₁ s₁
  have hadmits : Law.sameRoom.Admits s t := Law.admits_free s t
  have hstep := hengines.step hadmits (Law.fits_free t)
  exact (hstep s (.refl s) (Law.holds_sameRoom s)).2 (Law.answers_sameRoom hs)

theorem ended_caught {q : EStateM.Result Failure Store α} (h : Ended q) : Ended (caught q) := by
  match q, h with
  | .ok a s, _ | .error (.thrown payload) s, _ | .error (.error _ _) s, _
  | .error (.unread _) s, _ | .error (.crashed _) s, _ | .error .overflow s, _ => trivial

/-- What is thrown is intercepted. -/
theorem Reaches.caught {x : Nat → Eval α} {q : EStateM.Result Failure Store α}
    (h : Reaches x s q) : Reaches (fun n ↦ Eval.catchThrown (x n)) s (Lisplet.caught q) := by
  obtain ⟨hq, k, hk⟩ := h
  refine ⟨ended_caught hq, k, fun n hn ↦ ?_⟩
  rw [← hk n hn]
  exact catchThrown_apply (x n) s

/-- A value that fits into the room is printed without effect. -/
theorem inside_print {style : PrintStyle} {v : Value} {text : String}
    (h : v.print s.atoms style room = some text) :
    Inside disk room (fun eng ↦ discard (eng.print style "" [v])) s (.ok () s) := by
  refine reaches_of_forall trivial fun n ↦ ?_
  simp only [discard_eq_bind, Engine.print, bind_assoc, get_bind_apply, Engine.stepping,
    Value.printAll_singleton, h]
  rfl

/-! ## Moments -/

/-- A moment of a run. -/
structure Moment where
  /-- The frames where code is still awaited. -/
  sites : List FrameId
  task : Task
  store : Store

namespace Moment

variable {m m' : Moment} {r : EStateM.Result Failure Store Value}
  {q : EStateM.Result Failure Store Step}

/-- The moment at which the evaluation of a form starts. -/
def start (form : Value) (scope : FrameId) (s : Store) : Moment := ⟨[], .eval form scope, s⟩

/-- From the moment on, the run ends in `r`. -/
def Ends (disk : Disk) (room : Nat) (m : Moment) (r : EStateM.Result Failure Store Value) : Prop :=
  Reaches (fun n ↦ run disk n room m.sites m.task) m.store r

/-- The step of the moment ends in `q`. -/
def Steps (disk : Disk) (room : Nat) (m : Moment) (q : EStateM.Result Failure Store Step) : Prop :=
  Inside disk room (fun eng ↦ m.task.step eng) m.store q

/-- From the moment on, the run runs out of room. -/
def Overflows (disk : Disk) (room : Nat) (m : Moment) : Prop :=
  ∃ s, m.Ends disk room (.error .overflow s)

/-- The step of the moment runs out of room. -/
def StepOverflows (disk : Disk) (room : Nat) (m : Moment) : Prop :=
  ∃ s, m.Steps disk room (.error .overflow s)

/-- The moment that a step leads to, unless the run is over. -/
def next? (m : Moment) : Step → Store → Option Moment
  | .next t, s => some ⟨m.sites, t, s⟩
  | .code t site, s => some ⟨site :: m.sites, t, s⟩
  | .done v, s =>
    match m.sites with
    | [] => none
    | site :: sites => some ⟨sites, .eval v site, s⟩

theorem proceed_apply_of_next? {st : Step} (h : m.next? st s = some m') (n : Nat) :
    proceed disk n room m.sites st s = run disk n room m'.sites m'.task m'.store := by
  cases st with
  | next | code =>
    obtain rfl := Option.some.inj h
    rfl
  | done v =>
    rw [next?] at h
    split at h
    · cases h
    · rename_i site sites hsites
      obtain rfl := Option.some.inj h
      rw [hsites]
      rfl

theorem eq_done_of_next? {st : Step} (h : m.next? st s = none) :
    ∃ v, st = .done v ∧ m.sites = [] := by
  cases st with
  | next | code => cases h
  | done v =>
    rw [next?] at h
    split at h
    · exact ⟨v, rfl, ‹_›⟩
    · cases h

/-- A run takes a step and goes on. -/
theorem ends_iff : m.Ends disk room r ↔
    Reaches (fun n ↦ m.task.step (.stepping disk n room) >>= proceed disk n room m.sites) m.store
      r := by
  have hsucc (n : Nat) : run disk (n + 1) room m.sites m.task m.store =
      (m.task.step (.stepping disk n room) >>= proceed disk n room m.sites) m.store := by
    rw [run_succ]
    rfl
  constructor
  · rintro ⟨hr, k, hk⟩
    exact ⟨hr, k, fun n hn ↦ (hsucc n).symm.trans (hk (n + 1) (Nat.le_succ_of_le hn))⟩
  · rintro ⟨hr, k, hk⟩
    refine ⟨hr, k + 1, fun n hn ↦ ?_⟩
    obtain ⟨n, rfl⟩ := Nat.exists_eq_add_one.2 (Nat.lt_of_lt_of_le k.succ_pos hn)
    exact (hsucc n).trans (hk n (Nat.le_of_succ_le_succ hn))

theorem Steps.ends_error {e : Failure} (h : m.Steps disk room (.error e s)) :
    m.Ends disk room (.error e s) :=
  ends_iff.2 (reaches_bind_of_error h)

/-- A run is over when a step comes to a value and no code is awaited. -/
theorem Steps.ends_ok {t : Task} {v : Value} (h : Steps disk room ⟨[], t, s⟩ (.ok (.done v) s₁)) :
    Ends disk room ⟨[], t, s⟩ (.ok v s₁) :=
  ends_iff.2 (reaches_bind h (reaches_pure v))

theorem Ends.not_overflows {v : Value} (h : m.Ends disk room (.ok v s)) :
    ¬m.Overflows disk room := by
  rintro ⟨s', hover⟩
  cases h.unique hover

/-- What runs out of room does so in less. -/
theorem Overflows.mono {room' : Nat} (h : m.Overflows disk room') (hroom : room ≤ room') :
    m.Overflows disk room := by
  obtain ⟨s', -, n, hn⟩ := h
  have hover : run disk n room' m.sites m.task m.store = .error .overflow s' :=
    hn n (Nat.le_refl n)
  -- In less room the run neither has an answer nor lacks steps: in more room it would, too.
  rcases settled_cases (run disk n room m.sites m.task m.store) with
    hsettled | ⟨s₁, hrun⟩ | ⟨s₁, hrun⟩
  · have hmono := run_mono disk (Nat.le_refl n) hroom m.sites m.task
    rw [← hmono.eq_of_settled hsettled, hover] at hsettled
    exact hsettled.elim
  · exact ⟨s₁, (patient_run disk room m.sites m.task).reaches hrun trivial⟩
  · have hmore := exhausted_of_room_le hroom hrun
    rw [hover] at hmore
    cases hmore

/-! ## Chains -/

/-- **One moment leads to the next**: the step of the first one hands on the task of the second, or
its value is code and goes to the frame where it is awaited. -/
def Turn (disk : Disk) (room : Nat) (m m' : Moment) : Prop :=
  ∃ st s, m.Steps disk room (.ok st s) ∧ m.next? st s = some m'

theorem Turn.next {t : Task} (h : m.Steps disk room (.ok (.next t) s)) :
    m.Turn disk room ⟨m.sites, t, s⟩ :=
  ⟨_, _, h, rfl⟩

theorem Turn.code {t : Task} {site : FrameId} (h : m.Steps disk room (.ok (.code t site) s)) :
    m.Turn disk room ⟨site :: m.sites, t, s⟩ :=
  ⟨_, _, h, rfl⟩

theorem Turn.value {t : Task} {v : Value} {site : FrameId} {sites : List FrameId}
    (h : Steps disk room ⟨site :: sites, t, s⟩ (.ok (.done v) s₁)) :
    Turn disk room ⟨site :: sites, t, s⟩ ⟨sites, .eval v site, s₁⟩ :=
  ⟨_, _, h, rfl⟩

/-- One moment leads to another in any number of turns. -/
def Chain (disk : Disk) (room : Nat) : Moment → Moment → Prop :=
  Relation.ReflTransGen (Turn disk room)

/-- **A turn takes no room**: the run ends as from the next moment on. -/
theorem Turn.ends_iff (h : Turn disk room m m') : m.Ends disk room r ↔ m'.Ends disk room r := by
  obtain ⟨st, s, hstep, hnext⟩ := h
  refine Moment.ends_iff.trans ((reaches_bind_of_ok hstep).trans ?_)
  have hproceed (n : Nat) : proceed disk n room m.sites st s =
      run disk n room m'.sites m'.task m'.store := proceed_apply_of_next? hnext n
  simp only [Reaches, Ends, hproceed]

theorem Turn.overflows_iff (h : Turn disk room m m') :
    m.Overflows disk room ↔ m'.Overflows disk room :=
  exists_congr fun _ ↦ h.ends_iff

theorem Chain.ends_iff (h : Chain disk room m m') : m.Ends disk room r ↔ m'.Ends disk room r := by
  induction h with
  | refl => exact Iff.rfl
  | tail _ hturn ih => exact ih.trans hturn.ends_iff

theorem Chain.overflows_iff (h : Chain disk room m m') :
    m.Overflows disk room ↔ m'.Overflows disk room :=
  exists_congr fun _ ↦ h.ends_iff

/-- A run that overflows goes through a moment whose step does. -/
theorem exists_chain_of_run_eq_overflow {n : Nat} {s' : Store}
    (h : run disk n room m.sites m.task m.store = .error .overflow s') :
    ∃ m', Chain disk room m m' ∧ m'.StepOverflows disk room := by
  -- The first step overflows, or it leads to a moment whose run does with one step less.
  induction n generalizing m with
  | zero => cases h
  | succ n ih =>
    rw [run_succ] at h
    have hpatient := patient_step disk room m.task
    cases hstep : m.task.step (.stepping disk n room) m.store with
    | error e s₁ =>
      have hbind : (m.task.step (.stepping disk n room) >>= proceed disk n room m.sites) m.store =
          .error e s₁ := by
        simp only [Bind.bind, EStateM.bind, hstep]
      obtain ⟨rfl, rfl⟩ : e = .overflow ∧ s₁ = s' := by
        simpa using hbind.symm.trans h
      exact ⟨m, .refl, s₁, hpatient.reaches hstep trivial⟩
    | ok st s₁ =>
      have hbind : (m.task.step (.stepping disk n room) >>= proceed disk n room m.sites) m.store =
          proceed disk n room m.sites st s₁ := by
        simp only [Bind.bind, EStateM.bind, hstep]
      have hproceed := hbind.symm.trans h
      cases hnext : m.next? st s₁ with
      | none =>
        obtain ⟨v, rfl, hsites⟩ := eq_done_of_next? hnext
        rw [hsites] at hproceed
        cases hproceed
      | some m₁ =>
        rw [proceed_apply_of_next? hnext] at hproceed
        obtain ⟨m', hchain, hover⟩ := ih hproceed
        exact ⟨m', .head ⟨st, s₁, hpatient.reaches hstep trivial, hnext⟩ hchain, hover⟩

/-- **A run overflows exactly if the step of some moment on the way does**, started in the room of
the run. -/
theorem overflows_iff :
    m.Overflows disk room ↔ ∃ m', Chain disk room m m' ∧ m'.StepOverflows disk room := by
  constructor
  · rintro ⟨s', -, n, hn⟩
    exact exists_chain_of_run_eq_overflow (hn n (Nat.le_refl n))
  · rintro ⟨m', hchain, s', hstep⟩
    exact ⟨s', hchain.ends_iff.2 hstep.ends_error⟩

end Moment

/-! ## What is handed on -/

section

variable (disk : Disk) (room : Nat)

/-- **The forms that hand on a task**, each with what its step evaluates first, and where code is
evaluated that a macro has come to. -/
inductive TailCall : Moment → Moment → Prop
  /-- The body of a closure that is called. -/
  | body {l : Option Label} {head fn : Value} {args vs : List Value} {c : Closure Value}
      {scope inner : FrameId} {sites : List FrameId} {s s₁ s₂ s₃ : Store}
      (hhead : SpecialForm.ofHead? head = none)
      (hfn : Inside disk room (fun eng ↦ eng.eval scope head) s (.ok fn s₁))
      (hc : fn.bare = .fn c) (hkind : c.isMacro = false)
      (hargs : Inside disk room (fun eng ↦ args.mapM (eng.eval scope)) s₁ (.ok vs s₂))
      (henter : Inside disk room (fun eng ↦ eng.enter c vs) s₂ (.ok inner s₃)) :
      TailCall ⟨sites, .eval (.list l (head :: args)) scope, s⟩ ⟨sites, .eval c.body inner, s₃⟩
  /-- The body of a macro that is called, whose code is then awaited. -/
  | macroBody {l : Option Label} {head fn : Value} {args : List Value} {c : Closure Value}
      {scope inner : FrameId} {sites : List FrameId} {s s₁ s₂ : Store}
      (hhead : SpecialForm.ofHead? head = none)
      (hfn : Inside disk room (fun eng ↦ eng.eval scope head) s (.ok fn s₁))
      (hc : fn.bare = .fn c) (hkind : c.isMacro = true)
      (henter : Inside disk room (fun eng ↦ eng.enter c args) s₁ (.ok inner s₂)) :
      TailCall ⟨sites, .eval (.list l (head :: args)) scope, s⟩
        ⟨scope :: sites, .eval c.body inner, s₂⟩
  /-- The code that a macro has come to, where the macro was called. -/
  | expansion {t : Task} {code : Value} {site : FrameId} {sites : List FrameId} {s s₁ : Store}
      (hcode : Inside disk room (fun eng ↦ t.step eng) s (.ok (.done code) s₁)) :
      TailCall ⟨site :: sites, t, s⟩ ⟨sites, .eval code site, s₁⟩
  /-- The first branch. -/
  | positive {l : Option Label} {condition positive v : Value} {negative : List Value}
      {scope : FrameId} {sites : List FrameId} {s s₁ : Store}
      (hcondition : Inside disk room (fun eng ↦ eng.eval scope condition) s (.ok v s₁))
      (hv : v.isTruthy = true) (hlength : negative.length ≤ 1) :
      TailCall ⟨sites, .eval (.list l (.sym "if" :: condition :: positive :: negative)) scope, s⟩
        ⟨sites, .eval positive scope, s₁⟩
  /-- The second branch. -/
  | negative {l : Option Label} {condition positive negative v : Value}
      {scope : FrameId} {sites : List FrameId} {s s₁ : Store}
      (hcondition : Inside disk room (fun eng ↦ eng.eval scope condition) s (.ok v s₁))
      (hv : v.isTruthy = false) :
      TailCall ⟨sites, .eval (.list l [.sym "if", condition, positive, negative]) scope, s⟩
        ⟨sites, .eval negative scope, s₁⟩
  /-- The last form of a sequence. -/
  | last {l : Option Label} {init : List Value} {last : Value} {scope : FrameId}
      {sites : List FrameId} {s s₁ : Store}
      (hinit : Inside disk room (fun eng ↦
        init.forM fun form ↦ discard (eng.eval scope form)) s (.ok () s₁)) :
      TailCall ⟨sites, .eval (.list l (.sym "do" :: (init ++ [last]))) scope, s⟩
        ⟨sites, .eval last scope, s₁⟩
  /-- The body behind local bindings. -/
  | letBody {l : Option Label} {bindings body : Value} {pairs : List (Value × Value)}
      {scope : FrameId} {sites : List FrameId} {s s₁ : Store}
      (hpairs : Direct.bindings? bindings = some pairs)
      (hbind : Inside disk room (fun eng ↦
        pairs.forM (SpecialForm.bindLocal eng s.frames.size))
        (s.addFrame (some scope) .empty).2 (.ok () s₁)) :
      TailCall ⟨sites, .eval (.list l [.sym "let*", bindings, body]) scope, s⟩
        ⟨sites, .eval body s.frames.size, s₁⟩
  /-- The handler of what the body has thrown. -/
  | handler {l lc : Option Label} {body handler payload : Value} {name text : String}
      {scope : FrameId} {sites : List FrameId} {s s₁ : Store}
      (hbody : Inside disk room (fun eng ↦ eng.eval scope body) s
        (.error (.thrown payload) s₁))
      (hprint : payload.print s₁.atoms .readable room = some text) :
      TailCall ⟨sites, .eval (attemptOf l body (catching lc name handler)) scope, s⟩
        ⟨sites, .eval handler s₁.frames.size,
          (s₁.addFrame (some scope) (.ofList [(name, payload)])).2⟩
  /-- The code of a template. -/
  | template {l : Option Label} {form code : Value} {scope : FrameId} {sites : List FrameId}
      {s s₁ : Store}
      (hcode : Inside disk room (fun eng ↦ SpecialForm.codeOf eng form) s
        (.ok code s₁)) :
      TailCall ⟨sites, .eval (.list l [.sym "quasiquote", form]) scope, s⟩
        ⟨sites, .eval code scope, s₁⟩

end

namespace TailCall

variable {m m' : Moment} {l : Option Label} {scope : FrameId}

theorem step_combination {head : Value} (hhead : SpecialForm.ofHead? head = none)
    (args : List Value) (eng : Engine) :
    (Task.eval (.list l (head :: args)) scope).step eng =
      Task.stepCombination eng scope head args := by
  rw [Task.step, Task.stepEval, hhead]

/-- A special form hands on what its rule does. -/
theorem turn_special (f : SpecialForm) {parts : List Value} {t : Task} {sites : List FrameId}
    (h : Inside disk room (fun eng ↦ f.step eng scope parts) s (.ok (.next t) s₁)) :
    Moment.Turn disk room ⟨sites, .eval (.list l (.sym f.name :: parts)) scope, s⟩
      ⟨sites, t, s₁⟩ := by
  refine .next ?_
  have hstep (eng : Engine) : (Task.eval (.list l (.sym f.name :: parts)) scope).step eng =
      f.step eng scope parts := by
    rw [Task.step, Task.stepEval, SpecialForm.ofHead?, SpecialForm.ofName?_name]
  simp only [Moment.Steps, hstep]
  exact h

theorem stepChoice_of_truthy {condition positive v : Value} {negative : List Value}
    (hcondition : Inside disk room (fun eng ↦ eng.eval scope condition) s (.ok v s₁))
    (hv : v.isTruthy = true) (hlength : negative.length ≤ 1) :
    Inside disk room
      (fun eng ↦ SpecialForm.stepChoice eng scope (condition :: positive :: negative)) s
      (.ok (.next (.eval positive scope)) s₁) := by
  match negative, hlength with
  | [], _ | [_], _ =>
    simp only [SpecialForm.stepChoice, pure_bind]
    refine reaches_bind hcondition ?_
    simp only [hv, if_true]
    exact reaches_pure _

/-- **Each of them takes a turn**: what is handed on goes on in the same room. -/
theorem turn (h : TailCall disk room m m') : m.Turn disk room m' := by
  cases h with
  | body hhead hfn hc hkind hargs henter =>
    refine .next ?_
    simp only [Moment.Steps, step_combination hhead, Task.stepCombination]
    refine reaches_bind hfn ?_
    simp only [hc, hkind, Bool.false_eq_true, if_false]
    exact reaches_bind hargs (reaches_bind henter (reaches_pure _))
  | macroBody hhead hfn hc hkind henter =>
    refine .code ?_
    simp only [Moment.Steps, step_combination hhead, Task.stepCombination]
    refine reaches_bind hfn ?_
    simp only [hc, hkind, if_true]
    exact reaches_bind henter (reaches_pure _)
  | expansion hcode => exact .value hcode
  | positive hcondition hv hlength =>
    exact turn_special .choice (stepChoice_of_truthy hcondition hv hlength)
  | negative hcondition hv =>
    refine turn_special .choice ?_
    simp only [SpecialForm.step, SpecialForm.stepChoice, pure_bind]
    refine reaches_bind hcondition ?_
    simp only [hv, Bool.false_eq_true, if_false]
    exact reaches_pure _
  | last hinit =>
    refine turn_special .sequence ?_
    simp only [SpecialForm.step, SpecialForm.stepSequence, List.getLast?_concat,
      List.dropLast_concat]
    exact reaches_bind hinit (reaches_pure _)
  | letBody hpairs hbind =>
    refine turn_special .letIn ?_
    simp only [SpecialForm.step, Direct.stepLet_eq, hpairs]
    refine reaches_bind (reaches_of_forall trivial fun _ ↦ rfl) ?_
    exact reaches_bind hbind (reaches_pure _)
  | handler hbody hprint =>
    refine turn_special .attempt ?_
    simp only [SpecialForm.step, SpecialForm.stepAttempt]
    refine reaches_bind hbody.caught ?_
    simp only [SpecialForm.handle, catchClause?_catching]
    refine reaches_bind (inside_print hprint) ?_
    refine reaches_bind (reaches_of_forall trivial fun _ ↦ rfl) ?_
    exact reaches_pure _
  | template hcode =>
    refine turn_special .template ?_
    simp only [SpecialForm.step, SpecialForm.stepOnly]
    exact reaches_bind hcode (reaches_pure _)

end TailCall

end Lisplet
