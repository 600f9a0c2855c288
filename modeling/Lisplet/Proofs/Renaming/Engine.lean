import Lisplet.Proofs.Law
import Lisplet.Proofs.Renaming.Builtin

/-!
# Computations with new serial numbers

A computation hands out serial numbers, so to run it with others is to renumber two things: the
numbers that are already about, and the count from which it goes on.  A `Renumbering` says what
becomes of either.  It can only be kept to if what is handed out on the way is counted off as it is
renumbered (`Renumbering.Counts`).

`R.Tracks f x y` says that `y`, from the renumbered store, ends like `x`, in the renumbered store,
with the same failure renumbered or with the value that `f` gives.  Such statements go through
sequences of computations, so there is one for each part of an engine here.  It is also part of them
that the count never falls.
-/

set_option autoImplicit false

namespace Lisplet

/-- A task with new serial numbers. -/
def Task.rename (ρ : Nat → Nat) : Task → Task
  | .eval form scope => .eval (form.rename ρ) scope
  | .call fn args scope => .call (fn.rename ρ) (args.map (Value.rename ρ)) scope
  | .expand form scope => .expand (form.rename ρ) scope

/-- **New serial numbers for old ones**, and where the count of them is to stand. -/
structure Renumbering where
  /-- The new number for a number. -/
  serial : Nat → Nat
  /-- The new count for a count of numbers that have been handed out. -/
  count : Nat → Nat
  injective : Function.Injective serial

namespace Renumbering

variable (R : Renumbering) {α β γ δ : Type}

/-- A store with new serial numbers. -/
def store (s : Store) : Store := s.rename R.serial (R.count s.serials)

/-- The end of a computation with new serial numbers, its value being changed by `f`. -/
def ending (f : α → β) :
    EStateM.Result Failure Store α → EStateM.Result Failure Store β
  | .ok a s => .ok (f a) (R.store s)
  | .error e s => .error (e.rename R.serial) (R.store s)

/-- What is handed out from one count up to another is counted off with its new numbers. -/
def Counts (m n : Nat) : Prop :=
  ∀ i, m ≤ i → i < n → R.serial i = R.count i ∧ R.count (i + 1) = R.count i + 1

/-- **One computation is the other one with new serial numbers.** -/
def Tracks (f : α → β) (x : Eval α) (y : Eval β) : Prop :=
  ∀ s, s.serials ≤ (finalStore (x s)).serials ∧
    (R.Counts s.serials (finalStore (x s)).serials → y (R.store s) = R.ending f (x s))

variable {R}

@[simp] theorem atoms_store (s : Store) : (R.store s).atoms = s.atoms.rename R.serial := rfl

theorem settled_ending {f : α → β} {r : EStateM.Result Failure Store α} :
    Settled (R.ending f r) ↔ Settled r := by
  rcases r with ⟨a, s⟩ | ⟨_ | _ | _ | _ | _, s⟩ <;> exact Iff.rfl

namespace Counts

variable {l m n : Nat}

theorem left (h : R.Counts l n) (hmn : m ≤ n) : R.Counts l m :=
  fun i hl hm ↦ h i hl (Nat.lt_of_lt_of_le hm hmn)

theorem right (h : R.Counts l n) (hlm : l ≤ m) : R.Counts m n :=
  fun i hm hn ↦ h i (Nat.le_trans hlm hm) hn

end Counts

namespace Tracks

variable {f : α → β} {g : γ → δ} {x : Eval α} {y : Eval β}

theorem pure (a : α) : R.Tracks f (Pure.pure a) (Pure.pure (f a)) :=
  fun _ ↦ ⟨Nat.le_refl _, fun _ ↦ rfl⟩

theorem pure_of_eq {a : α} {b : β} (h : f a = b) : R.Tracks f (Pure.pure a) (Pure.pure b) :=
  h ▸ pure a

theorem throw (e : Failure) :
    R.Tracks f (MonadExcept.throw e) (MonadExcept.throw (e.rename R.serial)) :=
  fun _ ↦ ⟨Nat.le_refl _, fun _ ↦ rfl⟩

theorem get : R.Tracks R.store MonadState.get MonadState.get :=
  fun _ ↦ ⟨Nat.le_refl _, fun _ ↦ rfl⟩

/-- **One computation after the other.** -/
theorem bind {p : α → Eval γ} {q : β → Eval δ} (hxy : R.Tracks f x y)
    (hpq : ∀ a, R.Tracks g (p a) (q (f a))) : R.Tracks g (x >>= p) (y >>= q) := by
  intro s
  obtain ⟨hle, hx⟩ := hxy s
  simp only [Bind.bind, EStateM.bind]
  cases hr : x s with
  | ok a s₁ =>
    rw [hr] at hle hx
    obtain ⟨hle₁, hp⟩ := hpq a s₁
    refine ⟨Nat.le_trans hle hle₁, fun hcounts ↦ ?_⟩
    rw [hx (hcounts.left hle₁)]
    exact hp (hcounts.right hle)
  | error e s₁ =>
    rw [hr] at hle hx
    refine ⟨hle, fun hcounts ↦ ?_⟩
    rw [hx hcounts]
    rfl

theorem modifyGet {p : Store → α × Store} {q : Store → β × Store}
    (hserials : ∀ s, (p s).2.serials = s.serials)
    (h : ∀ s, q (R.store s) = (f (p s).1, R.store (p s).2)) :
    R.Tracks f (MonadStateOf.modifyGet p) (MonadStateOf.modifyGet q) := by
  refine fun s ↦ ⟨Nat.le_of_eq (hserials s).symm, fun _ ↦ ?_⟩
  have hq : (MonadStateOf.modifyGet q : Eval β) (R.store s) =
    .ok (q (R.store s)).1 (q (R.store s)).2 := rfl
  rw [hq, h]
  rfl

/-- A change of the store that gives no result. -/
theorem change {p q : Store → Store} (hserials : ∀ s, (p s).serials = s.serials)
    (h : ∀ s, q (R.store s) = R.store (p s)) : R.Tracks id (modify p) (modify q) :=
  modifyGet hserials fun s ↦ by rw [h]

theorem discard (hxy : R.Tracks f x y) :
    R.Tracks id (Functor.discard x) (Functor.discard y) := by
  rw [discard_eq_bind, discard_eq_bind]
  exact bind hxy fun _ ↦ pure ()

theorem mapM {h : α → γ} {p : α → Eval β} {q : γ → Eval δ} {k : β → δ} {xs : List α}
    (hpq : ∀ x ∈ xs, R.Tracks k (p x) (q (h x))) :
    R.Tracks (List.map k) (xs.mapM p) ((xs.map h).mapM q) := by
  induction xs with
  | nil => exact pure []
  | cons x xs ih =>
    obtain ⟨hx, hxs⟩ := List.forall_mem_cons.1 hpq
    rw [List.map_cons, List.mapM_cons, List.mapM_cons]
    exact bind hx fun b ↦ bind (ih hxs) fun bs ↦ pure (b :: bs)

theorem forM {h : α → γ} {p : α → Eval PUnit} {q : γ → Eval PUnit} {xs : List α}
    (hpq : ∀ x ∈ xs, R.Tracks id (p x) (q (h x))) :
    R.Tracks id (xs.forM p) ((xs.map h).forM q) := by
  induction xs with
  | nil => exact pure _
  | cons x xs ih =>
    obtain ⟨hx, hxs⟩ := List.forall_mem_cons.1 hpq
    exact bind hx fun _ ↦ ih hxs

/-- Intercepting what is thrown. -/
theorem catchThrown (hxy : R.Tracks f x y) :
    R.Tracks (fun r ↦ (r.map f).mapError (Value.rename R.serial)) (Eval.catchThrown x)
      (Eval.catchThrown y) := by
  intro s
  obtain ⟨hle, hx⟩ := hxy s
  rw [Eval.catchThrown, Eval.catchThrown]
  cases hr : x s with
  | ok a s₁ =>
    rw [hr] at hle hx
    exact ⟨hle, fun hcounts ↦ by rw [hx hcounts]; rfl⟩
  | error e s₁ =>
    rw [hr] at hle hx
    cases e <;> exact ⟨hle, fun hcounts ↦ by rw [hx hcounts]; rfl⟩

/-! ## Serial numbers -/

/-- **A number that is handed out is the new number** of what would be handed out. -/
theorem nextSerial : R.Tracks R.serial (MonadStateOf.modifyGet Store.nextSerial)
    (MonadStateOf.modifyGet Store.nextSerial) := by
  intro s
  refine ⟨Nat.le_succ _, fun hcounts ↦ ?_⟩
  obtain ⟨hserial, hcount⟩ := hcounts s.serials (Nat.le_refl _) (Nat.lt_succ_self _)
  have hnext : (MonadStateOf.modifyGet Store.nextSerial : Eval Nat) (R.store s) =
      .ok (R.count s.serials) (s.rename R.serial (R.count s.serials + 1)) := rfl
  rw [hnext, hcount.symm, hserial.symm]
  rfl

theorem newLabel : R.Tracks (Label.rename R.serial) Eval.newLabel Eval.newLabel :=
  bind nextSerial fun n ↦ pure (⟨n, []⟩ : Label)

theorem labelled (v : Value) :
    R.Tracks (Value.rename R.serial) (Eval.labelled v) (Eval.labelled (v.rename R.serial)) := by
  have hkept : R.Tracks (Value.rename R.serial) (Pure.pure v) (Pure.pure (v.rename R.serial)) :=
    pure v
  cases v with
  | list l items =>
    cases l with
    | none =>
      rw [Value.rename_list]
      exact bind newLabel fun l ↦ pure_of_eq (Value.rename_list R.serial (some l) items)
    | some l => simpa [Eval.labelled] using hkept
  | map l d =>
    cases l with
    | none =>
      rw [Value.rename_map]
      exact bind newLabel fun l ↦ pure_of_eq (Value.rename_map R.serial (some l) d)
    | some l => simpa [Eval.labelled] using hkept
  | _ => simpa [Eval.labelled] using hkept

/-! ## What every engine does -/

section

variable (eng : Engine) {f : α → β}

theorem fit {o : Option α} {o' : Option β} (h : o' = o.map f) :
    R.Tracks f (Engine.fit o) (Engine.fit o') := by
  subst h
  cases o with
  | none => exact throw .overflow
  | some a => exact pure a

/-- Errors are worded alike. -/
theorem fail (e : EvalError) : R.Tracks f (eng.fail e) (eng.fail (e.rename R.serial)) := by
  refine bind get fun s ↦ bind (f := id) (fit ?_) fun message ↦ throw (.error e message)
  rw [atoms_store, EvalError.message_rename R.injective, Option.map_id]
  rfl

theorem lift {x : Except Fault α} {y : Except Fault β}
    (h : Carries (Fault.rename R.serial) f x y) : R.Tracks f (eng.lift x) (eng.lift y) := by
  match x with
  | .ok a =>
    obtain rfl : y = .ok (f a) := h
    exact pure a
  | .error (.error e) =>
    obtain rfl : y = .error (.error (e.rename R.serial)) := h
    exact fail eng e
  | .error (.thrown payload) =>
    obtain rfl : y = .error (.thrown (payload.rename R.serial)) := h
    exact throw (.thrown payload)
  | .error .tooDeep =>
    obtain rfl : y = .error .tooDeep := h
    exact throw .overflow

theorem accept {x : Except EvalError α} {y : Except EvalError β}
    (h : Carries (EvalError.rename R.serial) f x y) :
    R.Tracks f (eng.accept x) (eng.accept y) := by
  cases x with
  | ok a =>
    obtain rfl : y = .ok (f a) := h
    exact pure a
  | error e =>
    obtain rfl : y = .error (e.rename R.serial) := h
    exact fail eng e

theorem make {x y : Except Fault Value}
    (h : Carries (Fault.rename R.serial) (Value.rename R.serial) x y) :
    R.Tracks (Value.rename R.serial) (eng.make x) (eng.make y) :=
  bind (lift eng h) labelled

theorem print (style : PrintStyle) (sep : String) (vs : List Value) :
    R.Tracks id (eng.print style sep vs)
      (eng.print style sep (vs.map (Value.rename R.serial))) := by
  refine bind get fun s ↦ fit ?_
  rw [atoms_store, Value.printAll_rename, Option.map_id]
  rfl

/-- A frame is made under the same number for the same call. -/
theorem addFrame (outer : Option FrameId) (vars : Dict String Value) :
    R.Tracks id (MonadStateOf.modifyGet fun s : Store ↦ s.addFrame outer vars)
      (MonadStateOf.modifyGet fun s : Store ↦
        s.addFrame outer (vars.map (Value.rename R.serial))) :=
  modifyGet (fun _ ↦ rfl) fun s ↦ s.addFrame_rename _ _ outer vars

theorem define (scope : FrameId) (name : String) (v : Value) :
    R.Tracks id (modify fun s ↦ s.define scope name v)
      (modify fun s ↦ s.define scope name (v.rename R.serial)) :=
  change (fun _ ↦ rfl) fun s ↦ (s.define_rename R.serial _ scope name v).symm

theorem enter (c : Closure Value) (args : List Value) :
    R.Tracks id (eng.enter c args)
      (eng.enter (c.rename R.serial) (args.map (Value.rename R.serial))) := by
  have hlabel : R.Tracks (Option.map (Label.rename R.serial))
      (c.params.rest.mapM fun _ ↦ Eval.newLabel) (c.params.rest.mapM fun _ ↦ Eval.newLabel) := by
    cases c.params.rest with
    | none => exact pure none
    | some name =>
      rw [Option.mapM_some, map_eq_pure_bind]
      exact bind newLabel fun l ↦ pure (some l)
  refine bind hlabel fun l ↦ bind (accept eng (.params_bind c.params l args)) fun pairs ↦ ?_
  rw [← Dict.map_ofList]
  exact addFrame (some c.scope) (.ofList pairs)

end

end Tracks

/-! ## Engines -/

variable (R) in
/-- The engine evaluates tasks alike, whatever their serial numbers. -/
def Blind (eng : Engine) : Prop :=
  ∀ t : Task, R.Tracks (Value.rename R.serial) (eng.run t) (eng.run (t.rename R.serial))

theorem Blind.eval {eng : Engine} (h : R.Blind eng) (scope : FrameId) (form : Value) :
    R.Tracks (Value.rename R.serial) (eng.eval scope form)
      (eng.eval scope (form.rename R.serial)) :=
  h (.eval form scope)

end Renumbering

end Lisplet
