import Lisplet.Proofs.Alike
import Lisplet.Proofs.Limit

/-!
# Computations in place of each other

What it means that a function takes two values for each other is said by a relation between two
computations: they end with results that are related, or with failures of one kind
(`Interchanged`).  Most built-in functions need only their arguments; what these answer is related
first (`Agree`), through the sequences in which an answer is made of others.

A failure that is an error has a message, and an atom in the message may lead back to itself.  Such
a message fits into no room, and what is to be an error overflows.  So answers agree on their errors
only if both errors have messages or neither has one.
-/

set_option autoImplicit false

namespace Lisplet

/-! ## What comes out in room enough -/

section

variable {α : Type} {f g : Nat → Option α}

/-- Two results that stay as they are once they have come out are the same in room enough, if the
same ones can come out. -/
theorem exists_enough_eq (hf : ∀ m n, m ≤ n → Within (f m) (f n))
    (hg : ∀ m n, m ≤ n → Within (g m) (g n))
    (h : ∀ a, (∃ m, f m = some a) ↔ ∃ n, g n = some a) :
    ∃ enough, ∀ m n, enough ≤ m → enough ≤ n → f m = g n := by
  by_cases hsome : ∃ a m, f m = some a
  · obtain ⟨a, m, hm⟩ := hsome
    obtain ⟨n, hn⟩ := (h a).1 ⟨m, hm⟩
    refine ⟨max m n, fun m' n' hm' hn' ↦ ?_⟩
    rw [hf m m' (by omega) a hm, hg n n' (by omega) a hn]
  · have hf' (m : Nat) : f m = none :=
      Option.eq_none_iff_forall_ne_some.2 fun a hm ↦ hsome ⟨a, m, hm⟩
    have hg' (n : Nat) : g n = none :=
      Option.eq_none_iff_forall_ne_some.2 fun a hn ↦ hsome ⟨a, (h a).2 ⟨n, hn⟩⟩
    exact ⟨0, fun m n _ _ ↦ (hf' m).trans (hg' n).symm⟩

end

/-! ## Failures of one kind -/

/-- The kinds of error. -/
inductive ErrorKind
  | notFunction | notApplicable | arity | type | restMarker | unbound | definedName | binding
  | catchClause | unreadable | file
  deriving DecidableEq, Repr

/-- The kind of an error. -/
def EvalError.kind : EvalError → ErrorKind
  | notFunction _ _ => .notFunction
  | notApplicable _ => .notApplicable
  | arity _ => .arity
  | type _ => .type
  | restMarker => .restMarker
  | unbound _ => .unbound
  | definedName _ | macroName _ => .definedName
  | bindingList | bindingName _ => .binding
  | catchClause _ => .catchClause
  | unreadable _ => .unreadable
  | file _ _ => .file

/-- The kinds of failure: the kinds of error and what else can end an evaluation. -/
inductive FailureKind
  | error (kind : ErrorKind) | thrown | overflow | crashed (c : Crash) | exhausted | unread
  deriving DecidableEq, Repr

/-- The kind of a failure. -/
def Failure.kind : Failure → FailureKind
  | error e _ => .error e.kind
  | thrown _ => .thrown
  | overflow => .overflow
  | crashed c => .crashed c
  | exhausted => .exhausted
  | unread _ => .unread

/-- There is room in which the error has a message. -/
def EvalError.HasMessage (heap : Heap) (e : EvalError) : Prop :=
  ∃ room, (e.message heap room).isSome = true

/-- Faults that come to failures of one kind: both are thrown values, or both are errors of one kind
that have messages or have none. -/
inductive Fault.Alike (heap : Heap) : Fault → Fault → Prop
  | error {e e' : EvalError} (hkind : e.kind = e'.kind)
    (hmessage : e.HasMessage heap ↔ e'.HasMessage heap) : Alike heap (.error e) (.error e')
  | thrown (payload payload' : Value) : Alike heap (.thrown payload) (.thrown payload')

/-! ## Answers that agree -/

section

variable {heap : Heap} {α β γ δ : Type} {R : α → β → Prop} {S : γ → δ → Prop} {x : Answer α}
  {y : Answer β}

/-- **Two answers agree**: both are results that `R` relates, or both are faults that are alike. -/
inductive Agree (heap : Heap) (R : α → β → Prop) : Answer α → Answer β → Prop
  | ok {a : α} {b : β} (h : R a b) : Agree heap R (.ok a) (.ok b)
  | error {f g : Fault} (h : Fault.Alike heap f g) : Agree heap R (.error f) (.error g)

namespace Agree

theorem bind {p : α → Answer γ} {q : β → Answer δ} (hxy : Agree heap R x y)
    (hpq : ∀ a b, R a b → Agree heap S (p a) (q b)) : Agree heap S (x >>= p) (y >>= q) := by
  cases hxy with
  | ok h => exact hpq _ _ h
  | error h => exact .error h

theorem mapM {p : α → Answer γ} {q : β → Answer δ} {as : List α} {bs : List β}
    (h : List.Forall₂ R as bs) (hpq : ∀ a b, R a b → Agree heap S (p a) (q b)) :
    Agree heap (List.Forall₂ S) (as.mapM p) (bs.mapM q) := by
  induction h with
  | nil => exact .ok .nil
  | cons hab _ ih =>
    rw [List.mapM_cons, List.mapM_cons]
    exact bind (hpq _ _ hab) fun _ _ hcd ↦ bind ih fun _ _ hcds ↦ .ok (.cons hcd hcds)

end Agree

end

/-! ## Computations that can stand for each other -/

section

variable {α β γ δ : Type} {R : α → β → Prop} {S : γ → δ → Prop} {s : Store}

/-- Two computations end alike: with results that `R` relates, or with failures of one kind. -/
inductive EndsAlike (R : α → β → Prop) :
    EStateM.Result Failure Store α → EStateM.Result Failure Store β → Prop
  | ok {a : α} {b : β} {s s' : Store} (h : R a b) : EndsAlike R (.ok a s) (.ok b s')
  | error {f g : Failure} {s s' : Store} (h : f.kind = g.kind) :
    EndsAlike R (.error f s) (.error g s')

theorem EndsAlike.imp {R' : α → β → Prop} {r : EStateM.Result Failure Store α}
    {r' : EStateM.Result Failure Store β} (h : EndsAlike R r r') (hR : ∀ a b, R a b → R' a b) :
    EndsAlike R' r r' := by
  cases h with
  | ok h => exact .ok (hR _ _ h)
  | error h => exact .error h

/-- **Two computations can stand for each other in a store**: in all the room that is enough they
end alike. -/
def Interchanged (s : Store) (R : α → β → Prop) (x : Engine → Eval α) (y : Engine → Eval β) :
    Prop :=
  ∃ enough, ∀ eng eng' : Engine, enough ≤ eng.room → enough ≤ eng'.room →
    EndsAlike R (x eng s) (y eng' s)

namespace Interchanged

theorem of_forall {x : Engine → Eval α} {y : Engine → Eval β}
    (h : ∀ eng eng', EndsAlike R (x eng s) (y eng' s)) : Interchanged s R x y :=
  ⟨0, fun eng eng' _ _ ↦ h eng eng'⟩

theorem imp {x : Engine → Eval α} {y : Engine → Eval β} {R' : α → β → Prop}
    (h : Interchanged s R x y) (hR : ∀ a b, R a b → R' a b) : Interchanged s R' x y := by
  obtain ⟨enough, h⟩ := h
  exact ⟨enough, fun eng eng' hroom hroom' ↦ (h eng eng' hroom hroom').imp hR⟩

/-- What is made of results that are related is related. -/
theorem map {x : Engine → Eval α} {y : Engine → Eval β} {f : α → γ} {g : β → δ}
    (h : Interchanged s R x y) (hfg : ∀ a b, R a b → S (f a) (g b)) :
    Interchanged s S (fun eng ↦ f <$> x eng) fun eng ↦ g <$> y eng := by
  obtain ⟨enough, h⟩ := h
  refine ⟨enough, fun eng eng' hroom hroom' ↦ ?_⟩
  have hends := h eng eng' hroom hroom'
  show EndsAlike S (EStateM.map f (x eng) s) (EStateM.map g (y eng') s)
  rw [EStateM.map, EStateM.map]
  generalize x eng s = r at hends ⊢
  generalize y eng' s = r' at hends ⊢
  cases hends with
  | ok hab => exact .ok (hfg _ _ hab)
  | error hkind => exact .error hkind

/-- What is the same in room enough is there or is missing in both computations. -/
theorem fit {f g : Nat → Option α} (hf : ∀ m n, m ≤ n → Within (f m) (f n))
    (hg : ∀ m n, m ≤ n → Within (g m) (g n))
    (h : ∀ a, (∃ m, f m = some a) ↔ ∃ n, g n = some a) :
    Interchanged s (· = ·) (fun eng ↦ Engine.fit (f eng.room)) fun eng ↦ Engine.fit (g eng.room) := by
  obtain ⟨enough, henough⟩ := exists_enough_eq hf hg h
  refine ⟨enough, fun eng eng' hroom hroom' ↦ ?_⟩
  dsimp only
  rw [henough _ _ hroom hroom']
  cases g eng'.room with
  | none => exact .error rfl
  | some a => exact .ok rfl

/-- Errors of one kind that have messages or have none come to failures of one kind. -/
theorem fail {e e' : EvalError} (hkind : e.kind = e'.kind)
    (hmessage : e.HasMessage s.atoms ↔ e'.HasMessage s.atoms) :
    Interchanged s R (fun eng ↦ eng.fail e) fun eng ↦ eng.fail e' := by
  have hwithin (e : EvalError) (m n : Nat) (h : m ≤ n) :
      Within ((e.message s.atoms m).map fun _ ↦ ()) ((e.message s.atoms n).map fun _ ↦ ()) :=
    .map (EvalError.message_within h e) _
  obtain ⟨enough, henough⟩ := exists_enough_eq (hwithin e) (hwithin e') fun _ ↦ by
    simpa [EvalError.HasMessage, Option.isSome_iff_exists] using hmessage
  refine ⟨enough, fun eng eng' hroom hroom' ↦ ?_⟩
  have hsame := henough eng.room eng'.room hroom hroom'
  dsimp only
  rw [Engine.fail_apply, Engine.fail_apply]
  cases hm : e.message s.atoms eng.room with
  | none =>
    rw [hm, Option.map_none] at hsame
    rw [Option.map_eq_none_iff.1 hsame.symm]
    exact .error rfl
  | some message =>
    rw [hm, Option.map_some] at hsame
    obtain ⟨message', hm', -⟩ := Option.map_eq_some_iff.1 hsame.symm
    rw [hm']
    exact .error (congrArg FailureKind.error hkind)

/-- Computations can stand for each other if they start with answers that agree and can go on for
each other with results that are related. -/
theorem lift_bind {a : Answer α} {b : Answer β} {p : Engine → α → Eval γ} {q : Engine → β → Eval δ}
    (h : Agree s.atoms R a b)
    (hpq : ∀ u v, R u v → Interchanged s S (fun eng ↦ p eng u) fun eng ↦ q eng v) :
    Interchanged s S (fun eng ↦ eng.lift a >>= p eng) fun eng ↦ eng.lift b >>= q eng := by
  cases h with
  | ok h => exact hpq _ _ h
  | error h =>
    cases h with
    | @error e e' hkind hmessage =>
      have hfail : Interchanged s S (fun eng ↦ eng.fail e) fun eng ↦ eng.fail e' :=
        fail hkind hmessage
      simpa only [Engine.lift, Direct.fail_bind] using hfail
    | thrown payload payload' => exact of_forall fun _ _ ↦ .error rfl

theorem lift {a : Answer α} {b : Answer β} (h : Agree s.atoms R a b) :
    Interchanged s R (fun eng ↦ eng.lift a) fun eng ↦ eng.lift b := by
  have hpure := lift_bind (p := fun _ ↦ pure) (q := fun _ ↦ pure) h fun u v huv ↦
    of_forall fun _ _ ↦ .ok huv
  simpa only [bind_pure] using hpure

end Interchanged

end

namespace Value.Alike

variable {macros : Nat → Bool} {v w : Value} {s : Store}

/-- A value that gets a label is alike to what it was. -/
theorem exists_labelled (h : v.All (IsMade macros)) (s : Store) :
    ∃ v' s', Eval.labelled v s = .ok v' s' ∧ Alike macros v v' := by
  cases v with
  | list l items =>
    cases l with
    | none => exact ⟨_, _, rfl, h, .list trivial fun _ ↦ h.inside, by simp [Value.canonical]⟩
    | some l => exact ⟨_, _, rfl, .refl h⟩
  | map l d =>
    cases l with
    | none => exact ⟨_, _, rfl, (Alike.refl h).relabel none _⟩
    | some l => exact ⟨_, _, rfl, .refl h⟩
  | _ => exact ⟨_, _, rfl, .refl h⟩

theorem labelled (h : Alike macros v w) :
    Interchanged s (Alike macros) (fun _ ↦ Eval.labelled v) fun _ ↦ Eval.labelled w := by
  refine .of_forall fun _ _ ↦ ?_
  obtain ⟨v', s', hv, hv'⟩ := exists_labelled h.left s
  obtain ⟨w', s'', hw, hw'⟩ := exists_labelled h.right s
  rw [hv, hw]
  exact .ok (hv'.symm.trans (h.trans hw'))

end Value.Alike

/-- Answers that agree can stand for each other if the values are made anew. -/
theorem Interchanged.make {macros : Nat → Bool} {s : Store} {a b : Answer Value}
    (h : Agree s.atoms (Value.Alike macros) a b) :
    Interchanged s (Value.Alike macros) (fun eng ↦ eng.make a) fun eng ↦ eng.make b :=
  lift_bind h fun _ _ ↦ Value.Alike.labelled

end Lisplet
