import Lisplet.Proofs.Law

/-!
# Engines that agree

The rules of evaluation are written against an engine.  Two engines agree under a law
(`Law.Engines`) if their evaluations one level down do, and the second has at least the room of the
first; then everything that the rules get from an engine agrees.  Room is used for printing,
comparing and reading, and more of it changes none of these.
-/

set_option autoImplicit false

namespace Lisplet.Law

variable {L : Law} {s : Store} {α : Type} {Q : Store → α → Prop}

/-- Two engines whose evaluations agree.  The second one may have more room if the law is roomy. -/
structure Engines (L : Law) (eng eng' : Engine) : Prop where
  disk : eng'.disk = eng.disk
  room_le : eng.room ≤ eng'.room
  room_eq : ¬L.roomy → eng'.room = eng.room
  run : ∀ (s : Store) (t : Task), L.Admits s t →
    L.Agree s (eng.run t) (eng'.run t) fun s₁ v ↦ L.Good s₁ v ∧ L.fits v

/-! ## Labels -/

theorem agree_nextSerial : L.Agree s (modifyGet Store.nextSerial) (modifyGet Store.nextSerial)
    fun _ _ ↦ True :=
  .modifyGet fun s₁ _ hl ↦ ⟨s₁.extends_nextSerial, hl.congr rfl rfl, trivial⟩

theorem agree_newLabel : L.Agree s Eval.newLabel Eval.newLabel fun _ _ ↦ True :=
  .bind agree_nextSerial fun _ _ _ _ ↦ .pure fun _ _ ↦ trivial

/-- A label changes nothing about a value. -/
theorem agree_labelled {v : Value} (hv : L.Good s v) :
    L.Agree s (Eval.labelled v) (Eval.labelled v) fun s₁ w ↦ L.Good s₁ w := by
  rw [Eval.labelled.eq_def]
  split
  · refine .bind agree_newLabel fun s₁ l hs₁ _ ↦ .pure fun s₂ hs₂ ↦ good_list _ fun w hw ↦ ?_
    exact (Good.mono (hs₁.trans hs₂) hv).inside hw
  · refine .bind agree_newLabel fun s₁ l hs₁ _ ↦ .pure fun s₂ hs₂ ↦ good_map _ fun e he ↦ ?_
    exact (Good.mono (hs₁.trans hs₂) hv).entry he
  · exact .pure fun s₁ hs₁ ↦ hv.mono hs₁

/-! ## Answers of built-in functions -/

/-- An answer of which `P` holds, if it is one; what is thrown instead is good. -/
def Yields (L : Law) (s : Store) (P : α → Prop) : Except Fault α → Prop
  | .ok a => P a
  | .error (.thrown payload) => L.Good s payload
  | .error _ => True

namespace Yields

variable {β : Type} {P : α → Prop} {R : β → Prop}

theorem bind {x : Except Fault α} {f : α → Except Fault β} (hx : L.Yields s P x)
    (hf : ∀ a, P a → L.Yields s R (f a)) : L.Yields s R (x >>= f) := by
  match x, hx with
  | .ok a, ha => exact hf a ha
  | .error (.thrown _), hp => exact hp
  | .error (.error _), _ | .error .tooDeep, _ => trivial

theorem imp {P' : α → Prop} {x : Except Fault α} (hx : L.Yields s P x)
    (h : ∀ a, P a → P' a) : L.Yields s P' x := by
  match x, hx with
  | .ok a, ha => exact h a ha
  | .error (.thrown _), hp => exact hp
  | .error (.error _), _ | .error .tooDeep, _ => trivial

theorem mapM {f : α → Except Fault β} {xs : List α} (h : ∀ x ∈ xs, L.Yields s R (f x)) :
    L.Yields s (fun ys ↦ ∀ y ∈ ys, R y) (xs.mapM f) := by
  induction xs with
  | nil =>
    intro y hy
    simp at hy
  | cons x xs ih =>
    rw [List.mapM_cons]
    refine bind (h x List.mem_cons_self) fun y hy ↦ ?_
    refine bind (ih fun x' hx' ↦ h x' (List.mem_cons_of_mem _ hx')) fun ys hys ↦ ?_
    exact List.forall_mem_cons.2 ⟨hy, hys⟩

end Yields

/-! ## What engines do -/

namespace Engines

variable {eng eng' : Engine} (h : L.Engines eng eng')
include h

/-- Evaluating a form. -/
theorem eval {scope : FrameId} {form : Value} (hform : L.Good s form) (hscope : L.active s scope) :
    L.Agree s (eng.eval scope form) (eng'.eval scope form) fun s₁ v ↦ L.Good s₁ v ∧ L.fits v :=
  h.run s _ ⟨hform, hscope⟩

/-- **A result for which there is room**: where there is enough of it, more changes nothing. -/
theorem fit {o : Nat → Option α} (ho : ∀ m n, m ≤ n → Within (o m) (o n))
    (hQ : ∀ s₁ a, s.Extends s₁ → o eng.room = some a → Q s₁ a) :
    L.Agree s (Engine.fit (o eng.room)) (Engine.fit (o eng'.room)) Q := by
  cases hr : o eng.room with
  | some a =>
    rw [ho _ _ h.room_le a hr]
    exact .pure fun s₁ hs₁ ↦ hQ s₁ a hs₁ hr
  | none =>
    by_cases hroomy : L.roomy
    · exact .overflow hroomy
    · rw [h.room_eq hroomy, hr]
      exact .throw fun _ _ ↦ trivial

theorem fail (e : EvalError) : L.Agree s (eng.fail e) (eng'.fail e) Q := by
  refine .bind .get fun s₁ _ hs₁ hget ↦ ?_
  refine .bind (h.fit (fun _ _ hmn ↦ EvalError.message_within hmn e) fun _ _ _ _ ↦ trivial) ?_
  exact fun _ message _ _ ↦ .throw fun _ _ ↦ trivial

theorem lift {P : α → Prop} {x : Except Fault α} (hx : L.Yields s P x) :
    L.Agree s (eng.lift x) (eng'.lift x) fun _ a ↦ P a := by
  match x, hx with
  | .ok a, ha => exact .pure fun _ _ ↦ ha
  | .error (.error e), _ => exact h.fail e
  | .error (.thrown payload), hp => exact .throw fun s₁ hs₁ ↦ Good.mono hs₁ hp
  | .error .tooDeep, _ => exact .throw fun _ _ ↦ trivial

theorem accept {P : α → Prop} {x : Except EvalError α} (hx : ∀ a, x = .ok a → P a) :
    L.Agree s (eng.accept x) (eng'.accept x) fun _ a ↦ P a := by
  cases x with
  | ok a => exact .pure fun _ _ ↦ hx a rfl
  | error e => exact h.fail e

/-- A good value that is an answer. -/
theorem answer {x : Except Fault Value} (hx : L.Yields s (L.Good s) x) :
    L.Agree s (eng.lift x) (eng'.lift x) fun s₁ v ↦ L.Good s₁ v :=
  (h.lift hx).imp fun _ _ hs₁ hv ↦ hv.mono hs₁

/-- A good value that is made anew. -/
theorem make {x : Except Fault Value} (hx : L.Yields s (L.Good s) x) :
    L.Agree s (eng.make x) (eng'.make x) fun s₁ v ↦ L.Good s₁ v :=
  .bind (h.lift hx) fun _ _ hs₁ hv ↦ agree_labelled (hv.mono hs₁)

theorem print (style : PrintStyle) (sep : String) (vs : List Value) :
    L.Agree s (eng.print style sep vs) (eng'.print style sep vs) fun _ _ ↦ True := by
  refine .bind .get fun s₁ _ hs₁ hget ↦ ?_
  exact h.fit (fun _ _ hmn ↦ Value.printAll_within hmn sep vs) fun _ _ _ _ ↦ trivial

end Engines

/-! ## Calls of closures -/

/-- What the names of a call are bound to are its arguments and the list of the last ones. -/
theorem good_of_mem_bind {p : Params} {l : Option Label} {args : List Value}
    {pairs : List (String × Value)} (hargs : ∀ v ∈ args, L.Good s v)
    (h : p.bind l args = .ok pairs) {e : String × Value} (he : e ∈ pairs) : L.Good s e.2 := by
  rw [Params.bind] at h
  split at h
  · obtain rfl := Except.ok.inj h
    rcases List.mem_append.1 he with he | he
    · exact hargs _ (List.of_mem_zip he).2
    · rw [Option.mem_toList] at he
      obtain ⟨name, -, rfl⟩ := Option.map_eq_some_iff.1 he
      exact good_list l fun v hv ↦ hargs v (List.mem_of_mem_drop hv)
  · simp at h

/-- **A call of a closure runs in a frame of its own.** -/
theorem Engines.enter {eng eng' : Engine} (h : L.Engines eng eng') {c : Closure Value}
    {args : List Value} (hc : L.Good s (.fn c)) (hargs : ∀ v ∈ args, L.Good s v) :
    L.Agree s (eng.enter c args) (eng'.enter c args) fun s₁ f ↦ L.active s₁ f := by
  have hlabel : L.Agree s (c.params.rest.mapM fun _ ↦ Eval.newLabel)
      (c.params.rest.mapM fun _ ↦ Eval.newLabel) fun _ _ ↦ True := by
    cases c.params.rest with
    | none => exact .pure fun _ _ ↦ trivial
    | some name => exact .bind agree_newLabel fun _ _ _ _ ↦ .pure fun _ _ ↦ trivial
  refine .bind hlabel fun s₁ label hs₁ _ ↦ ?_
  have hargs₁ : ∀ v ∈ args, L.Good s₁ v := fun v hv ↦ (hargs v hv).mono hs₁
  refine .bind (h.accept fun pairs hpairs e ↦ good_of_mem_bind hargs₁ hpairs (e := e)) ?_
  refine fun s₂ pairs hs₂ hpairs ↦ .modifyGet fun s₃ hs₃ hl ↦ ?_
  have hvars : ∀ e ∈ (Dict.ofList pairs).entries, L.Good s₃ e.2 := fun e he ↦
    (hpairs e (Dict.mem_of_mem_entries_ofList he)).mono (hs₂.trans hs₃)
  have hcap : L.captured s₃ c.scope := L.captured_mono (hs₁.trans (hs₂.trans hs₃)) hc.captured
  exact ⟨s₃.extends_addFrame _ _, hl.addFrame hcap hvars, L.active_addFrame _ _ hl.shape⟩

end Lisplet.Law
