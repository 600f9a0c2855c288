import Lisplet.Proofs.Program
import Lisplet.Proofs.Session
import Mathlib.Logic.Relation

/-!
# The expander and the evaluator

There are two ways to the code of a macro.  The evaluator looks at a call after it has evaluated the
head: if that is a macro, the body is evaluated in a frame of its own, and what it comes to is
evaluated where the macro was called.  The expander looks at the binding of the name that heads a
form, and goes on with what the body comes to, as long as a macro is there.

Here the two are compared.  What the expander goes through is `ExpandsOnce`, turn by turn.  If no
form on the way is headed by the name of a special form, the expansion can stand for the form
(`settles_eval_iff_of_expand`).  The induction is on the steps that the expander takes; in each turn
the two run the same body (`run_expand_of_some`, `settles_eval_iff_of_macroCall`).

With the name of a special form they part.  The evaluator takes these names before it looks at any
binding, the expander does not.  So a form with such a name is its own expansion exactly if the name
is not bound to a macro (`expansion_keeps_special_iff`).
-/

set_option autoImplicit false

namespace Lisplet

variable {α β : Type} {disk : Disk} {scope : FrameId} {s s₁ : Store} {form code : Value}
  {c : Closure Value} {args : List Value} {r : EStateM.Result Failure Store Value}

/-! ## One turn -/

/-- The special form whose name heads a list. -/
def SpecialForm.heading? : Value → Option SpecialForm
  | .list _ (head :: _) => ofHead? head
  | _ => none

/-- **One turn of an expansion**: a macro heads the form, it is called on the rest of the form, and
the expansion goes on with the code that this comes to, in the store that it leaves. -/
def ExpandsOnce (disk : Disk) (scope : FrameId) (a b : Store × Value) : Prop :=
  Settles disk (fun eng ↦ Task.stepExpand eng scope a.2) a.1 (.ok (.next (.expand b.2 scope)) b.1)

/-- What a macro call is: a list that the name of a macro heads. -/
theorem Store.macroCall?_eq_some_iff :
    s.macroCall? scope form = some (c, args) ↔
      ∃ l name v, form = .list l (.sym name :: args) ∧ s.get? scope name = some v ∧
        v.bare = .fn c ∧ c.isMacro = true := by
  constructor
  · intro h
    rw [macroCall?.eq_def] at h
    split at h
    · rename_i l name args'
      split at h
      · rename_i c' hfound
        obtain ⟨v, hget, hv⟩ := Option.map_eq_some_iff.1 hfound
        split at h
        · rename_i hmacro
          obtain ⟨rfl, rfl⟩ := Prod.mk.inj (Option.some.inj h)
          exact ⟨l, name, v, rfl, hget, hv, hmacro⟩
        · cases h
      · cases h
    · cases h
  · rintro ⟨l, name, v, rfl, hget, hv, hmacro⟩
    rw [macroCall?, hget, Option.map_some, hv]
    exact if_pos hmacro

/-- Where no macro heads the form, the expansion is over. -/
theorem stepExpand_of_none (h : s.macroCall? scope form = none) (eng : Engine) :
    Task.stepExpand eng scope form s = .ok (.done form) s := by
  rw [Task.stepExpand, get_bind_apply, h]
  rfl

/-- **A turn of an expansion calls the macro.** -/
theorem stepExpand_of_some (h : s.macroCall? scope form = some (c, args)) (eng : Engine) :
    Task.stepExpand eng scope form s =
      (do
        discard (eng.print .readable "" [form])
        let code ← Direct.apply eng c args
        return .next (.expand code scope) : Eval Step) s := by
  rw [Task.stepExpand, get_bind_apply, h]
  simp only [Direct.apply, bind_assoc]

/-- Nothing but the text comes of printing. -/
theorem eq_of_settles_print {style : PrintStyle} {sep : String} {vs : List Value}
    {r : EStateM.Result Failure Store Unit}
    (h : Settles disk (fun eng ↦ discard (eng.print style sep vs)) s r) : r = .ok () s := by
  obtain ⟨hr, n, h⟩ := h
  replace h := h n n (Nat.le_refl n) (Nat.le_refl n)
  simp only [discard_eq_bind, Engine.print, bind_assoc, get_bind_apply] at h
  cases hp : Value.printAll s.atoms style (Engine.granted disk n n).room sep vs with
  | none =>
    rw [hp] at h
    subst h
    exact hr.elim
  | some text =>
    rw [hp] at h
    exact h.symm

/-- What a turn settles in: the code that the macro comes to, or the failure of the call. -/
theorem settles_of_stepExpand (h : s.macroCall? scope form = some (c, args))
    {q : EStateM.Result Failure Store Step}
    (hq : Settles disk (fun eng ↦ Task.stepExpand eng scope form) s q) :
    (∃ code s₁, Settles disk (fun eng ↦ Direct.apply eng c args) s (.ok code s₁) ∧
      q = .ok (.next (.expand code scope)) s₁) ∨
    ∃ e s₁, Settles disk (fun eng ↦ Direct.apply eng c args) s (.error e s₁) ∧ q = .error e s₁ := by
  have hprint : Growing disk fun eng ↦ discard (eng.print .readable "" [form]) := by
    simp only [discard_eq_bind]
    exact .bind (.print _ _ _) fun _ ↦ .const _
  replace hq := hq.congr (y := fun eng ↦ do
    discard (eng.print .readable "" [form])
    let code ← Direct.apply eng c args
    return .next (.expand code scope)) ⟨0, fun _ _ _ _ ↦ (stepExpand_of_some h _).symm⟩
  obtain ⟨_, s₁, hp, hcall⟩ | ⟨e, s₁, hp, -⟩ := (settles_bind_iff hprint).1 hq
  · obtain ⟨-, rfl⟩ := EStateM.Result.ok.inj (eq_of_settles_print hp)
    obtain ⟨code, s₂, hcode, hdone⟩ | ⟨e, s₂, herror, rfl⟩ :=
      (settles_bind_iff (.apply c args)).1 hcall
    · exact .inl ⟨code, s₂, hcode, hdone.unique (settles_pure _)⟩
    · exact .inr ⟨e, s₂, herror, rfl⟩
  · cases eq_of_settles_print hp

/-- A run that expands a macro call makes one turn and goes on from there, or ends with the failure
of the call. -/
theorem run_expand_of_some {steps room : Nat}
    (h : run disk (steps + 1) room [] (.expand form scope) s = r) (hr : Settled r)
    (hcall : s.macroCall? scope form = some (c, args)) :
    (∃ code s₁, Settles disk (fun eng ↦ Direct.apply eng c args) s (.ok code s₁) ∧
      ExpandsOnce disk scope (s, form) (s₁, code) ∧
      run disk steps room [] (.expand code scope) s₁ = r) ∨
    ∃ e s₁, Settles disk (fun eng ↦ Direct.apply eng c args) s (.error e s₁) ∧ r = .error e s₁ := by
  rw [run_succ] at h
  have hstep := settles_step rfl (Growing.settled_of_bind (h ▸ hr))
  obtain ⟨code, s₁, hcode, heq⟩ | ⟨e, s₁, herror, heq⟩ := settles_of_stepExpand hcall hstep
  · rw [heq] at hstep
    simp only [Bind.bind, EStateM.bind, heq] at h
    exact .inl ⟨code, s₁, hcode, hstep, h⟩
  · simp only [Bind.bind, EStateM.bind, heq] at h
    exact .inr ⟨e, s₁, herror, h.symm⟩

theorem run_expand_of_none {steps room : Nat} (hcall : s.macroCall? scope form = none) :
    run disk (steps + 1) room [] (.expand form scope) s = .ok form s := by
  have hdone := stepExpand_of_none hcall
    ⟨room, disk, nested (fun room t ↦ run disk steps room [] t) room⟩
  rw [run_succ]
  simp only [Bind.bind, EStateM.bind, Task.step, hdone]
  rfl

/-! ## The evaluator's way -/

/-- **A macro call is evaluated** by calling the macro on the forms as they are, and then evaluating
what this comes to. -/
theorem settles_eval_iff_of_macroCall (h : s.macroCall? scope form = some (c, args))
    (hhead : SpecialForm.heading? form = none) :
    Settles disk (fun eng ↦ eng.eval scope form) s r ↔
      Settles disk (fun eng ↦ Direct.apply eng c args >>= eng.eval scope) s r := by
  obtain ⟨l, name, v, rfl, hget, hv, hmacro⟩ := Store.macroCall?_eq_some_iff.1 h
  replace hhead : SpecialForm.ofHead? (.sym name) = none := hhead
  have hform (eng : Engine) : Direct.value eng (.eval (.list l (.sym name :: args)) scope) =
      Direct.combination eng scope (.sym name) args := by
    rw [Direct.value, Direct.form, hhead]
  refine settles_run_iff_value.trans ?_
  simp only [hform, Direct.combination]
  refine (settles_bind_of_ok (settles_name hget)).trans ?_
  simp only [hv, hmacro, if_true]

/-- The form that asks for the expansion of a form. -/
def expansionOf (label : Option Label) (form : Value) : Value :=
  .list label [.sym SpecialForm.expansion.name, form]

theorem evaluates_expansionOf_iff {label : Option Label} :
    Evaluates disk (.eval (expansionOf label form) scope) s r ↔
      Evaluates disk (.expand form scope) s r := by
  have hform (eng : Engine) : Direct.value eng (.eval (expansionOf label form) scope) =
      eng.run (.expand form scope) := by
    rw [Direct.value, expansionOf, Direct.form, SpecialForm.ofHead?, SpecialForm.ofName?_name]
    rfl
  refine settles_run_iff_value.trans ?_
  simp only [hform]
  exact Iff.rfl

/-! ## The expansion stands for the form -/

/-- Every macro call that an expansion goes through is one for the evaluator too: no special form
has the name that heads it. -/
def ExpandsOrdinarily (disk : Disk) (scope : FrameId) (s : Store) (form : Value) : Prop :=
  ∀ s₁ f₁, Relation.ReflTransGen (ExpandsOnce disk scope) (s, form) (s₁, f₁) →
    (s₁.macroCall? scope f₁).isSome → SpecialForm.heading? f₁ = none

theorem ExpandsOnce.unique {a b b' : Store × Value} (h : ExpandsOnce disk scope a b)
    (h' : ExpandsOnce disk scope a b') : b = b' := by
  obtain ⟨hnext, hstore⟩ := EStateM.Result.ok.inj (Settles.unique h h')
  exact Prod.ext hstore (Task.expand.inj (Step.next.inj hnext)).1

namespace ExpandsOrdinarily

theorem head (hhead : SpecialForm.heading? form = none)
    (hnext : ∀ s₁ code, ExpandsOnce disk scope (s, form) (s₁, code) →
      ExpandsOrdinarily disk scope s₁ code) : ExpandsOrdinarily disk scope s form := by
  intro s₂ f₂ hreach hcall
  obtain heq | ⟨⟨s₁, code⟩, hturn, hrest⟩ := Relation.ReflTransGen.cases_head hreach
  · obtain ⟨-, rfl⟩ := Prod.mk.inj heq
    exact hhead
  · exact hnext s₁ code hturn s₂ f₂ hrest hcall

theorem of_turn (hhead : SpecialForm.heading? form = none)
    (hturn : ExpandsOnce disk scope (s, form) (s₁, code))
    (hnext : ExpandsOrdinarily disk scope s₁ code) : ExpandsOrdinarily disk scope s form := by
  refine head hhead fun s₂ code' h' ↦ ?_
  obtain ⟨rfl, rfl⟩ := Prod.mk.inj (hturn.unique h')
  exact hnext

theorem of_error {e : Failure} (hhead : SpecialForm.heading? form = none)
    (h : Settles disk (fun eng ↦ Task.stepExpand eng scope form) s (.error e s₁)) :
    ExpandsOrdinarily disk scope s form := by
  refine head hhead fun s₂ code h' ↦ ?_
  cases Settles.unique h h'

/-- What no macro heads is not expanded. -/
theorem of_none (hhead : SpecialForm.heading? form = none)
    (h : s.macroCall? scope form = none) : ExpandsOrdinarily disk scope s form := by
  refine head hhead fun s₁ code h' ↦ ?_
  have hdone : Settles disk (fun eng ↦ Task.stepExpand eng scope form) s (.ok (.done form) s) :=
    settles_of_forall trivial (stepExpand_of_none h)
  cases Settles.unique hdone h'

end ExpandsOrdinarily

/-- **Evaluating a form is evaluating its expansion where that ends.** -/
theorem settles_eval_iff_of_expand {steps room : Nat}
    (h : run disk steps room [] (.expand form scope) s = r) (hr : Settled r)
    (hway : ExpandsOrdinarily disk scope s form) (q : EStateM.Result Failure Store Value) :
    Settles disk (fun eng ↦ eng.eval scope form) s q ↔
      Settles disk (fun eng ↦ (fun _ ↦ r) >>= eng.eval scope) s q := by
  induction steps generalizing form s with
  | zero =>
    subst h
    exact hr.elim
  | succ steps ih =>
    cases hcall : s.macroCall? scope form with
    | none =>
      obtain rfl : .ok form s = r := (run_expand_of_none hcall).symm.trans h
      exact (settles_bind_of_ok (settles_const_iff.2 ⟨trivial, rfl⟩)).symm
    | some called =>
      obtain ⟨c, args⟩ := called
      have hhead := hway s form .refl (by rw [hcall]; rfl)
      refine (settles_eval_iff_of_macroCall hcall hhead).trans ?_
      obtain ⟨code, s₁, hcode, hturn, h⟩ | ⟨e, s₁, herror, rfl⟩ := run_expand_of_some h hr hcall
      · -- both go on from the code: the expander with its next turn, the evaluator by evaluating it
        have hrest := ih h fun s₂ f₂ h₂ ↦ hway s₂ f₂ (.head hturn h₂)
        refine (settles_bind_of_ok hcode).trans (hrest.trans ?_)
        exact ⟨fun hq ↦ hq.congr ⟨0, fun _ _ _ _ ↦ rfl⟩, fun hq ↦ hq.congr ⟨0, fun _ _ _ _ ↦ rfl⟩⟩
      · exact settles_bind_iff_of_settles herror

/-- **The expander agrees with the evaluator.**

If an expansion goes through nothing but macro calls that are calls for the evaluator too, then
evaluating the form is evaluating the code that the expansion ends with, in the store that it
leaves; and if a macro fails on the way, the form fails in the same way.  An expansion that ends has
printed every form on its way, so that nothing has to be said about that. -/
theorem expansion_agrees (disk : Disk) (scope : FrameId) (s : Store) (form : Value)
    (label : Option Label) (hway : ExpandsOrdinarily disk scope s form) :
    (∀ (code : Value) (s' : Store),
      Evaluates disk (.eval (expansionOf label form) scope) s (.ok code s') →
        ∀ r, Evaluates disk (.eval form scope) s r ↔ Evaluates disk (.eval code scope) s' r) ∧
    ∀ (e : Failure) (s' : Store),
      Evaluates disk (.eval (expansionOf label form) scope) s (.error e s') →
        Evaluates disk (.eval form scope) s (.error e s') := by
  have hagree {r : EStateM.Result Failure Store Value}
      (h : Evaluates disk (.eval (expansionOf label form) scope) s r)
      (q : EStateM.Result Failure Store Value) :
      Settles disk (fun eng ↦ eng.eval scope form) s q ↔
        Settles disk (fun eng ↦ (fun _ ↦ r) >>= eng.eval scope) s q := by
    obtain ⟨hr, n, h⟩ := evaluates_expansionOf_iff.1 h
    exact settles_eval_iff_of_expand (h n n (Nat.le_refl n) (Nat.le_refl n)) hr hway q
  constructor
  · intro code s' h r
    exact (hagree h r).trans (settles_bind_of_ok (settles_const_iff.2 ⟨trivial, rfl⟩))
  · intro e s' h
    exact (hagree h _).2 (settles_bind_of_error (settles_const_iff.2 ⟨h.1, rfl⟩))

/-- A macro whose code is a call of another macro, and one whose body fails. -/
theorem expansion_agrees_twice :
    let disk : Disk := fun _ ↦ none
    let named (n : Nat) (name : String) (body : Value) : String × Value :=
      (name, .fn ⟨n, ⟨[], none⟩, body, 0, true⟩)
    let call (name : String) : Value := .list none [.sym name]
    let s : Store := { frames := #[⟨⟨[named 0 "seven" (.int 7), named 1 "lost" (.sym "x"),
      named 2 "twice" (.list none [.sym "quote", call "seven"])]⟩, none⟩] }
    let called (s : Store) : Store := (s.addFrame (some 0) .empty).2
    let unbound : Failure := .error (.unbound "x") "'x' not found"
    (ExpandsOrdinarily disk 0 s (call "twice") ∧
      Evaluates disk (.eval (expansionOf none (call "twice")) 0) s
        (.ok (.int 7) (called (called s))) ∧
      Evaluates disk (.eval (call "twice") 0) s (.ok (.int 7) (called (called s)))) ∧
    ExpandsOrdinarily disk 0 s (call "lost") ∧
      Evaluates disk (.eval (expansionOf none (call "lost")) 0) s (.error unbound (called s)) ∧
      Evaluates disk (.eval (call "lost") 0) s (.error unbound (called s)) := by
  intro disk named call s called unbound
  let eng : Engine := ⟨9, disk, nested (fun room t ↦ run disk 9 room [] t) 9⟩
  have htwice : ExpandsOrdinarily disk 0 s (call "twice") := by
    have hfirst : (Task.expand (call "twice") 0).step eng s =
        .ok (.next (.expand (call "seven") 0)) (called s) := by
      with_unfolding_all rfl
    have hsecond : (Task.expand (call "seven") 0).step eng (called s) =
        .ok (.next (.expand (.int 7) 0)) (called (called s)) := by
      with_unfolding_all rfl
    refine .of_turn (by decide) (settles_step hfirst trivial) ?_
    exact .of_turn (by decide) (settles_step hsecond trivial) (.of_none rfl rfl)
  have hlost : ExpandsOrdinarily disk 0 s (call "lost") := by
    have hfails : (Task.expand (call "lost") 0).step eng s = .error unbound (called s) := by
      with_unfolding_all rfl
    exact .of_error (by decide) (settles_step hfails trivial)
  have hseven : run disk 9 9 [] (.eval (expansionOf none (call "twice")) 0) s =
      .ok (.int 7) (called (called s)) := by
    with_unfolding_all rfl
  have hunbound : run disk 9 9 [] (.eval (expansionOf none (call "lost")) 0) s =
      .error unbound (called s) := by
    with_unfolding_all rfl
  have hitself (s : Store) : run disk 9 9 [] (.eval (.int 7) 0) s = .ok (.int 7) s := rfl
  obtain ⟨hagrees, -⟩ := expansion_agrees disk 0 s (call "twice") none htwice
  obtain ⟨-, hfails⟩ := expansion_agrees disk 0 s (call "lost") none hlost
  have hexpanded := Evaluates.of_run hseven trivial
  have hfailed := Evaluates.of_run hunbound trivial
  refine ⟨⟨htwice, hexpanded, ?_⟩, hlost, hfailed, hfails _ _ hfailed⟩
  exact (hagrees _ _ hexpanded _).2 (.of_run (hitself _) trivial)

/-! ## What a call leaves behind -/

/-- What is accepted is accepted as it is. -/
theorem store_of_accept {eng : Engine} {x : Except EvalError α} {a : α}
    (h : eng.accept x s = .ok a s₁) : s₁ = s := by
  cases x with
  | ok a' =>
    cases h
    rfl
  | error e =>
    rw [Engine.accept, Engine.fail_apply] at h
    obtain ⟨message, s₂, -, h⟩ := exists_of_bind_ok h
    cases h

/-- Entering a closure makes a frame. -/
theorem frames_size_of_enter {eng : Engine} {f : FrameId} (h : eng.enter c args s = .ok f s₁) :
    s₁.frames.size = s.frames.size + 1 := by
  obtain ⟨label, s₂, hlabel, hrest⟩ := exists_of_bind_ok h
  obtain ⟨pairs, s₃, hpairs, hframe⟩ := exists_of_bind_ok hrest
  obtain rfl := store_of_accept hpairs
  have hframes : s₃.frames = s.frames := by
    cases hrest : c.params.rest with
    | none =>
      rw [hrest] at hlabel
      cases hlabel
      rfl
    | some name =>
      rw [hrest] at hlabel
      cases hlabel
      rfl
  cases hframe
  rw [← hframes]
  exact Array.size_push _

/-- **A call of a closure leaves more frames than there were.** -/
theorem frames_size_lt_of_apply {v : Value}
    (h : Settles disk (fun eng ↦ Direct.apply eng c args) s (.ok v s₁)) :
    s.frames.size < s₁.frames.size := by
  obtain ⟨inner, s₂, henter, heval⟩ | ⟨e, s₂, -, heq⟩ := (settles_bind_iff (.enter c args)).1 h
  · obtain ⟨-, n, hn⟩ := henter
    have hsize := frames_size_of_enter (hn n n (Nat.le_refl n) (Nat.le_refl n))
    exact Nat.lt_of_lt_of_le (hsize ▸ Nat.lt_succ_self _) heval.extends_run.frames_size_le
  · cases heq

/-! ## Names of special forms -/

/-- Seen from a frame, a name is bound to a macro, under whatever metadata. -/
def Store.BindsMacro (s : Store) (f : FrameId) (name : String) : Prop :=
  ∃ v c, s.get? f name = some v ∧ v.bare = .fn c ∧ c.isMacro = true

theorem Store.bindsMacro_iff (l : Option Label) (name : String) (args : List Value) :
    s.BindsMacro scope name ↔ (s.macroCall? scope (.list l (.sym name :: args))).isSome := by
  constructor
  · rintro ⟨v, c, hget, hv, hmacro⟩
    exact Option.isSome_iff_exists.2
      ⟨(c, args), macroCall?_eq_some_iff.2 ⟨l, name, v, rfl, hget, hv, hmacro⟩⟩
  · intro h
    obtain ⟨⟨c, args'⟩, h⟩ := Option.isSome_iff_exists.1 h
    obtain ⟨l', name', v, heq, hget, hv, hmacro⟩ := macroCall?_eq_some_iff.1 h
    obtain ⟨-, hlist⟩ := Value.list.inj heq
    obtain ⟨rfl⟩ := Value.sym.inj (List.cons.inj hlist).1
    exact ⟨v, c, hget, hv, hmacro⟩

/-- **A form that the name of a special form heads is its own expansion exactly if no macro is bound
to that name.**

The evaluator never looks at such a binding: it takes the form for a special form.  But the expander
looks at nothing else, so a macro of that name is called, with the effects that this has. -/
theorem expansion_keeps_special_iff (disk : Disk) (scope : FrameId) (s : Store) (f : SpecialForm)
    (args : List Value) (l label : Option Label) :
    let form : Value := .list l (.sym f.name :: args)
    (Evaluates disk (.eval (expansionOf label form) scope) s (.ok form s) ↔
      ¬ s.BindsMacro scope f.name) ∧
    ∀ r, Evaluates disk (.eval form scope) s r ↔
      Settles disk (fun eng ↦ Direct.special eng f scope args) s r := by
  intro form
  refine ⟨?_, fun r ↦ ?_⟩
  · rw [evaluates_expansionOf_iff, Store.bindsMacro_iff l f.name args]
    constructor
    · rintro ⟨hr, n, h⟩ hbound
      obtain ⟨⟨c, args'⟩, hcall⟩ := Option.isSome_iff_exists.1 hbound
      have hrun := h (n + 1) n (Nat.le_succ n) (Nat.le_refl n)
      obtain ⟨code, s₁, hcode, -, hrest⟩ | ⟨e, s₁, -, heq⟩ := run_expand_of_some hrun hr hcall
      · -- the frame of the call is still there when the expansion ends
        have hgrown := frames_size_lt_of_apply hcode
        have hkept := ((Growing.run _).settles hrest hr).extends_run.frames_size_le
        exact absurd (Nat.lt_of_lt_of_le hgrown hkept) (Nat.lt_irrefl _)
      · cases heq
    · intro hunbound
      have hrun : run disk 1 0 [] (.expand form scope) s = .ok form s :=
        run_expand_of_none (Option.not_isSome_iff_eq_none.1 hunbound)
      exact .of_run hrun trivial
  · have hform (eng : Engine) : Direct.value eng (.eval form scope) =
        Direct.special eng f scope args := by
      rw [Direct.value, Direct.form, SpecialForm.ofHead?, SpecialForm.ofName?_name]
    refine settles_run_iff_value.trans ?_
    simp only [hform]

namespace Session

/-- A session that binds a macro to the name of a special form: the form is evaluated as before, but
expands to what the macro makes of it. -/
theorem expansion_of_shadowed_choice :
    let w : World := { disk := fun _ ↦ none, depth := 9, steps := 9 }
    let s : Store := finalStore (Session.eval w "(defmacro! if (fn* (& xs) 42))" bare)
    let form : Value := .list none [.sym "if", .bool true, .int 1, .int 2]
    Reachable anything s ∧
      Evaluates w.disk (.eval form topLevel) s (.ok (.int 1) s) ∧
      (∃ s', Evaluates w.disk (.eval (expansionOf none form) topLevel) s (.ok (.int 42) s')) ∧
      ¬ Evaluates w.disk (.eval (expansionOf none form) topLevel) s (.ok form s) := by
  intro w s form
  have hreach : Reachable anything s := (reachable_bare w.disk).trans (Leads.refl.eval w _ trivial)
  have hvalue : run w.disk 9 9 [] (.eval form topLevel) s = .ok (.int 1) s := rfl
  obtain ⟨s', hends⟩ :
      ∃ s', Evaluates w.disk (.eval (expansionOf none form) topLevel) s (.ok (.int 42) s') := by
    let c : Closure Value := ⟨1, ⟨[], some "xs"⟩, .int 42, topLevel, true⟩
    have hread : Reader.read 9 "(defmacro! if (fn* (& xs) 42))" =
        .ok (.list none [.sym "defmacro!", .sym "if",
          .list none [.sym "fn*", .list none [.sym "&", .sym "xs"], .int 42]]) := rfl
    have hs : s = bare.nextSerial.2.nextSerial.2.define topLevel "if" (.fn c) := by
      rw [show s = finalStore (Session.eval w _ bare) from rfl, finalStore_eval, hread]
      rfl
    have hown : s.own? topLevel "if" = some (.fn c) := by
      rw [hs, Store.own?_define]
      exact if_pos ⟨rfl, Nat.one_pos, rfl⟩
    have hcall : s.macroCall? topLevel form = some (c, [.bool true, .int 1, .int 2]) :=
      Store.macroCall?_eq_some_iff.2 ⟨none, "if", .fn c, rfl, Store.get?_of_own? hown, rfl, rfl⟩
    obtain ⟨s', hturn⟩ : ∃ s', (Task.expand form topLevel).step
        ⟨9, w.disk, nested (fun room t ↦ run w.disk 8 room [] t) 9⟩ s =
          .ok (.next (.expand (.int 42) topLevel)) s' :=
      ⟨_, (stepExpand_of_some hcall _).trans rfl⟩
    have hrun : run w.disk 9 9 [] (.expand form topLevel) s = .ok (.int 42) s' := by
      rw [run_succ]
      simp only [Bind.bind, EStateM.bind, hturn]
      exact run_expand_of_none rfl
    exact ⟨s', evaluates_expansionOf_iff.2 (.of_run hrun trivial)⟩
  refine ⟨hreach, .of_run hvalue trivial, ⟨s', hends⟩, fun hkept ↦ ?_⟩
  have hsame := Lisplet.Settles.unique (x := fun eng ↦ eng.run _) hkept hends
  simp [form] at hsame

end Session

end Lisplet
