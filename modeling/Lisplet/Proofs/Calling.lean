import Lisplet.Proofs.Application
import Lisplet.Proofs.Chain
import Lisplet.Proofs.Loading

/-!
# Calls in a given room

What a run does with a call, when its room is fixed: a name has the value that it is bound to, a
built-in function is called on the values of its arguments (`ends_builtin`), a closure goes on with
its body (`turn_call`), and so do a macro (`turn_macro`) and what handles a throw (`turn_handler`),
each in a frame of its own.

A loop makes frame after frame.  What it needs to know of them is that the older ones stay as they
are (`Store.Keeps`), so that what is seen from them is still seen, and what a new one binds
(`Store.Opens`).
-/

set_option autoImplicit false

namespace Lisplet

/-! ## Frames that stay -/

namespace Store

variable {s s' s'' : Store} {f g : FrameId} {name : String} {v : Value}

/-- Every frame is as it was. -/
def Keeps (s s' : Store) : Prop := ∀ f, f < s.frames.size → s'.frames[f]? = s.frames[f]?

namespace Keeps

theorem frames_size_le (h : s.Keeps s') : s.frames.size ≤ s'.frames.size := by
  refine Nat.le_of_not_lt fun hlt ↦ ?_
  have hsame := h s'.frames.size hlt
  rw [Array.getElem?_eq_none (Nat.le_refl _), Array.getElem?_eq_getElem hlt] at hsame
  cases hsame

theorem trans (h : s.Keeps s') (h' : s'.Keeps s'') : s.Keeps s'' := fun f hf ↦
  (h' f (Nat.lt_of_lt_of_le hf h.frames_size_le)).trans (h f hf)

theorem of_frames_eq (h : s'.frames = s.frames) : s.Keeps s' := fun _ _ ↦ by rw [h]

theorem addFrame (s : Store) (outer : Option FrameId) (vars : Dict String Value) :
    s.Keeps (s.addFrame outer vars).2 := fun f hf ↦ by
  simp only [Store.addFrame, Array.getElem?_push, if_neg (Nat.ne_of_lt hf)]

theorem own?_eq (h : s.Keeps s') (hf : f < s.frames.size) : s'.own? f name = s.own? f name := by
  rw [own?, own?, h f hf]

theorem outer?_eq (h : s.Keeps s') (hf : f < s.frames.size) : s'.outer? f = s.outer? f := by
  rw [outer?, outer?, h f hf]

/-- What is seen from a frame is seen as before. -/
theorem get?_eq (h : s.Keeps s') (hf : f < s.frames.size) : s'.get? f name = s.get? f name := by
  induction f using Nat.strongRecOn with
  | ind f ih =>
    cases hown : s.own? f name with
    | some v => rw [get?_of_own? hown, get?_of_own? ((h.own?_eq hf).trans hown)]
    | none =>
      have hown' : s'.own? f name = none := (h.own?_eq hf).trans hown
      cases houter : s.outer? f with
      | none =>
        have houter' : s'.outer? f = none := (h.outer?_eq hf).trans houter
        rw [get?_of_outer?_eq_none houter, get?_of_outer?_eq_none houter', hown, hown']
      | some g =>
        have hlt : g < f := lt_of_outer? houter
        rw [get?_of_outer? hown houter, get?_of_outer? hown' ((h.outer?_eq hf).trans houter)]
        exact ih g hlt (Nat.lt_trans hlt hf)

end Keeps

/-- The name is bound to a closure, under whatever metadata. -/
def Binds (s : Store) (f : FrameId) (name : String) (c : Closure Value) : Prop :=
  ∃ v, s.get? f name = some v ∧ v.bare = .fn c

theorem Binds.keeps {c : Closure Value} (h : s.Binds f name c) (hs : s.Keeps s') :
    s'.Binds f name c := by
  obtain ⟨v, hget, hv⟩ := h
  exact ⟨v, (hs.get?_eq (lt_size_of_get? hget)).trans hget, hv⟩

theorem Resolves.keeps {op : Builtin} (h : s.Resolves f op) (hs : s.Keeps s') :
    s'.Resolves f op := by
  obtain ⟨v, home, hget, hv⟩ := h
  exact ⟨v, home, (hs.get?_eq (lt_size_of_get? hget)).trans hget, hv⟩

theorem Binds.lt_size {c : Closure Value} (h : s.Binds f name c) : f < s.frames.size := by
  obtain ⟨v, hget, -⟩ := h
  exact lt_size_of_get? hget

/-- The frame is inside another one and binds just these names. -/
structure Opens (s : Store) (f g : FrameId) (vars : List (String × Value)) : Prop where
  outer : s.outer? f = some g
  own : ∀ name, s.own? f name = (Dict.ofList vars).get? name

namespace Opens

variable {vars : List (String × Value)}

/-- The frame of a call. -/
theorem new (hg : g < s.frames.size) (vars : List (String × Value)) :
    (s.addFrame (some g) (.ofList vars)).2.Opens s.frames.size g vars where
  outer := outer?_addFrame_self hg _
  own name := by rw [own?_addFrame, if_pos rfl]

theorem lt_size (h : s.Opens f g vars) : f < s.frames.size :=
  lt_size_of_isSome_outer? (by rw [h.outer]; rfl)

theorem keeps (h : s.Opens f g vars) (hs : s.Keeps s') : s'.Opens f g vars where
  outer := (hs.outer?_eq h.lt_size).trans h.outer
  own name := (hs.own?_eq h.lt_size).trans (h.own name)

theorem get?_own (h : s.Opens f g vars) (hname : (Dict.ofList vars).get? name = some v) :
    s.get? f name = some v :=
  get?_of_own? ((h.own name).trans hname)

theorem get?_outer (h : s.Opens f g vars) (hname : (Dict.ofList vars).get? name = none) :
    s.get? f name = s.get? g name :=
  get?_of_outer? ((h.own name).trans hname) h.outer

theorem resolves {op : Builtin} (h : s.Opens f g vars) (hop : s.Resolves g op)
    (hname : (Dict.ofList vars).get? op.name = none) : s.Resolves f op := by
  obtain ⟨v, home, hget, hv⟩ := hop
  exact ⟨v, home, (h.get?_outer hname).trans hget, hv⟩

theorem binds {c : Closure Value} (h : s.Opens f g vars) (hc : s.Binds g name c)
    (hname : (Dict.ofList vars).get? name = none) : s.Binds f name c := by
  obtain ⟨v, hget, hv⟩ := hc
  exact ⟨v, (h.get?_outer hname).trans hget, hv⟩

end Opens

end Store

/-! ## Evaluation in a given room -/

/-- The form of a call by name. -/
def Value.call (name : String) (args : List Value) : Value := .list none (.sym name :: args)

namespace Moment

variable {disk : Disk} {room : Nat} {s s₁ s₂ : Store} {f : FrameId} {form v : Value}
  {args vs : List Value} {name : String} {sites : List FrameId} {l : Option Label} {op : Builtin}
  {c : Closure Value} {e : Failure}

/-- Inside a step, a form is evaluated in one unit of room less. -/
theorem Ends.inside {r : EStateM.Result Failure Store Value}
    (h : (start form f s).Ends disk room r) :
    Inside disk (room + 1) (fun eng ↦ eng.eval f form) s r := h

theorem ends_name (h : s.get? f name = some v) :
    (start (.sym name) f s).Ends disk room (.ok v s) := by
  refine Steps.ends_ok (reaches_of_forall trivial fun n ↦ ?_)
  simp only [Task.step, Task.stepEval, Scope.lookup, bind_assoc, get_bind_apply, h]
  rfl

theorem ends_itself (h : ∀ eng, Task.stepEval eng f form = pure (.done form)) :
    (start form f s).Ends disk room (.ok form s) := by
  refine Steps.ends_ok (reaches_of_forall trivial fun n ↦ ?_)
  simp only [Task.step, h]
  rfl

theorem ends_quoted (v : Value) : (start (quoted v) f s).Ends disk room (.ok v s) :=
  Steps.ends_ok (reaches_of_forall trivial fun _ ↦ rfl)

/-- The arguments have these values, one after the other. -/
inductive ArgumentsEnd (disk : Disk) (room : Nat) (f : FrameId) :
    Store → List Value → List Value → Store → Prop
  | nil (s : Store) : ArgumentsEnd disk room f s [] [] s
  | cons {s s₁ s₂ : Store} {form v : Value} {forms vs : List Value}
      (h : (start form f s).Ends disk room (.ok v s₁))
      (hforms : ArgumentsEnd disk room f s₁ forms vs s₂) :
      ArgumentsEnd disk room f s (form :: forms) (v :: vs) s₂

theorem ArgumentsEnd.inside (h : ArgumentsEnd disk room f s args vs s₁) :
    Inside disk (room + 1) (fun eng ↦ args.mapM (eng.eval f)) s (.ok vs s₁) := by
  induction h with
  | nil s => exact reaches_pure []
  | cons h hforms ih =>
    simp only [List.mapM_cons]
    exact reaches_bind h (reaches_bind ih (reaches_pure _))

/-- With no room a call cannot even look up what it calls. -/
theorem steps_zero {head : Value} (hhead : SpecialForm.ofHead? head = none) :
    Steps disk 0 ⟨sites, .eval (.list l (head :: args)) f, s⟩ (.error .overflow s) := by
  simp only [Steps, TailCall.step_combination hhead, Task.stepCombination]
  exact reaches_bind_of_error (reaches_of_forall trivial fun _ ↦ rfl)

/-- The step of a call of a built-in function by its name. -/
theorem steps_builtin {q : EStateM.Result Failure Store Step} (hop : s.Resolves f op)
    (hargs : ArgumentsEnd disk room f s args vs s₁)
    (hcall : Inside disk (room + 1) (fun eng ↦ op.call eng f vs >>= fun v ↦ pure (.done v)) s₁ q) :
    Steps disk (room + 1) ⟨sites, .eval (.list l (.sym op.name :: args)) f, s⟩ q := by
  obtain ⟨v, home, hget, hv⟩ := hop
  have hhead : SpecialForm.ofHead? (.sym op.name) = none := op.ofName?_name_eq_none
  simp only [Steps, TailCall.step_combination hhead, Task.stepCombination]
  refine reaches_bind (ends_name hget) ?_
  simp only [hv]
  exact reaches_bind hargs.inside hcall

/-- It fails where an argument does. -/
theorem steps_builtin_of_error (init rest : List Value) (hop : s.Resolves f op)
    (hinit : ArgumentsEnd disk room f s init vs s₁)
    (hform : (start form f s₁).Ends disk room (.error e s₂)) :
    Steps disk (room + 1) ⟨sites, .eval (.list l (.sym op.name :: (init ++ form :: rest))) f, s⟩
      (.error e s₂) := by
  obtain ⟨v, home, hget, hv⟩ := hop
  have hhead : SpecialForm.ofHead? (.sym op.name) = none := op.ofName?_name_eq_none
  simp only [Steps, TailCall.step_combination hhead, Task.stepCombination]
  refine reaches_bind (ends_name hget) ?_
  simp only [hv, List.mapM_append, bind_assoc, List.mapM_cons]
  exact reaches_bind hinit.inside (reaches_bind_of_error hform)

/-- A built-in function that is called by its name has done so at once, if it calls nothing. -/
theorem ends_builtin (hop : s.Resolves f op) (hargs : ArgumentsEnd disk room f s args vs s₁)
    (hcall : ∀ n, op.call (.stepping disk n (room + 1)) f vs s₁ = .ok v s₂) :
    (start (.list l (.sym op.name :: args)) f s).Ends disk (room + 1) (.ok v s₂) :=
  (steps_builtin hop hargs
    (reaches_bind (reaches_of_forall trivial hcall) (reaches_pure _))).ends_ok

/-- A built-in function that throws does so at once. -/
theorem ends_builtin_of_throw {payload : Value} (hop : s.Resolves f op)
    (hargs : ArgumentsEnd disk room f s args vs s₁)
    (hcall : ∀ n, op.call (.stepping disk n (room + 1)) f vs s₁ = .error (.thrown payload) s₂) :
    (start (.list l (.sym op.name :: args)) f s).Ends disk (room + 1)
      (.error (.thrown payload) s₂) := by
  have hthrown : Inside disk (room + 1) (fun eng ↦ op.call eng f vs) s₁
      (.error (.thrown payload) s₂) := reaches_of_forall trivial hcall
  exact (steps_builtin hop hargs (reaches_bind_of_error hthrown)).ends_error

/-- A call of a closure by its name goes on with its body, in a frame of its own. -/
theorem turn_call (hname : SpecialForm.ofName? name = none) (hc : s.Binds f name c)
    (hkind : c.isMacro = false) (hrest : c.params.rest = none)
    (hargs : ArgumentsEnd disk room f s args vs s₁)
    (hlength : c.params.formals.length = vs.length) :
    Turn disk (room + 1) ⟨sites, .eval (.list l (.sym name :: args)) f, s⟩
      ⟨sites, .eval c.body s₁.frames.size,
        (s₁.addFrame (some c.scope) (.ofList (c.params.formals.zip vs))).2⟩ := by
  obtain ⟨v, hget, hv⟩ := hc
  have hhead : SpecialForm.ofHead? (.sym name) = none := hname
  refine (TailCall.body hhead (ends_name hget).inside hv hkind hargs.inside ?_).turn
  have haccepts : c.params.Accepts vs.length := ⟨by omega, fun _ ↦ by omega⟩
  refine reaches_of_forall trivial fun n ↦ ?_
  simp only [Engine.enter, hrest, Params.bind, if_pos haccepts, Option.map_none,
    Option.toList_none, List.append_nil]
  rfl

/-- A call of a macro by its name, if it takes any number of forms, goes on with its body, in a
frame of its own, and its code is awaited. -/
theorem turn_macro (disk : Disk) (room : Nat) (sites : List FrameId) (l : Option Label)
    {rest : String} (hname : SpecialForm.ofName? name = none) (hc : s.Binds f name c)
    (hkind : c.isMacro = true) (hparams : c.params = ⟨[], some rest⟩)
    (hscope : c.scope < s.frames.size) (args : List Value) :
    ∃ s' f' l', s.Keeps s' ∧ s'.Opens f' c.scope [(rest, .list l' args)] ∧
      Turn disk (room + 1) ⟨sites, .eval (.list l (.sym name :: args)) f, s⟩
        ⟨f :: sites, .eval c.body f', s'⟩ := by
  obtain ⟨v, hget, hv⟩ := hc
  have hhead : SpecialForm.ofHead? (.sym name) = none := hname
  have hopens := Store.Opens.new (s := s.nextSerial.2) hscope
    [(rest, .list (some ⟨s.serials, []⟩) args)]
  refine ⟨_, _, _, .addFrame s.nextSerial.2 _ _, hopens,
    (TailCall.macroBody hhead (ends_name hget).inside hv hkind ?_).turn⟩
  refine reaches_of_forall trivial fun n ↦ ?_
  have haccepts : Params.Accepts ⟨[], some rest⟩ args.length := ⟨Nat.zero_le _, nofun⟩
  simp only [Engine.enter, hparams, Params.bind, if_pos haccepts]
  rfl

/-- A condition that fails is all there is. -/
theorem steps_choice_of_error {positive negative : Value}
    (h : (start form f s).Ends disk room (.error e s₁)) :
    Steps disk (room + 1) ⟨sites, .eval (.list l [.sym "if", form, positive, negative]) f, s⟩
      (.error e s₁) := by
  have hstep (eng : Engine) :
      (Task.eval (.list l [.sym "if", form, positive, negative]) f).step eng =
        SpecialForm.stepChoice eng f [form, positive, negative] := rfl
  simp only [Steps, hstep, SpecialForm.stepChoice, pure_bind]
  exact reaches_bind_of_error h

theorem step_attempt (eng : Engine) (body clause : Value) :
    (Task.eval (attemptOf l body clause) f).step eng =
      SpecialForm.stepAttempt eng f [body, clause] := rfl

/-- An attempt that succeeds is all there is. -/
theorem ends_attempt_of_ok {body clause : Value}
    (h : (start body f s).Ends disk room (.ok v s₁)) :
    (start (attemptOf l body clause) f s).Ends disk (room + 1) (.ok v s₁) := by
  refine Steps.ends_ok ?_
  simp only [Steps, step_attempt, SpecialForm.stepAttempt]
  exact reaches_bind h.inside.caught (reaches_pure _)

/-- No clause catches that there is no room. -/
theorem ends_attempt_of_overflow {body clause : Value}
    (h : (start body f s).Ends disk room (.error .overflow s₁)) :
    (start (attemptOf l body clause) f s).Ends disk (room + 1) (.error .overflow s₁) := by
  refine Steps.ends_error ?_
  simp only [Steps, start, step_attempt, SpecialForm.stepAttempt]
  exact reaches_bind_of_error h.inside.caught

/-- An attempt whose body throws goes on with the handler, in a frame of its own. -/
theorem turn_handler {lc : Option Label} {body handler payload : Value} {text : String}
    (h : (start body f s).Ends disk room (.error (.thrown payload) s₁))
    (hf : f < s₁.frames.size) (hprint : payload.print s₁.atoms .readable (room + 1) = some text) :
    ∃ s' f', s₁.Keeps s' ∧ s'.Opens f' f [(name, payload)] ∧
      Turn disk (room + 1) (start (attemptOf l body (catching lc name handler)) f s)
        (start handler f' s') :=
  ⟨_, _, .addFrame s₁ (some f) _, .new hf _, (TailCall.handler h.inside hprint).turn⟩

/-- **Counting down.**  If every moment of a number leads to one of the number before, then all of
them end as those of zero do, and so does what leads to one of them. -/
theorem exists_ends_of_chain {P : Nat → Moment → Prop} {k : Nat} {m : Moment}
    (hcall : ∃ m', Turn disk room m m' ∧ P k m')
    (hsucc : ∀ k m, P (k + 1) m → ∃ m', Chain disk room m m' ∧ P k m')
    (hzero : ∀ m, P 0 m → ∃ s, m.Ends disk room (.ok v s)) : ∃ s, m.Ends disk room (.ok v s) := by
  have hcount (k : Nat) : ∀ m, P k m → ∃ s, m.Ends disk room (.ok v s) := by
    induction k with
    | zero => exact hzero
    | succ k ih =>
      intro m h
      obtain ⟨m', hchain, h'⟩ := hsucc k m h
      obtain ⟨s, hs⟩ := ih m' h'
      exact ⟨s, hchain.ends_iff.2 hs⟩
  obtain ⟨m', hturn, h'⟩ := hcall
  obtain ⟨s, hs⟩ := hcount k m' h'
  exact ⟨s, hturn.ends_iff.2 hs⟩

/-- **What overflows in one room and not in another** leaves more room to the second.  If all that is
asked for is enough in one unit more, it is enough there. -/
theorem exists_ends_of_not_overflows {least : Nat} {m m₀ : Moment}
    (hover : m₀.Overflows disk least) (hroom : ¬m₀.Overflows disk room)
    (hends : ∀ r, ∃ s, m.Ends disk (r + (least + 1)) (.ok v s)) :
    ∃ s, m.Ends disk room (.ok v s) := by
  have hlt : least < room := Nat.lt_of_not_le fun hle ↦ hroom (hover.mono hle)
  obtain ⟨r, rfl⟩ := Nat.exists_eq_add_of_le' hlt
  exact hends r

end Moment

end Lisplet
