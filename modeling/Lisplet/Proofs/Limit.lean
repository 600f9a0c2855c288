import Lisplet.Proofs.Refinement

/-!
# What computations come to when enough is granted

A rule of evaluation is written against an engine, and what it ends in depends on the steps and the
room that the engine grants.  `Settles disk x s r` says what the rule ends in when these are left
aside: whatever is granted, if only it is enough, `x` ends in `r`, and `r` is an answer.  Of a rule
that does nothing but evaluate a task this is `Evaluates`.

Settling goes through sequences of computations (`settles_bind_iff`).  That needs one thing: what is
done first must not lose its answer when more is granted (`Growing`), as no evaluation does.  So
what an evaluation settles in can be computed by rewriting, one evaluation after the other, as if
nothing were ever granted or used up.  The step that such computations start from is that an
evaluation settles where its rule does (`settles_run_iff_value`).
-/

set_option autoImplicit false

namespace Lisplet

variable {α β : Type} {disk : Disk} {s s₁ : Store}

/-- The engine that grants so many steps and so much room. -/
def Engine.granted (disk : Disk) (steps room : Nat) : Engine :=
  ⟨room, disk, Lisplet.run disk steps room []⟩

/-- **A computation settles** in `r` if it ends so whenever its engine grants enough. -/
def Settles (disk : Disk) (x : Engine → Eval α) (s : Store)
    (r : EStateM.Result Failure Store α) : Prop :=
  Settled r ∧ ∃ enough, ∀ steps room, enough ≤ steps → enough ≤ room →
    x (.granted disk steps room) s = r

/-- A computation keeps its answer when more is granted. -/
def Growing (disk : Disk) (x : Engine → Eval α) : Prop :=
  ∀ ⦃steps steps' room room' : Nat⦄, steps ≤ steps' → room ≤ room' → ∀ s,
    Settled (x (.granted disk steps room) s) →
      x (.granted disk steps' room') s = x (.granted disk steps room) s

/-! ## Growing -/

/-- A sequence that ends in a value has gone through both of its parts. -/
theorem exists_of_bind_ok {x : Eval α} {f : α → Eval β} {b : β} (h : (x >>= f) s = .ok b s₁) :
    ∃ a s₂, x s = .ok a s₂ ∧ f a s₂ = .ok b s₁ := by
  cases hx : x s with
  | ok a s₂ =>
    simp only [Bind.bind, EStateM.bind, hx] at h
    exact ⟨a, s₂, rfl, h⟩
  | error e s₂ =>
    simp only [Bind.bind, EStateM.bind, hx] at h
    cases h

theorem get_bind_apply (f : Store → Eval α) (s : Store) : (get >>= f) s = f s s := rfl

/-- An error is worded in the store where it happens. -/
theorem Engine.fail_apply (eng : Engine) (e : EvalError) (s : Store) :
    (eng.fail e : Eval α) s =
      (Engine.fit (e.message s.atoms eng.room) >>= fun message ↦ throw (.error e message)) s := rfl

/-- The failure that raising an error comes to: without room to word the error, an overflow. -/
def Engine.failure (eng : Engine) (heap : Heap) (e : EvalError) : Failure :=
  match e.message heap eng.room with
  | some message => .error e message
  | none => .overflow

theorem Engine.fail_eq (eng : Engine) (s : Store) (e : EvalError) :
    (eng.fail e : Eval α) s = .error (eng.failure s.atoms e) s := by
  rw [Engine.fail_apply, Engine.failure]
  cases e.message s.atoms eng.room <;> rfl

namespace Growing

variable {x : Engine → Eval α} {f : Engine → α → Eval β}

theorem const (x : Eval α) : Growing disk fun _ ↦ x :=
  fun _ _ _ _ _ _ _ _ ↦ rfl

theorem run (t : Task) : Growing disk fun eng ↦ eng.run t :=
  fun _ _ _ _ hsteps hroom _ hs ↦ (run_mono disk hsteps hroom [] t).eq_of_settled hs

theorem eval (scope : FrameId) (form : Value) : Growing disk fun eng ↦ eng.eval scope form :=
  run _

/-- Nothing settles after something that has not. -/
theorem settled_of_bind {x : Eval α} {f : α → Eval β} (h : Settled ((x >>= f) s)) :
    Settled (x s) := by
  cases hx : x s with
  | ok a s₁ => trivial
  | error e s₁ =>
    have hbind : (x >>= f) s = .error e s₁ := by
      simp only [Bind.bind, EStateM.bind, hx]
    rw [hbind] at h
    exact h.error

theorem bind (hx : Growing disk x) (hf : ∀ a, Growing disk fun eng ↦ f eng a) :
    Growing disk fun eng ↦ x eng >>= f eng := by
  intro steps steps' room room' hsteps hroom s hs
  have hfirst := hx hsteps hroom s (settled_of_bind hs)
  simp only [Bind.bind, EStateM.bind, hfirst] at hs ⊢
  split
  · rename_i a s₁ heq
    simp only [heq] at hs
    exact hf a hsteps hroom s₁ hs
  · rfl

theorem forM {f : Engine → α → Eval PUnit} (hf : ∀ a, Growing disk fun eng ↦ f eng a)
    (xs : List α) : Growing disk fun eng ↦ xs.forM (f eng) := by
  induction xs with
  | nil => exact const _
  | cons a xs ih => exact bind (hf a) fun _ ↦ ih

theorem mapM {f : Engine → α → Eval β} (hf : ∀ a, Growing disk fun eng ↦ f eng a)
    (xs : List α) : Growing disk fun eng ↦ xs.mapM (f eng) := by
  induction xs with
  | nil => exact const _
  | cons a xs ih =>
    simp only [List.mapM_cons]
    exact bind (hf a) fun _ ↦ bind ih fun _ ↦ const _

/-- An error has one message, if there is room for it. -/
theorem fail (e : EvalError) : Growing disk fun eng ↦ (eng.fail e : Eval α) := by
  intro steps steps' room room' _ hroom s hs
  simp only [Engine.fail_apply, Engine.granted] at hs ⊢
  cases hm : e.message s.atoms room with
  | none =>
    rw [hm] at hs
    exact hs.elim
  | some message => rw [EvalError.message_within hroom e message hm]

theorem lift (x : Except Fault α) : Growing disk fun eng ↦ eng.lift x := by
  match x with
  | .ok a => exact const _
  | .error (.error e) => exact fail e
  | .error (.thrown payload) => exact const _
  | .error .tooDeep => exact const _

theorem accept (x : Except EvalError α) : Growing disk fun eng ↦ eng.accept x := by
  match x with
  | .ok a => exact const _
  | .error e => exact fail e

theorem print (style : PrintStyle) (sep : String) (vs : List Value) :
    Growing disk fun eng ↦ eng.print style sep vs := by
  intro steps steps' room room' _ hroom s hs
  simp only [Engine.print, get_bind_apply, Engine.granted] at hs ⊢
  cases hp : Value.printAll s.atoms style room sep vs with
  | none =>
    rw [hp] at hs
    exact hs.elim
  | some text => rw [Value.printAll_within hroom sep vs text hp]

theorem enter (c : Closure Value) (args : List Value) :
    Growing disk fun eng ↦ eng.enter c args :=
  .bind (.const _) fun label ↦ .bind (.accept (c.params.bind label args)) fun _ ↦ .const _

theorem apply (c : Closure Value) (args : List Value) :
    Growing disk fun eng ↦ Direct.apply eng c args :=
  .bind (.enter c args) fun inner ↦ .eval inner c.body

end Growing

/-! ## Settling -/

section

variable {x y : Engine → Eval α} {f g : Engine → α → Eval β} {a : α} {e : Failure}
  {r r' : EStateM.Result Failure Store α} {q : EStateM.Result Failure Store β}

theorem Growing.settles (hx : Growing disk x) {steps room : Nat}
    (h : x (.granted disk steps room) s = r) (hr : Settled r) : Settles disk x s r := by
  refine ⟨hr, max steps room, fun steps' room' hsteps hroom ↦ ?_⟩
  have hle := hx (Nat.le_trans (Nat.le_max_left _ _) hsteps)
    (Nat.le_trans (Nat.le_max_right _ _) hroom) s (h ▸ hr)
  exact hle.trans h

theorem Settles.unique (h : Settles disk x s r) (h' : Settles disk x s r') : r = r' := by
  obtain ⟨-, m, hm⟩ := h
  obtain ⟨-, n, hn⟩ := h'
  have hm := hm (max m n) (max m n) (Nat.le_max_left m n) (Nat.le_max_left m n)
  have hn := hn (max m n) (max m n) (Nat.le_max_right m n) (Nat.le_max_right m n)
  exact hm.symm.trans hn

/-- Computations that settle in the same settle alike. -/
theorem Settles.settles_iff (hx : Settles disk x s r) (hy : Settles disk y s₁ r) :
    Settles disk x s r' ↔ Settles disk y s₁ r' :=
  ⟨fun h ↦ h.unique hx ▸ hy, fun h ↦ h.unique hy ▸ hx⟩

theorem settles_const_iff {x : Eval α} : Settles disk (fun _ ↦ x) s r ↔ Settled r ∧ x s = r := by
  constructor
  · rintro ⟨hr, n, h⟩
    exact ⟨hr, h n n (Nat.le_refl n) (Nat.le_refl n)⟩
  · rintro ⟨hr, h⟩
    exact ⟨hr, 0, fun _ _ _ _ ↦ h⟩

theorem settles_pure (a : α) : Settles disk (fun _ ↦ pure a) s (.ok a s) :=
  settles_const_iff.2 ⟨trivial, rfl⟩

/-- Computations that come to the same when enough is granted settle alike. -/
theorem Settles.congr (h : Settles disk x s r)
    (hxy : ∃ enough, ∀ steps room, enough ≤ steps → enough ≤ room →
      y (.granted disk steps room) s₁ = x (.granted disk steps room) s) : Settles disk y s₁ r := by
  obtain ⟨hr, m, hm⟩ := h
  obtain ⟨n, hn⟩ := hxy
  refine ⟨hr, max m n, fun steps room hsteps hroom ↦ ?_⟩
  rw [hn steps room (Nat.le_trans (Nat.le_max_right m n) hsteps)
    (Nat.le_trans (Nat.le_max_right m n) hroom)]
  exact hm steps room (Nat.le_trans (Nat.le_max_left m n) hsteps)
    (Nat.le_trans (Nat.le_max_left m n) hroom)

/-- **What has settled is over**: what comes behind it starts from there. -/
theorem settles_bind_of_ok (hx : Settles disk x s (.ok a s₁)) :
    Settles disk (fun eng ↦ x eng >>= f eng) s q ↔ Settles disk (fun eng ↦ f eng a) s₁ q := by
  obtain ⟨-, m, hm⟩ := hx
  have heq (steps room : Nat) (hsteps : m ≤ steps) (hroom : m ≤ room) :
      (x (.granted disk steps room) >>= f (.granted disk steps room)) s =
        f (.granted disk steps room) a s₁ := by
    simp only [Bind.bind, EStateM.bind, hm steps room hsteps hroom]
  constructor
  · exact fun h ↦ h.congr ⟨m, fun steps room hsteps hroom ↦ (heq steps room hsteps hroom).symm⟩
  · exact fun h ↦ h.congr ⟨m, heq⟩

/-- Nothing comes behind a failure. -/
theorem settles_bind_of_error (hx : Settles disk x s (.error e s₁)) :
    Settles disk (fun eng ↦ x eng >>= f eng) s (.error e s₁) := by
  obtain ⟨he, m, hm⟩ := hx
  refine ⟨he.error, m, fun steps room hsteps hroom ↦ ?_⟩
  simp only [Bind.bind, EStateM.bind, hm steps room hsteps hroom]

/-- **A sequence settles** where its second part does after the first, or where the first part
fails. -/
theorem settles_bind_iff (hx : Growing disk x) :
    Settles disk (fun eng ↦ x eng >>= f eng) s q ↔
      (∃ a s₁, Settles disk x s (.ok a s₁) ∧ Settles disk (fun eng ↦ f eng a) s₁ q) ∨
        ∃ e s₁, Settles disk x s (.error e s₁) ∧ q = .error e s₁ := by
  constructor
  · intro h
    obtain ⟨hq, n, hn⟩ := h
    have hbind := hn n n (Nat.le_refl n) (Nat.le_refl n)
    have hx := hx.settles (s := s) rfl (Growing.settled_of_bind (hbind ▸ hq))
    cases hr : x (.granted disk n n) s with
    | ok a s₁ =>
      rw [hr] at hx
      exact .inl ⟨a, s₁, hx, (settles_bind_of_ok hx).1 ⟨hq, n, hn⟩⟩
    | error e s₁ =>
      rw [hr] at hx
      exact .inr ⟨e, s₁, hx, Settles.unique ⟨hq, n, hn⟩ (settles_bind_of_error hx)⟩
  · rintro (⟨a, s₁, hx, hf⟩ | ⟨e, s₁, hx, rfl⟩)
    · exact (settles_bind_of_ok hx).2 hf
    · exact settles_bind_of_error hx

/-- If a sequence settles, so does its first part. -/
theorem exists_settles_of_bind (hx : Growing disk x)
    (h : Settles disk (fun eng ↦ x eng >>= f eng) s q) : ∃ r, Settles disk x s r := by
  obtain ⟨a, s₁, hx, -⟩ | ⟨e, s₁, hx, -⟩ := (settles_bind_iff hx).1 h
  · exact ⟨_, hx⟩
  · exact ⟨_, hx⟩

/-- Sequences settle alike if their parts do. -/
theorem settles_bind_congr (hx : Growing disk x) (hy : Growing disk y)
    (hxy : ∀ r, Settles disk x s r ↔ Settles disk y s r)
    (hfg : ∀ a s₁, Settles disk y s (.ok a s₁) →
      (Settles disk (fun eng ↦ f eng a) s₁ q ↔ Settles disk (fun eng ↦ g eng a) s₁ q)) :
    Settles disk (fun eng ↦ x eng >>= f eng) s q ↔
      Settles disk (fun eng ↦ y eng >>= g eng) s q := by
  rw [settles_bind_iff hx, settles_bind_iff hy]
  refine or_congr (exists_congr fun a ↦ exists_congr fun s₁ ↦ ?_) ?_
  · rw [hxy]
    exact and_congr_right (hfg a s₁)
  · simp only [hxy]

/-- What is done first can be replaced by what it settles in. -/
theorem settles_bind_iff_of_settles (hx : Settles disk x s r) :
    Settles disk (fun eng ↦ x eng >>= f eng) s q ↔
      Settles disk (fun eng ↦ (fun _ ↦ r) >>= f eng) s₁ q := by
  obtain ⟨-, n, hn⟩ := hx
  have heq (steps room : Nat) (hsteps : n ≤ steps) (hroom : n ≤ room) :
      (x (.granted disk steps room) >>= f (.granted disk steps room)) s =
        ((fun _ ↦ r) >>= f (.granted disk steps room)) s₁ := by
    simp only [Bind.bind, EStateM.bind, hn steps room hsteps hroom]
  constructor
  · exact fun h ↦ h.congr ⟨n, fun steps room hsteps hroom ↦ (heq steps room hsteps hroom).symm⟩
  · exact fun h ↦ h.congr ⟨n, heq⟩

end

/-! ## Evaluations -/

/-- The rules for tasks refine each other if the evaluations inside them do. -/
theorem Refines.value (disk : Disk) {room room' : Nat} {go go' : Task → Eval Value}
    (hroom : room ≤ room') (h : ∀ t, Refines (go t) (go' t)) (t : Task) :
    Refines (Direct.value ⟨room, disk, go⟩ t) (Direct.value ⟨room', disk, go'⟩ t) := by
  rw [Direct.value_eq, Direct.value_eq]
  refine .bind (.step hroom h t) fun st ↦ ?_
  cases st with
  | done v => exact .pure v
  | next t => exact h t
  | code t site => exact .bind (h t) fun code ↦ h _

/-- **An evaluation settles where its rule does.** -/
theorem settles_run_iff_value {t : Task} {r : EStateM.Result Failure Store Value} :
    Settles disk (fun eng ↦ eng.run t) s r ↔ Settles disk (fun eng ↦ Direct.value eng t) s r := by
  constructor
  · rintro ⟨hr, n, h⟩
    have hrun : run disk n n [] t s = r := h n n (Nat.le_refl n) (Nat.le_refl n)
    -- one level of evaluation in direct style more, and the rule shows
    have hdirect : Direct.evaluate disk (n + n + 1) t s = r :=
      ((run_refines_direct disk (Nat.le_succ (n + n)) t).eq_of_settled (hrun ▸ hr)).trans hrun
    rw [Direct.evaluate] at hdirect
    refine ⟨hr, max (Direct.stepsOf (n + n)) (n + n), fun steps room hsteps hroom ↦ ?_⟩
    have hvalue := Refines.value disk (Nat.le_trans (Nat.le_max_right _ _) hroom)
      (direct_refines_run disk (Nat.le_trans (Nat.le_max_left _ _) hsteps)
        (Nat.le_trans (Nat.le_max_right _ _) hroom)) t
    exact (hvalue.eq_of_settled (hdirect ▸ hr)).trans hdirect
  · rintro ⟨hr, n, h⟩
    have hvalue : Direct.value (.granted disk n n) t s = r := h n n (Nat.le_refl n) (Nat.le_refl n)
    have hdirect : Direct.evaluate disk (n + n + 1) t s = r := by
      have href := Refines.value disk (Nat.le_add_left n n)
        (run_refines_direct disk (Nat.le_refl (n + n))) t
      exact (href.eq_of_settled (hvalue ▸ hr)).trans hvalue
    have href := direct_refines_run disk (Nat.le_refl _) (Nat.le_refl (n + n + 1)) t
    exact (Growing.run t).settles ((href.eq_of_settled (hdirect ▸ hr)).trans hdirect) hr

/-- What a run's step comes to, it comes to wherever enough is granted. -/
theorem settles_step {steps room : Nat} {t : Task} {q : EStateM.Result Failure Store Step}
    (h : t.step ⟨room, disk, nested (fun room t ↦ run disk steps room [] t) room⟩ s = q)
    (hq : Settled q) : Settles disk (fun eng ↦ t.step eng) s q := by
  refine ⟨hq, max steps room, fun steps' room' hsteps hroom ↦ ?_⟩
  replace hsteps : steps ≤ steps' := Nat.le_trans (Nat.le_max_left _ _) hsteps
  replace hroom : room ≤ room' := Nat.le_trans (Nat.le_max_right _ _) hroom
  have href : Refines (t.step ⟨room, disk, nested (fun room t ↦ run disk steps room [] t) room⟩)
      (t.step (.granted disk steps' room')) := by
    refine .step hroom (fun t ↦ ?_) t
    cases room with
    | zero => exact .overflow
    | succ room => exact run_mono disk hsteps (Nat.le_of_succ_le hroom) [] t
  exact (href.eq_of_settled (h ▸ hq)).trans h

/-- Whatever an evaluation ends in, it has only extended the store. -/
theorem Settles.extends_run {t : Task} {r : EStateM.Result Failure Store Value}
    (h : Settles disk (fun eng ↦ eng.run t) s r) :
    s.Extends (finalStore r) := by
  obtain ⟨-, n, h⟩ := h
  rw [← h n n (Nat.le_refl n) (Nat.le_refl n)]
  have hrun := run_mono disk (Nat.le_refl n) (Nat.le_refl n) [] t
  exact (hrun s s (.refl s) (Law.holds_free s)).1.final.1

/-! ## Names and calls by name -/

section

variable {f : FrameId} {name : String} {v : Value} {op : Builtin}
  {r : EStateM.Result Failure Store Value}

theorem settles_of_forall {x : Engine → Eval α} {r : EStateM.Result Failure Store α}
    (hr : Settled r) (h : ∀ eng, x eng s = r) : Settles disk x s r :=
  ⟨hr, 0, fun _ _ _ _ ↦ h _⟩

/-- A value that is its own value settles at once. -/
theorem settles_itself_iff (hself : ∀ eng, Direct.form eng f v = pure v) :
    Settles disk (fun eng ↦ eng.eval f v) s r ↔ Settles disk (fun _ ↦ pure v) s r := by
  refine settles_run_iff_value.trans ?_
  simp only [Direct.value, hself]

theorem settles_itself (hself : ∀ eng, Direct.form eng f v = pure v) :
    Settles disk (fun eng ↦ eng.eval f v) s (.ok v s) :=
  (settles_itself_iff hself).2 (settles_pure v)

theorem settles_name (h : s.get? f name = some v) :
    Settles disk (fun eng ↦ eng.eval f (.sym name)) s (.ok v s) := by
  refine settles_run_iff_value.2 (settles_of_forall trivial fun eng ↦ ?_)
  simp only [Direct.value, Direct.form, Scope.lookup, get_bind_apply, h]
  rfl

/-- Seen from a frame, the name of a built-in function is bound to it, under whatever metadata. -/
def Store.Resolves (s : Store) (f : FrameId) (op : Builtin) : Prop :=
  ∃ v home, s.get? f op.name = some v ∧ v.bare = .builtin home op

/-- A frame's own binding is seen from the frame. -/
theorem Store.get?_of_own? (h : s.own? f name = some v) : s.get? f name = some v := by
  rw [get?, find?, h]
  exact h

/-- No built-in function has the name of a special form. -/
theorem Builtin.ofName?_name_eq_none (op : Builtin) : SpecialForm.ofName? op.name = none := by
  cases op <;> decide

/-- **A call by name** of a built-in function evaluates its arguments and calls the function. -/
theorem settles_call_iff {l : Option Label} {args : List Value} (h : s.Resolves f op) :
    Settles disk (fun eng ↦ eng.eval f (.list l (.sym op.name :: args))) s r ↔
      Settles disk (fun eng ↦ args.mapM (eng.eval f) >>= op.call eng f) s r := by
  obtain ⟨v, home, hget, hv⟩ := h
  have hform (eng : Engine) : Direct.value eng (.eval (.list l (.sym op.name :: args)) f) =
      Direct.combination eng f (.sym op.name) args := by
    rw [Direct.value, Direct.form, SpecialForm.ofHead?, op.ofName?_name_eq_none]
  refine settles_run_iff_value.trans ?_
  simp only [hform, Direct.combination]
  refine (settles_bind_of_ok (settles_name hget)).trans ?_
  simp only [hv]

/-- Arguments are evaluated from left to right. -/
theorem settles_mapM_cons {form : Value} {forms vs : List Value} {s₂ : Store}
    (hform : Settles disk (fun eng ↦ eng.eval f form) s (.ok v s₁))
    (hforms : Settles disk (fun eng ↦ forms.mapM (eng.eval f)) s₁ (.ok vs s₂)) :
    Settles disk (fun eng ↦ (form :: forms).mapM (eng.eval f)) s (.ok (v :: vs) s₂) := by
  simp only [List.mapM_cons]
  exact (settles_bind_of_ok hform).2 ((settles_bind_of_ok hforms).2 (settles_pure _))

/-- Arguments that have no effect are evaluated each by itself. -/
theorem settles_args (args : List (Value × Value))
    (h : ∀ a ∈ args, Settles disk (fun eng ↦ eng.eval f a.1) s (.ok a.2 s)) :
    Settles disk (fun eng ↦ (args.map Prod.fst).mapM (eng.eval f)) s
      (.ok (args.map Prod.snd) s) := by
  induction args with
  | nil => exact settles_pure []
  | cons a args ih =>
    obtain ⟨ha, hargs⟩ := List.forall_mem_cons.1 h
    exact settles_mapM_cons ha (ih hargs)

/-- A call by name with arguments that have no effect. -/
theorem settles_call_of_args {l : Option Label} (args : List (Value × Value))
    (h : s.Resolves f op)
    (hargs : ∀ a ∈ args, Settles disk (fun eng ↦ eng.eval f a.1) s (.ok a.2 s)) :
    Settles disk (fun eng ↦ eng.eval f (.list l (.sym op.name :: args.map Prod.fst))) s r ↔
      Settles disk (fun eng ↦ op.call eng f (args.map Prod.snd)) s r :=
  (settles_call_iff h).trans (settles_bind_of_ok (settles_args args hargs))

end

end Lisplet
