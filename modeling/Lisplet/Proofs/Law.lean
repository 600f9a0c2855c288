import Lisplet.Builtin.Kind
import Lisplet.Eval.Engine
import Lisplet.Proofs.Extension
import Lisplet.Proofs.Room
import Lisplet.Proofs.Written

/-!
# Laws of evaluation

Much of what is true of evaluation is true for the same reason.  Something holds of every value that
is about, of the frames that may be written to, and of the store; every step keeps it; so every run
keeps it.  A `Law` is such a property, with the few facts about it that the steps need: that it
outlasts the growth of the store, that binding a name and making a frame respect it, and that it
holds of what can be written and of what the built-in functions put together.

A law speaks about two computations at once.  `L.Agree s x y Q` says that, from every store that
came about from `s` and obeys the law, `x` ends in one that obeys it, with a result for which `Q`
holds, and that `y` ends in the same way.  With `y` the same as `x` this is preservation.  With a
`y` that has more room or more steps it is also the fact that these change nothing, and the first
clause may be what the second rests on: a computation that is watched ends like the same one
unwatched because nothing that is watched for can come about.

If the law is *lax*, `y` has to end like `x` only where `x` did not run out of steps, and if it is
*roomy*, only where `x` did not run out of room (`Law.Answers`).
-/

set_option autoImplicit false

namespace Lisplet

/-- A computation has ended for good unless it ran out of room or of steps. -/
def Settled {α : Type} : EStateM.Result Failure Store α → Prop
  | .error .overflow _ | .error .exhausted _ => False
  | _ => True

/-- Whether a failure settles a computation does not depend on what the computation was to give. -/
theorem Settled.error {α β : Type} {f : Failure} {s s' : Store}
    (h : Settled (.error f s : EStateM.Result Failure Store α)) :
    Settled (.error f s' : EStateM.Result Failure Store β) := by
  cases f with
  | overflow | exhausted => exact h
  | error | thrown | crashed | unread => trivial

/-- To discard a value is to go on without it. -/
theorem discard_eq_bind {ε σ α : Type} (x : EStateM ε σ α) :
    discard x = x >>= fun _ ↦ pure () := by
  rw [bind_pure_comp, discard, map_const]
  rfl

/-- The store that a computation leaves, however it ends. -/
def finalStore {ε α : Type} : EStateM.Result ε Store α → Store
  | .ok _ s | .error _ s => s

/-- A computation ends in a store of which `S` holds, with a value of which `V` holds there or with
a failure that throws nothing but such a value. -/
def Ends (S : Store → Prop) (V : Store → Value → Prop) :
    EStateM.Result Failure Store Value → Prop
  | .ok v s => S s ∧ V s v
  | .error (.thrown payload) s => S s ∧ V s payload
  | .error _ s => S s

/-- A property of values, frames and stores that evaluation keeps. -/
structure Law where
  /-- Whether running out of steps is no answer. -/
  lax : Prop
  /-- Whether running out of room is no answer. -/
  roomy : Prop := lax
  /-- What is known of every value that an evaluation comes to, apart from what is inside it. -/
  fits : Value → Prop
  /-- What holds of the frames of a store. -/
  shape : Store → Prop
  /-- The frames that closures may close over. -/
  captured : Store → FrameId → Prop
  /-- The frames that code may run in. -/
  active : Store → FrameId → Prop
  /-- What holds of every value, apart from what is inside it. -/
  ok : Store → Value → Prop
  captured_mono : ∀ {s s' : Store} {f : FrameId}, s.Extends s' → captured s f → captured s' f
  active_mono : ∀ {s s' : Store} {f : FrameId}, s.Extends s' → active s f → active s' f
  ok_mono : ∀ {s s' : Store} {v : Value}, s.Extends s' → ok s v → ok s' v
  captured_of_active : ∀ {s : Store} {f : FrameId}, active s f → captured s f
  shape_congr : ∀ {s s' : Store}, s.Extends s' → s'.frames = s.frames → shape s → shape s'
  shape_define : ∀ {s : Store} {f : FrameId} (name : String) (v : Value), shape s → active s f →
    shape (s.define f name v)
  shape_addFrame : ∀ {s : Store} {f : FrameId} (vars : Dict String Value), shape s →
    captured s f → shape (s.addFrame (some f) vars).2
  active_addFrame : ∀ {s : Store} (outer : Option FrameId) (vars : Dict String Value), shape s →
    active (s.addFrame outer vars).2 s.frames.size
  active_topLevel : ∀ {s : Store} {f : FrameId}, shape s → active s f → active s (s.topLevel f)
  ok_written : ∀ {s : Store} {v : Value}, v.IsWritten → ok s v
  ok_fn : ∀ {s : Store} {c : Closure Value}, ok s (.fn c) ↔ captured s c.scope
  ok_atom : ∀ {s : Store} {a : AtomId}, a < s.atoms.size → ok s (.atom a)
  ok_withMeta : ∀ {s : Store} {v : Value} (data : Value), Builtin.Kind.takesMetadata v = true →
    ok s (.withMeta v data)
  ok_count : ∀ {s : Store} {v : Value} {vs : List Value}, fits v → v.items? = some vs →
    ok s (.int vs.length)

namespace Law

variable (L : Law) {s s' : Store} {v w : Value} {α β : Type}

/-! ## What obeys a law -/

/-- The law holds of a value and of everything inside it. -/
def Good (s : Store) (v : Value) : Prop := v.All (L.ok s)

/-- The law holds of the frames, of what they bind and of what the atoms hold. -/
structure Holds (s : Store) : Prop where
  shape : L.shape s
  bound : ∀ (f : FrameId) (fr : Frame), s.frames[f]? = some fr →
    ∀ e ∈ fr.vars.entries, L.Good s e.2
  stored : ∀ v ∈ s.atoms, L.Good s v

/-- The law holds of what was thrown. -/
def Failed (s : Store) : Failure → Prop
  | .thrown payload => L.Good s payload
  | _ => True

/-- The law holds of the values of a task, and its code may run in its frame. -/
def Admits (s : Store) : Task → Prop
  | .eval form scope | .expand form scope => L.Good s form ∧ L.active s scope
  | .call fn args scope => L.Good s fn ∧ (∀ v ∈ args, L.Good s v) ∧ L.active s scope

/-- The arguments of a task are values that evaluation may come to. -/
def Fits : Task → Prop
  | .call _ args _ => ∀ v ∈ args, L.fits v
  | _ => True

/-- The law holds of what a step comes to. -/
def Reached (s : Store) : Step → Prop
  | .done v => L.Good s v
  | .next task => L.Admits s task
  | .code task site => L.Admits s task ∧ L.active s site

variable {L}

theorem Good.mono (h : s.Extends s') (hv : L.Good s v) : L.Good s' v :=
  Value.All.mono (fun _ ↦ L.ok_mono h) hv

theorem Admits.mono {t : Task} (h : s.Extends s') (ht : L.Admits s t) : L.Admits s' t := by
  cases t with
  | eval | expand => exact ⟨ht.1.mono h, L.active_mono h ht.2⟩
  | call fn args scope =>
    obtain ⟨hfn, hargs, hscope⟩ := ht
    exact ⟨hfn.mono h, fun v hv ↦ (hargs v hv).mono h, L.active_mono h hscope⟩

/-! ### Values -/

theorem good_of_isWritten (h : v.All Value.IsWritten) : L.Good s v :=
  Value.All.mono (fun _ ↦ L.ok_written) h

theorem good_leaf (h : v.IsWritten) (hp : v.parts = []) : L.Good s v :=
  good_of_isWritten (.of_parts_eq_nil h hp)

theorem good_nil : L.Good s .nil := good_leaf trivial rfl

theorem good_bool (b : Bool) : L.Good s (.bool b) := good_leaf trivial rfl

theorem good_str (text : String) : L.Good s (.str text) := good_leaf trivial rfl

theorem good_keyword {name : String} (h : IsKeywordName name) :
    L.Good s (Value.keyword name) := by
  refine good_leaf (Value.isWritten_keyword h) ?_
  rw [Value.keyword]
  split <;> rfl

theorem good_list (l : Option Label) {vs : List Value} (h : ∀ v ∈ vs, L.Good s v) :
    L.Good s (.list l vs) :=
  .list (L.ok_written trivial) h

theorem good_vec {vs : List Value} (h : ∀ v ∈ vs, L.Good s v) : L.Good s (.vec vs) :=
  .vec (L.ok_written trivial) h

theorem good_map (l : Option Label) {d : Dict Key Value}
    (h : ∀ e ∈ d.entries, L.Good s (.ofKey e.1) ∧ L.Good s e.2) : L.Good s (.map l d) :=
  .map (L.ok_written trivial) h

/-- A list that is empty is good. -/
theorem good_empty (l : Option Label) : L.Good s (.list l []) :=
  good_list l fun v hv ↦ by simp at hv

/-- A closure is good if it closes over a frame that may be captured and its code is good. -/
theorem good_fn {c : Closure Value} (hscope : L.captured s c.scope) (hbody : L.Good s c.body)
    (hnames : ∀ name ∈ c.params.names, L.Good s (.sym name)) : L.Good s (.fn c) := by
  refine .intro (L.ok_fn.2 hscope) fun w hw ↦ ?_
  rcases List.mem_cons.1 hw with rfl | hw
  · exact hbody
  · obtain ⟨name, hname, rfl⟩ := List.mem_map.1 hw
    exact hnames name hname

theorem Good.captured {c : Closure Value} (h : L.Good s (.fn c)) : L.captured s c.scope :=
  L.ok_fn.1 h.here

theorem Good.param {c : Closure Value} {name : String} (h : L.Good s (.fn c))
    (hname : name ∈ c.params.names) : L.Good s (.sym name) :=
  h.inside (List.mem_cons_of_mem _ (List.mem_map_of_mem hname))

/-! ### Stores -/

/-- A law that holds of all values holds of a store if it holds of its frames. -/
theorem Holds.of_good (hshape : L.shape s) (hgood : ∀ v, L.Good s v) : L.Holds s :=
  ⟨hshape, fun _ _ _ e _ ↦ hgood e.2, fun v _ ↦ hgood v⟩

/-- A store with the same frames and the same atoms obeys the same laws. -/
theorem Holds.congr (h : L.Holds s) (hf : s'.frames = s.frames) (ha : s'.atoms = s.atoms) :
    L.Holds s' := by
  have he : s.Extends s' := .of_frames_eq hf (Nat.le_of_eq (by rw [ha]))
  refine ⟨L.shape_congr he hf h.shape, fun f fr hfr e hx ↦ ?_, fun v hv ↦ ?_⟩
  · exact (h.bound f fr (hf ▸ hfr) e hx).mono he
  · exact (h.stored v (ha ▸ hv)).mono he

theorem Holds.define {f : FrameId} (h : L.Holds s) (hf : L.active s f) (hv : L.Good s v)
    (name : String) : L.Holds (s.define f name v) := by
  have he : s.Extends (s.define f name v) := s.extends_define f name v
  refine ⟨L.shape_define name v h.shape hf, fun g fr hg e hx ↦ ?_, fun w hw ↦ ?_⟩
  · rw [Store.define, Array.getElem?_modify] at hg
    split at hg
    · obtain ⟨fr', hfr', rfl⟩ := Option.map_eq_some_iff.1 hg
      rcases Dict.mem_entries_insert hx with rfl | hx
      · exact hv.mono he
      · exact (h.bound f fr' (by simp_all) e hx).mono he
    · exact (h.bound g fr hg e hx).mono he
  · exact (h.stored w hw).mono he

theorem Holds.addFrame {f : FrameId} {vars : Dict String Value} (h : L.Holds s)
    (hf : L.captured s f) (hvars : ∀ e ∈ vars.entries, L.Good s e.2) :
    L.Holds (s.addFrame (some f) vars).2 := by
  have he : s.Extends (s.addFrame (some f) vars).2 := s.extends_addFrame _ _
  refine ⟨L.shape_addFrame vars h.shape hf, fun g fr hg e hx ↦ ?_, fun w hw ↦ ?_⟩
  · rw [Store.addFrame, Array.getElem?_push] at hg
    split at hg
    · obtain rfl := Option.some.inj hg
      exact (hvars e hx).mono he
    · exact (h.bound g fr hg e hx).mono he
  · exact (h.stored w hw).mono he

theorem Holds.addAtom (h : L.Holds s) (hv : L.Good s v) : L.Holds (s.addAtom v).2 := by
  have he : s.Extends (s.addAtom v).2 := s.extends_addAtom v
  refine ⟨L.shape_congr he rfl h.shape, fun f fr hfr e hx ↦ ?_, fun w hw ↦ ?_⟩
  · exact (h.bound f fr hfr e hx).mono he
  · rcases Array.mem_push.1 hw with hw | rfl
    · exact (h.stored w hw).mono he
    · exact hv.mono he

theorem Holds.setAtom (h : L.Holds s) (a : AtomId) (hv : L.Good s v) :
    L.Holds (s.setAtom a v) := by
  have he : s.Extends (s.setAtom a v) := s.extends_setAtom a v
  refine ⟨L.shape_congr he rfl h.shape, fun f fr hfr e hx ↦ ?_, fun w hw ↦ ?_⟩
  · exact (h.bound f fr hfr e hx).mono he
  · rcases Array.mem_or_eq_of_mem_setIfInBounds hw with hw | rfl
    · exact (h.stored w hw).mono he
    · exact hv.mono he

/-- What an atom holds is good. -/
theorem Holds.content (h : L.Holds s) (a : AtomId) : L.Good s (s.atoms.content a) := by
  rw [Heap.content]
  cases ha : s.atoms[a]? with
  | none => exact good_nil
  | some v => exact h.stored v (Array.mem_of_getElem? ha)

/-- What a name is bound to is good. -/
theorem Holds.get? {f : FrameId} {name : String} (h : L.Holds s) (hv : s.get? f name = some v) :
    L.Good s v := by
  obtain ⟨g, -, hv⟩ := Option.bind_eq_some_iff.1 hv
  obtain ⟨fr, hfr, hv⟩ := Option.bind_eq_some_iff.1 hv
  exact h.bound g fr hfr _ (Dict.mem_entries_of_get? hv)

/-! ## How computations end -/

variable (L) in
/-- From `s`, a computation ends in a store that obeys the law, with a result of which `Q` holds or
a failure that obeys the law. -/
def Outcome (s : Store) (Q : Store → α → Prop) : EStateM.Result Failure Store α → Prop
  | .ok a s' => s.Extends s' ∧ L.Holds s' ∧ Q s' a
  | .error f s' => s.Extends s' ∧ L.Holds s' ∧ L.Failed s' f

variable (L) in
/-- What a computation ended in is an answer, by what the law says about running out. -/
def Answers : EStateM.Result Failure Store α → Prop
  | .error .overflow _ => ¬L.roomy
  | .error .exhausted _ => ¬L.lax
  | _ => True

theorem answers_of_settled {r : EStateM.Result Failure Store α} (h : Settled r) : L.Answers r := by
  match r, h with
  | .ok _ _, _ | .error (.error _ _) _, _ | .error (.thrown _) _, _ | .error (.crashed _) _, _
  | .error (.unread _) _, _ => trivial

/-- If running out of neither is an answer, then whatever is one settles a computation. -/
theorem settled_of_answers (hlax : L.lax) (hroomy : L.roomy)
    {r : EStateM.Result Failure Store α} (hr : L.Answers r) : Settled r := by
  match r, hr with
  | .error .overflow _, hr => exact hr hroomy
  | .error .exhausted _, hr => exact hr hlax
  | .ok _ _, _ | .error (.error _ _) _, _ | .error (.thrown _) _, _ | .error (.crashed _) _, _
  | .error (.unread _) _, _ => trivial

/-- Under a law that is neither lax nor roomy everything is an answer. -/
theorem answers_of_strict (hlax : ¬L.lax) (hroomy : ¬L.roomy)
    (r : EStateM.Result Failure Store α) : L.Answers r := by
  match r with
  | .error .overflow _ => exact hroomy
  | .error .exhausted _ => exact hlax
  | .ok _ _ | .error (.error _ _) _ | .error (.thrown _) _ | .error (.crashed _) _
  | .error (.unread _) _ => trivial

/-- Whether a failure is an answer does not depend on what the computation was to give. -/
theorem Answers.error {f : Failure} {s s' : Store}
    (h : L.Answers (.error f s : EStateM.Result Failure Store α)) :
    L.Answers (.error f s' : EStateM.Result Failure Store β) := by
  cases f with
  | overflow | exhausted => exact h
  | error | thrown | crashed | unread => trivial

variable (L) in
/-- **Two computations agree under a law**: from every store that `s` can become and that obeys it,
the first one keeps it and the second one ends in the same way. -/
def Agree (s : Store) (x y : Eval α) (Q : Store → α → Prop) : Prop :=
  ∀ s₁, s.Extends s₁ → L.Holds s₁ →
    L.Outcome s₁ Q (x s₁) ∧ (L.Answers (x s₁) → y s₁ = x s₁)

theorem Outcome.of_extends {s₁ : Store} {Q : Store → α → Prop}
    {r : EStateM.Result Failure Store α} (h : s.Extends s₁) (hr : L.Outcome s₁ Q r) :
    L.Outcome s Q r := by
  cases r with
  | ok a s' => exact ⟨h.trans hr.1, hr.2⟩
  | error f s' => exact ⟨h.trans hr.1, hr.2⟩

theorem Outcome.imp {P Q : Store → α → Prop} {r : EStateM.Result Failure Store α}
    (hr : L.Outcome s P r) (h : ∀ s₁ a, s.Extends s₁ → P s₁ a → Q s₁ a) : L.Outcome s Q r := by
  cases r with
  | ok a s' => exact ⟨hr.1, hr.2.1, h s' a hr.1 hr.2.2⟩
  | error f s' => exact hr

theorem Outcome.final {Q : Store → α → Prop} {r : EStateM.Result Failure Store α}
    (h : L.Outcome s Q r) : s.Extends (finalStore r) ∧ L.Holds (finalStore r) := by
  cases r with
  | ok a s' => exact ⟨h.1, h.2.1⟩
  | error f s' => exact ⟨h.1, h.2.1⟩

theorem Outcome.ends {S : Store → Prop} {r : EStateM.Result Failure Store Value}
    (h : L.Outcome s L.Good r) (hS : ∀ s', L.Holds s' → S s') : Ends S L.Good r := by
  match r, h with
  | .ok v s', h => exact ⟨hS s' h.2.1, h.2.2⟩
  | .error (.thrown payload) s', h => exact ⟨hS s' h.2.1, h.2.2⟩
  | .error (.error _ _) s', h | .error .overflow s', h | .error (.crashed _) s', h
  | .error .exhausted s', h | .error (.unread _) s', h => exact hS s' h.2.1

namespace Agree

variable {x y : Eval α} {P Q : Store → α → Prop} {R : Store → β → Prop}

theorem mono (h : s.Extends s') (hxy : L.Agree s x y Q) : L.Agree s' x y Q :=
  fun s₁ hs₁ ↦ hxy s₁ (h.trans hs₁)

/-- A weaker result. -/
theorem imp (hxy : L.Agree s x y P) (h : ∀ s₁ a, s.Extends s₁ → P s₁ a → Q s₁ a) :
    L.Agree s x y Q := by
  intro s₁ hs₁ hl
  obtain ⟨hx, hy⟩ := hxy s₁ hs₁ hl
  exact ⟨hx.imp fun s₂ a hs₂ ↦ h s₂ a (hs₁.trans hs₂), hy⟩

theorem pure {a : α} (h : ∀ s₁, s.Extends s₁ → Q s₁ a) :
    L.Agree s (Pure.pure a) (Pure.pure a) Q :=
  fun s₁ hs₁ hl ↦ ⟨⟨.refl s₁, hl, h s₁ hs₁⟩, fun _ ↦ rfl⟩

/-- **One computation after the other.** -/
theorem bind {f g : α → Eval β} (hxy : L.Agree s x y P)
    (hfg : ∀ s₁ a, s.Extends s₁ → P s₁ a → L.Agree s₁ (f a) (g a) R) :
    L.Agree s (x >>= f) (y >>= g) R := by
  intro s₁ hs₁ hl
  obtain ⟨hx, hy⟩ := hxy s₁ hs₁ hl
  simp only [Bind.bind, EStateM.bind]
  cases hr : x s₁ with
  | ok a s₂ =>
    rw [hr] at hx hy
    obtain ⟨he, hl₂, ha⟩ := hx
    obtain ⟨hfa, hga⟩ := hfg s₂ a (hs₁.trans he) ha s₂ (.refl s₂) hl₂
    rw [hy trivial]
    exact ⟨hfa.of_extends he, hga⟩
  | error e s₂ =>
    rw [hr] at hx hy
    refine ⟨hx, fun hset ↦ ?_⟩
    rw [hy hset.error]

theorem throw {f : Failure} (h : ∀ s₁, s.Extends s₁ → L.Failed s₁ f) :
    L.Agree s (throw f : Eval α) (throw f) Q :=
  fun s₁ hs₁ hl ↦ ⟨⟨.refl s₁, hl, h s₁ hs₁⟩, fun _ ↦ rfl⟩

/-- A computation that runs out of room agrees with any other under a roomy law. -/
theorem overflow (hroomy : L.roomy) : L.Agree s (MonadExcept.throw .overflow) y Q :=
  fun s₁ _ hl ↦ ⟨⟨.refl s₁, hl, trivial⟩, fun hset ↦ (hset hroomy).elim⟩

/-- A computation that runs out of steps agrees with any other under a lax law. -/
theorem exhausted (hlax : L.lax) : L.Agree s (MonadExcept.throw .exhausted) y Q :=
  fun s₁ _ hl ↦ ⟨⟨.refl s₁, hl, trivial⟩, fun hset ↦ (hset hlax).elim⟩

theorem get : L.Agree s MonadState.get MonadState.get fun s₁ a ↦ a = s₁ ∧ L.Holds s₁ :=
  fun s₁ _ hl ↦ ⟨⟨.refl s₁, hl, rfl, hl⟩, fun _ ↦ rfl⟩

theorem modifyGet {f : Store → α × Store}
    (h : ∀ s₁, s.Extends s₁ → L.Holds s₁ →
      s₁.Extends (f s₁).2 ∧ L.Holds (f s₁).2 ∧ Q (f s₁).2 (f s₁).1) :
    L.Agree s (MonadStateOf.modifyGet f) (MonadStateOf.modifyGet f) Q :=
  fun s₁ hs₁ hl ↦ ⟨h s₁ hs₁ hl, fun _ ↦ rfl⟩

/-- A change of the store that gives no result. -/
theorem change {f : Store → Store}
    (h : ∀ s₁, s.Extends s₁ → L.Holds s₁ → s₁.Extends (f s₁) ∧ L.Holds (f s₁)) :
    L.Agree s (modify f) (modify f) fun _ _ ↦ True :=
  modifyGet fun s₁ hs₁ hl ↦ ⟨(h s₁ hs₁ hl).1, (h s₁ hs₁ hl).2, trivial⟩

theorem discard (hxy : L.Agree s x y Q) :
    L.Agree s (Functor.discard x) (Functor.discard y) fun _ _ ↦ True := by
  rw [discard_eq_bind, discard_eq_bind]
  exact bind hxy fun _ _ _ _ ↦ pure fun _ _ ↦ trivial

/-- **The same for each element of a list**, from left to right. -/
theorem mapM {f g : α → Eval β} {xs : List α}
    (hmono : ∀ s₁ s₂ b, s₁.Extends s₂ → R s₁ b → R s₂ b)
    (h : ∀ x ∈ xs, L.Agree s (f x) (g x) R) :
    L.Agree s (xs.mapM f) (xs.mapM g) fun s₁ bs ↦ ∀ b ∈ bs, R s₁ b := by
  induction xs generalizing s with
  | nil => exact pure fun s₁ _ b hb ↦ by simp at hb
  | cons x xs ih =>
    rw [List.mapM_cons, List.mapM_cons]
    refine bind (h x List.mem_cons_self) fun s₁ b hs₁ hb ↦ ?_
    have hrest : ∀ x' ∈ xs, L.Agree s₁ (f x') (g x') R :=
      fun x' hx' ↦ (h x' (List.mem_cons_of_mem _ hx')).mono hs₁
    refine bind (ih hrest) fun s₂ bs hs₂ hbs ↦ pure fun s₃ hs₃ b' hb' ↦ ?_
    rcases List.mem_cons.1 hb' with rfl | hb'
    · exact hmono s₁ s₃ _ (hs₂.trans hs₃) hb
    · exact hmono s₂ s₃ b' hs₃ (hbs b' hb')

theorem forM {f g : α → Eval PUnit} {xs : List α}
    (h : ∀ x ∈ xs, L.Agree s (f x) (g x) fun _ _ ↦ True) :
    L.Agree s (xs.forM f) (xs.forM g) fun _ _ ↦ True := by
  induction xs generalizing s with
  | nil => exact pure fun _ _ ↦ trivial
  | cons x xs ih =>
    refine bind (h x List.mem_cons_self) fun s₁ _ hs₁ _ ↦ ih fun x' hx' ↦ ?_
    exact (h x' (List.mem_cons_of_mem _ hx')).mono hs₁

/-- Intercepting what is thrown. -/
theorem catchThrown (hxy : L.Agree s x y Q) :
    L.Agree s (Eval.catchThrown x) (Eval.catchThrown y) fun s₁ r ↦
      match r with
      | .ok a => Q s₁ a
      | .error payload => L.Good s₁ payload := by
  intro s₁ hs₁ hl
  obtain ⟨hx, hy⟩ := hxy s₁ hs₁ hl
  rw [Eval.catchThrown, Eval.catchThrown]
  cases hr : x s₁ with
  | ok a s₂ =>
    rw [hr] at hx hy
    rw [hy trivial]
    exact ⟨hx, fun _ ↦ rfl⟩
  | error e s₂ =>
    rw [hr] at hx hy
    cases e with
    | thrown payload =>
      rw [hy trivial]
      exact ⟨hx, fun _ ↦ rfl⟩
    | error | crashed | unread =>
      rw [hy trivial]
      exact ⟨hx, fun _ ↦ rfl⟩
    | overflow | exhausted =>
      refine ⟨hx, fun hset ↦ ?_⟩
      rw [hy hset]

end Agree

end Law

end Lisplet
