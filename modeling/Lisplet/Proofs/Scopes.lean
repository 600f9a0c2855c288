import Lisplet.Proofs.Soundness

/-!
# Captured scopes cannot be changed from outside

Code binds names in the frame that it runs in.  It runs in the frame that it was given, in frames
that were made for it, and, through `eval`, at the top level; it never runs in a frame that a
closure has brought along.  So evaluation leaves every older frame alone, the given one and the
outermost ones apart (`spares_run`), however it goes through functions, macros, atoms and handlers.

Between two texts of a session nothing runs but at the top level.  Once a function, a `let*` or a
handler has its frame, no later text changes it.
-/

set_option autoImplicit false

namespace Lisplet

/-- The frame that a task is for. -/
def Task.scope : Task → FrameId
  | .eval _ scope | .expand _ scope | .call _ _ scope => scope

namespace Store

/-- Every frame of `s₀` that had another one outside it is as it was, `env` apart. -/
def Spares (s₀ : Store) (env : FrameId) (s : Store) : Prop :=
  ∀ f : FrameId, (s₀.outer? f).isSome → f ≠ env → s.frames[f]? = s₀.frames[f]?

/-- A frame that may be written to: `env`, and whatever had nothing outside it in `s₀` or was not
there. -/
def Open (s₀ : Store) (env f : FrameId) : Prop := f = env ∨ s₀.outer? f = none

variable {s₀ s : Store} {env f : FrameId}

theorem Spares.define (h : s₀.Spares env s) (hf : s₀.Open env f) (name : String) (v : Value) :
    s₀.Spares env (s.define f name v) := by
  intro g ho hne
  have hfg : f ≠ g := by
    rintro rfl
    rcases hf with rfl | hnone
    · exact hne rfl
    · simp [hnone] at ho
  rw [Store.define, Array.getElem?_modify, if_neg hfg]
  exact h g ho hne

theorem Spares.addFrame (h : s₀.Spares env s) (he : s₀.Extends s) (outer : Option FrameId)
    (vars : Dict String Value) : s₀.Spares env (s.addFrame outer vars).2 := by
  intro g ho hne
  have hlt : g < s.frames.size :=
    Nat.lt_of_lt_of_le (lt_size_of_isSome_outer? ho) he.frames_size_le
  rw [Store.addFrame, Array.getElem?_push, if_neg (Nat.ne_of_lt hlt)]
  exact h g ho hne

/-- A new frame may be written to. -/
theorem open_new (he : s₀.Extends s) : s₀.Open env s.frames.size := by
  refine .inr (Option.eq_none_iff_forall_ne_some.2 fun g hg ↦ ?_)
  have hlt : s.frames.size < s₀.frames.size := lt_size_of_isSome_outer? (by rw [hg]; rfl)
  exact Nat.not_lt.2 he.frames_size_le hlt

/-- The outermost frame around any frame may be written to. -/
theorem open_topLevel (he : s₀.Extends s) (f : FrameId) : s₀.Open env (s.topLevel f) := by
  refine .inr (Option.eq_none_iff_forall_ne_some.2 fun g hg ↦ ?_)
  have hlt : s.topLevel f < s₀.frames.size := lt_size_of_isSome_outer? (by rw [hg]; rfl)
  rw [← he.outer?_eq hlt, outer?_topLevel] at hg
  simp at hg

end Store

/-- That evaluation in `env` writes to no older frame that had another one outside it, as a law of
evaluation from `s₀` on. -/
def Law.sparing (s₀ : Store) (env : FrameId) : Law where
  lax := False
  fits _ := True
  shape s := s₀.Extends s ∧ s₀.Spares env s
  captured _ _ := True
  active _ f := s₀.Open env f
  ok _ _ := True
  captured_mono _ _ := trivial
  active_mono _ hf := hf
  ok_mono _ _ := trivial
  captured_of_active _ := trivial
  shape_congr h hf hs := ⟨hs.1.trans h, fun f ho hne ↦ hf ▸ hs.2 f ho hne⟩
  shape_define name v hs hf := ⟨hs.1.trans (Store.extends_define _ _ _ _), hs.2.define hf name v⟩
  shape_addFrame vars hs _ :=
    ⟨hs.1.trans (Store.extends_addFrame _ _ _), hs.2.addFrame hs.1 _ vars⟩
  active_addFrame _ _ hs := Store.open_new hs.1
  active_topLevel hs _ := Store.open_topLevel hs.1 _
  ok_written _ := trivial
  ok_fn := Iff.rfl
  ok_atom _ := trivial
  ok_withMeta _ _ := trivial
  ok_count _ _ := trivial

theorem good_sparing (s : Store) (env : FrameId) (v : Value) : (Law.sparing s env).Good s v :=
  Value.all_of_forall (fun _ ↦ trivial) v

theorem holds_sparing (s : Store) (env : FrameId) : (Law.sparing s env).Holds s :=
  .of_good ⟨.refl s, fun _ _ _ ↦ rfl⟩ (good_sparing s env)

theorem admits_sparing (s : Store) (t : Task) : (Law.sparing s t.scope).Admits s t := by
  cases t with
  | eval form scope | expand form scope => exact ⟨good_sparing s _ form, .inl rfl⟩
  | call fn args scope => exact ⟨good_sparing s _ fn, fun v _ ↦ good_sparing s _ v, .inl rfl⟩

/-- **Evaluation writes to the frame that it is for, to outermost frames and to new ones**, and to
no other frame. -/
theorem spares_run (disk : Disk) (steps room : Nat) (t : Task) (s : Store) :
    s.Spares t.scope (finalStore (run disk steps room [] t s)) := by
  have hidle : (Law.sparing s t.scope).Watches .idle .idle := .idle fun _ ↦ trivial
  obtain ⟨hout, -⟩ := hidle.run (fun h ↦ h) (fun h ↦ h) Failure.isFinal_overflow disk steps room
    (holds_sparing s t.scope) (admits_sparing s t)
  rw [runWatched_idle] at hout
  exact hout.final.2.shape.2

namespace Session

/-- The frames of closures, bindings and handlers that a session has made stay as they are. -/
theorem Leads.frames_eq {s s' : Store} (hs : s.Sound) (h : Leads anything s s') {f : FrameId}
    (hf : f < s.frames.size) (hne : f ≠ topLevel) : s'.frames[f]? = s.frames[f]? := by
  have htop {s₁ : Store} (hl : (Law.soundness s).Holds s₁) : topLevel < s₁.frames.size :=
    hl.shape.2.lt_size
  refine (h.induction (P := fun s₁ ↦ (Law.soundness s).Holds s₁ ∧ s₁.frames[f]? = s.frames[f]?)
    ?_ ?_ ?_ ⟨holds_soundness_iff.2 ⟨.refl s, hs⟩, rfl⟩).2
  · intro w source form s₁ _ hread ⟨hl₁, heq⟩
    refine ⟨becomesSound_eval w source form s₁ trivial hread hl₁, ?_⟩
    have hsome : (s₁.outer? f).isSome :=
      hl₁.shape.2.isSome_outer? hne (Nat.lt_of_lt_of_le hf hl₁.shape.1.frames_size_le)
    exact (spares_run w.disk w.steps w.depth (.eval form topLevel) s₁ f hsome hne).trans heq
  · intro s₁ args ⟨hl₁, heq⟩
    refine ⟨holds_arguments (fun _ ↦ htop) s₁ args hl₁, ?_⟩
    rw [Store.define, Array.getElem?_modify, if_neg (Ne.symm hne)]
    exact heq
  · intro s₁ ⟨hl₁, heq⟩
    exact ⟨hl₁.congr rfl rfl, heq⟩

/-- **Captured scopes cannot be changed from outside.**  Evaluation changes no frame that was there
before and has another one outside it, save the frame that it is for; in a session the frame outside
another is the one it was made with; and a session changes none of the frames that it has made, save
the top level. -/
theorem frames_unchanged :
    (∀ (disk : Disk) (steps room : Nat) (t : Task) (s : Store) (f : FrameId),
      (s.outer? f).isSome → f ≠ t.scope →
      (finalStore (run disk steps room [] t s)).frames[f]? = s.frames[f]?) ∧
    (∀ s : Store, Reachable anything s →
      ∀ f : FrameId, s.outer? f = s.frames[f]?.bind Frame.outer) ∧
    (∀ s s' : Store, Reachable anything s → Leads anything s s' →
      ∀ f : FrameId, f < s.frames.size → f ≠ topLevel → s'.frames[f]? = s.frames[f]?) :=
  ⟨fun disk steps room t s f ho hne ↦ spares_run disk steps room t s f ho hne,
    fun _ h f ↦ h.sound.rooted.outer?_eq f,
    fun _ _ h hleads _ hf hne ↦ hleads.frames_eq h.sound hf hne⟩

/-- A definition at the top level passes by the frame of a `let*`, in a store that is given and in a
session that has made one. -/
theorem frames_unchanged_let :
    let w : World := { disk := fun _ ↦ none, depth := 10, steps := 10 }
    let given : Store := { frames := #[⟨.empty, none⟩, ⟨⟨[("x", .int 1)]⟩, some 0⟩] }
    let t : Task := .eval (.list none [.sym "def!", .sym "x", .int 2]) 0
    let made : Store := finalStore (Session.eval w "(let* () 1)" bare)
    let later : Store := finalStore (Session.eval w "(def! x 2)" made)
    ((given.outer? 1).isSome ∧ 1 ≠ t.scope ∧
      (finalStore (run w.disk 10 10 [] t given)).frames[1]? = given.frames[1]?) ∧
    (Reachable anything made ∧ made.outer? 1 = made.frames[1]?.bind Frame.outer) ∧
    (Leads anything made later ∧ 1 < made.frames.size ∧ 1 ≠ topLevel ∧
      later.frames[1]? = made.frames[1]?) := by
  intro w given t made later
  obtain ⟨hspared, houter, hkept⟩ := frames_unchanged
  have hmade : Reachable anything made :=
    (reachable_bare w.disk).trans (.eval w "(let* () 1)" .refl trivial)
  have hlater : Leads anything made later := .eval w "(def! x 2)" .refl trivial
  have hsize : made.frames.size = 2 := rfl
  have hlt : 1 < made.frames.size := by
    rw [hsize]
    exact Nat.one_lt_two
  have hne : (1 : FrameId) ≠ topLevel := Nat.one_ne_zero
  refine ⟨⟨rfl, hne, hspared w.disk 10 10 t given 1 rfl hne⟩, ⟨hmade, houter made hmade 1⟩,
    hlater, hlt, hne, hkept made later hmade hlater 1 hlt hne⟩

end Session

end Lisplet
