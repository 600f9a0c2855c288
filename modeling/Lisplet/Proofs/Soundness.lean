import Lisplet.Proofs.Rooted

/-!
# No value refers to what is not there

A closure names a frame and an atom a cell of the store, by number.  In a session these always
exist: for every value that a frame binds or an atom holds, for every value that comes up while
something is evaluated, and for every value that is thrown, at every depth.  Together with the shape
of the frames (`Store.Rooted`) this is the invariant of sessions, `Store.Sound`.

It is an instance of a law of evaluation (`Law.soundness`).  So it holds not only between two texts
but at every moment of every evaluation: a run that is watched for it (`Watch.sound`) never sets off
an alarm.
-/

set_option autoImplicit false

namespace Lisplet

/-! ## The invariant -/

/-- What a value itself refers to is in the store. -/
def Value.IsLive (s : Store) : Value → Prop
  | .fn c => c.scope < s.frames.size
  | .builtin home _ => home < s.frames.size
  | .atom a => a < s.atoms.size
  | _ => True

/-- The frame of a task is in the store, and so is whatever its values refer to. -/
def Task.IsLive (s : Store) : Task → Prop
  | .eval form scope | .expand form scope =>
    form.All (Value.IsLive s) ∧ scope < s.frames.size
  | .call fn args scope =>
    fn.All (Value.IsLive s) ∧ (∀ v ∈ args, v.All (Value.IsLive s)) ∧ scope < s.frames.size

namespace Store

/-- The frames form a tree, and whatever the values in the store refer to is in the store. -/
structure Sound (s : Store) : Prop where
  rooted : s.Rooted
  bound : ∀ (f : FrameId) (fr : Frame), s.frames[f]? = some fr →
    ∀ e ∈ fr.vars.entries, e.2.All (Value.IsLive s)
  stored : ∀ v ∈ s.atoms, v.All (Value.IsLive s)

/-- A store that a sound one can become and that is sound. -/
def BecomesSound (s₀ s : Store) : Prop := s₀.Extends s ∧ s.Sound

end Store

/-- Looks whether the store is sound and came about from `s₀`, and whether all that evaluation is
busy with refers to what is in the store. -/
def Watch.sound (s₀ : Store) : Watch where
  task s sites t := s₀.BecomesSound s ∧ (∀ f ∈ sites, f < s.frames.size) ∧ t.IsLive s
  value s sites v :=
    s₀.BecomesSound s ∧ (∀ f ∈ sites, f < s.frames.size) ∧ v.All (Value.IsLive s)

/-! ## The law -/

theorem Value.IsLive.mono {s s' : Store} {v : Value} (h : s.Extends s') (hv : v.IsLive s) :
    v.IsLive s' := by
  cases v with
  | fn | builtin => exact Nat.lt_of_lt_of_le hv h.frames_size_le
  | atom => exact Nat.lt_of_lt_of_le hv h.atoms
  | _ => trivial

/-- Soundness as a law of evaluation from `s₀` on. -/
def Law.soundness (s₀ : Store) : Law where
  lax := False
  fits _ := True
  shape s := s₀.Extends s ∧ s.Rooted
  captured s f := f < s.frames.size
  active s f := f < s.frames.size
  ok s v := v.IsLive s
  captured_mono h hf := Nat.lt_of_lt_of_le hf h.frames_size_le
  active_mono h hf := Nat.lt_of_lt_of_le hf h.frames_size_le
  ok_mono h hv := hv.mono h
  captured_of_active hf := hf
  shape_congr h hf hs := ⟨hs.1.trans h, hs.2.congr hf⟩
  shape_define name v hs _ := ⟨hs.1.trans (Store.extends_define _ _ _ _), hs.2.define _ name v⟩
  shape_addFrame vars hs hf := ⟨hs.1.trans (Store.extends_addFrame _ _ _), hs.2.addFrame hf vars⟩
  active_addFrame _ _ _ := by simp [Store.addFrame]
  active_topLevel _ hf := Nat.lt_of_le_of_lt (Store.topLevel_le _ _) hf
  ok_written {s v} hv := by
    cases v with
    | fn | builtin | atom | withMeta => exact hv.elim
    | _ => trivial
  ok_fn := Iff.rfl
  ok_atom ha := ha
  ok_withMeta _ _ := trivial
  ok_count _ _ := trivial

variable {s₀ s : Store}

theorem holds_soundness_iff : (Law.soundness s₀).Holds s ↔ s₀.BecomesSound s := by
  constructor
  · intro h
    exact ⟨h.shape.1, h.shape.2, h.bound, h.stored⟩
  · intro h
    exact ⟨⟨h.1, h.2.rooted⟩, h.2.bound, h.2.stored⟩

theorem admits_soundness_iff {t : Task} : (Law.soundness s₀).Admits s t ↔ t.IsLive s := by
  cases t <;> exact Iff.rfl

theorem watches_soundness : (Law.soundness s₀).Watches .idle (.sound s₀) where
  task hl hsites ht :=
    ⟨fun _ ↦ ⟨holds_soundness_iff.1 hl, hsites, admits_soundness_iff.1 ht⟩, fun _ ↦ trivial⟩
  value hl hsites hv := ⟨fun _ ↦ ⟨holds_soundness_iff.1 hl, hsites, hv⟩, fun _ ↦ trivial⟩
  fits_task {s sites t} _ := by
    cases t with
    | call => exact fun _ _ ↦ trivial
    | _ => trivial
  fits_value _ := trivial

/-- **A run from a sound store** keeps it sound, and is sound at every moment. -/
theorem Store.BecomesSound.run (hs : s₀.BecomesSound s) {t : Task} (ht : t.IsLive s)
    {alarm : Failure} (halarm : alarm.IsFinal) (disk : Disk) (steps room : Nat) :
    (Law.soundness s₀).Outcome s (Law.soundness s₀).Good (run disk steps room [] t s) ∧
      runWatched (.sound s₀) alarm disk steps room [] t s = run disk steps room [] t s := by
  have hrun := watches_soundness.run (fun h ↦ h) (fun h ↦ h) halarm disk steps room
    (holds_soundness_iff.2 hs) (admits_soundness_iff.2 ht)
  rwa [runWatched_idle] at hrun

/-! ## Sessions -/

namespace Session

theorem sound_bare : bare.Sound := by
  have hsize : bare.frames.size = 1 := rfl
  refine ⟨⟨rfl, fun f hpos hlt ↦ ?_⟩, fun f fr hfr e he ↦ ?_, fun v hv ↦ ?_⟩
  · rw [hsize] at hlt
    exact absurd hpos (Nat.not_lt.2 (Nat.le_of_lt_succ hlt))
  · obtain ⟨op, hop⟩ := exists_of_mem_bare hfr he
    rw [hop]
    exact .of_parts_eq_nil (hsize ▸ Nat.one_pos : topLevel < bare.frames.size) rfl
  · simp [atoms_bare] at hv

/-- A text is evaluated from a sound store to a sound store. -/
theorem becomesSound_eval {s₀ : Store} (w : World) (source : String) (form : Value) (s : Store)
    (_ : anything w source s) (hread : Reader.read w.depth source = .ok form)
    (hl : (Law.soundness s₀).Holds s) : (Law.soundness s₀).Holds
      (finalStore (run w.disk w.steps w.depth [] (.eval form topLevel) s)) := by
  have hform : form.All (Value.IsLive s) :=
    Value.All.mono (fun _ ↦ (Law.soundness s).ok_written) (Reader.all_isWritten_of_read hread)
  have hlive : Task.IsLive s (.eval form topLevel) := ⟨hform, hl.shape.2.lt_size⟩
  exact ((holds_soundness_iff.1 hl).run hlive Failure.isFinal_overflow w.disk w.steps
    w.depth).1.final.2

theorem Leads.becomesSound {s s' : Store} (hs : s.Sound) (h : Leads anything s s') :
    s.BecomesSound s' :=
  holds_soundness_iff.1 <|
    h.holds (fun _ hl ↦ hl.shape.2.lt_size) becomesSound_eval (holds_soundness_iff.2 ⟨.refl s, hs⟩)

theorem Reachable.sound {s : Store} (h : Reachable anything s) : s.Sound :=
  (holds_soundness_iff.1 <| h.holds (fun _ hl ↦ hl.shape.2.lt_size) becomesSound_eval
    (holds_soundness_iff.2 ⟨.refl bare, sound_bare⟩)).2

/-- **The invariant of sessions.**  Every state of a session is sound, and so is every moment of
every evaluation that starts there and all that it ends in.  In a sound store the ways outwards end
at the top level.  What a session goes on to leaves the frames, their names and the atoms in place,
so that a name that is found stays found. -/
theorem sound_of_reachable :
    (∀ s : Store, Reachable anything s → s.Sound ∧
      ∀ (disk : Disk) (steps room : Nat) (t : Task), t.IsLive s →
        Ends s.BecomesSound (fun s' v ↦ v.All (Value.IsLive s')) (run disk steps room [] t s) ∧
        ∀ alarm : Failure, alarm.IsFinal →
          runWatched (.sound s) alarm disk steps room [] t s = run disk steps room [] t s) ∧
    (∀ s : Store, s.Sound → s.Grounded) ∧
    (∀ s s' : Store, Reachable anything s → Leads anything s s' → s.Extends s') ∧
    (∀ (s s' : Store) (f : FrameId) (name : String), s.Extends s' → f < s.frames.size →
      (s.find? f name).isSome → (s'.find? f name).isSome) := by
  refine ⟨fun s h ↦ ⟨h.sound, fun disk steps room t ht ↦ ?_⟩, ?_, ?_, ?_⟩
  · have hrun {alarm : Failure} (halarm : alarm.IsFinal) :=
      Store.BecomesSound.run ⟨.refl s, h.sound⟩ ht halarm disk steps room
    refine ⟨(hrun Failure.isFinal_overflow).1.ends fun _ ↦ holds_soundness_iff.1, ?_⟩
    exact fun alarm halarm ↦ (hrun halarm).2
  · exact fun s hs ↦ hs.rooted.grounded
  · exact fun s s' h hled ↦ (hled.becomesSound h.sound).1
  · exact fun s s' f name he hf hn ↦ he.isSome_find? hf hn

/-- A session that goes on from the bare top level to a definition, an evaluation there, and a store
that binds one name. -/
theorem sound_of_reachable_definition :
    let w : World := { disk := fun _ ↦ none }
    let s : Store := finalStore (Session.eval w "(def! one 1)" bare)
    let small : Store := { frames := #[⟨⟨[("one", .int 1)]⟩, none⟩] }
    (Reachable anything bare ∧ bare.Sound ∧ bare.Grounded) ∧
    (Task.IsLive bare (.eval (.sym "one") topLevel) ∧ Failure.IsFinal .overflow ∧
      Ends bare.BecomesSound (fun s' v ↦ v.All (Value.IsLive s'))
        (run w.disk 2 1 [] (.eval (.sym "one") topLevel) bare) ∧
      runWatched (.sound bare) .overflow w.disk 2 1 [] (.eval (.sym "one") topLevel) bare =
        run w.disk 2 1 [] (.eval (.sym "one") topLevel) bare) ∧
    (Leads anything bare s ∧ bare.Extends s) ∧
    (small.Extends small ∧ topLevel < small.frames.size ∧ (small.find? topLevel "one").isSome) := by
  intro w s small
  obtain ⟨hsound, hgrounded, hextends, hfind⟩ := sound_of_reachable
  have hbare : Reachable anything bare := reachable_bare w.disk
  have hleads : Leads anything bare s := Leads.refl.eval w _ trivial
  have hlive : Task.IsLive bare (.eval (.sym "one") topLevel) :=
    ⟨.of_parts_eq_nil trivial rfl, Nat.one_pos⟩
  obtain ⟨hs, hrun⟩ := hsound bare hbare
  obtain ⟨hends, hwatch⟩ := hrun w.disk 2 1 _ hlive
  have hsmall : (small.find? topLevel "one").isSome := by
    rw [Store.find?]
    rfl
  refine ⟨⟨hbare, hs, hgrounded bare hs⟩, ⟨hlive, trivial, hends, hwatch .overflow trivial⟩,
    ⟨hleads, hextends bare s hbare hleads⟩, .refl small, Nat.one_pos, ?_⟩
  exact hfind small small topLevel "one" (.refl small) Nat.one_pos hsmall

end Session

end Lisplet
