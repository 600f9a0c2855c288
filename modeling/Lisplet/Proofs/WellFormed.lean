import Lisplet.Proofs.Session

/-!
# Every value is well-formed

Integers are in range, symbols and keywords have names that can be written, and metadata is put
directly on a collection or a function: of every value that a session produces, binds, puts into an
atom or throws, and of everything inside it, the code of closures included (`Value.IsWellFormed`).
That the keys of maps are strings and keywords is in the type of values already.

All integers are checked when they are made, but for the number of elements of a collection.  So the
statement is about sessions in which no value has `2 ^ 63` elements or more.  Whether one has shows
at the moment when it comes up, and so the proviso is about runs: that watching them for such
collections sets off no alarm (`Session.Moderate`).
-/

set_option autoImplicit false

namespace Lisplet

/-! ## Well-formed values -/

namespace Value

/-- A value is as it should be, apart from what is inside it. -/
def IsWellFormed : Value → Prop
  | int n => Integer.InRange n
  | sym name => IsSymbolName name
  | kw name => IsKeywordName name
  | withMeta v _ => Builtin.Kind.takesMetadata v = true
  | _ => True

/-- There are fewer elements than the 63rd power of two, if there are any. -/
def IsCountable (v : Value) : Prop :=
  ∀ vs, v.items? = some vs → vs.length < 9223372036854775808

theorem IsWritten.isWellFormed {v : Value} (h : v.IsWritten) : v.IsWellFormed := by
  cases v with
  | fn | builtin | atom | withMeta => exact h.elim
  | _ => exact h

end Value

/-- The values of a task are well-formed. -/
def Task.IsWellFormed : Task → Prop
  | .eval form _ | .expand form _ => form.All Value.IsWellFormed
  | .call fn args _ => fn.All Value.IsWellFormed ∧ ∀ v ∈ args, v.All Value.IsWellFormed

/-- The arguments of a task are countable. -/
def Task.IsCountable : Task → Prop
  | .call _ args _ => ∀ v ∈ args, v.IsCountable
  | _ => True

/-- Whatever a frame binds or an atom holds is well-formed. -/
structure Store.IsWellFormed (s : Store) : Prop where
  bound : ∀ (f : FrameId) (fr : Frame), s.frames[f]? = some fr →
    ∀ e ∈ fr.vars.entries, e.2.All Value.IsWellFormed
  stored : ∀ v ∈ s.atoms, v.All Value.IsWellFormed

/-- Looks whether the arguments of calls and the values that steps come to are countable. -/
def Watch.countable : Watch where
  task _ _ t := t.IsCountable
  value _ _ v := v.IsCountable

/-- Looks, besides, whether everything is well-formed. -/
def Watch.wellFormed : Watch where
  task s _ t := t.IsCountable ∧ s.IsWellFormed ∧ t.IsWellFormed
  value s _ v := v.IsCountable ∧ s.IsWellFormed ∧ v.All Value.IsWellFormed

/-! ## The law -/

theorem inRange_length {vs : List Value} (h : vs.length < 9223372036854775808) :
    Integer.InRange vs.length := by
  rw [Integer.InRange, Integer.least, Integer.greatest]
  omega

/-- That values are well-formed, as a law of evaluation. -/
def Law.wellFormed : Law where
  lax := False
  fits v := v.IsCountable
  shape _ := True
  captured _ _ := True
  active _ _ := True
  ok _ v := v.IsWellFormed
  captured_mono _ _ := trivial
  active_mono _ _ := trivial
  ok_mono _ hv := hv
  captured_of_active _ := trivial
  shape_congr _ _ _ := trivial
  shape_define _ _ _ _ := trivial
  shape_addFrame _ _ _ := trivial
  active_addFrame _ _ _ := trivial
  active_topLevel _ _ := trivial
  ok_written hv := hv.isWellFormed
  ok_fn := Iff.rfl
  ok_atom _ := trivial
  ok_withMeta _ h := h
  ok_count h hvs := inRange_length (h _ hvs)

variable {s : Store} {t : Task}

theorem holds_wellFormed_iff : Law.wellFormed.Holds s ↔ s.IsWellFormed :=
  ⟨fun h ↦ ⟨h.bound, h.stored⟩, fun h ↦ ⟨trivial, h.bound, h.stored⟩⟩

theorem admits_wellFormed_iff : Law.wellFormed.Admits s t ↔ t.IsWellFormed := by
  cases t with
  | eval | expand => exact ⟨fun h ↦ h.1, fun h ↦ ⟨h, trivial⟩⟩
  | call => exact ⟨fun h ↦ ⟨h.1, h.2.1⟩, fun h ↦ ⟨h.1, h.2, trivial⟩⟩

theorem watches_wellFormed : Law.wellFormed.Watches .countable .wellFormed where
  task hl _ ht :=
    ⟨fun h ↦ ⟨h, holds_wellFormed_iff.1 hl, admits_wellFormed_iff.1 ht⟩, fun h ↦ h.1⟩
  value hl _ hv := ⟨fun h ↦ ⟨h, holds_wellFormed_iff.1 hl, hv⟩, fun h ↦ h.1⟩
  fits_task {_ _ t} h := by
    cases t with
    | call => exact h
    | _ => trivial
  fits_value h := h

/-- Every moment of a run is countable: an alarm for what is not changes nothing. -/
def StaysCountable (disk : Disk) (steps room : Nat) (t : Task) (s : Store) : Prop :=
  ∀ alarm : Failure, alarm.IsFinal →
    runWatched .countable alarm disk steps room [] t s = run disk steps room [] t s

/-- **A run from a well-formed store** that stays countable keeps it well-formed, and is well-formed
at every moment. -/
theorem Store.IsWellFormed.run (hs : s.IsWellFormed) (ht : t.IsWellFormed) {disk : Disk}
    {steps room : Nat} (hcount : StaysCountable disk steps room t s) {alarm : Failure}
    (halarm : alarm.IsFinal) :
    Law.wellFormed.Outcome s Law.wellFormed.Good (run disk steps room [] t s) ∧
      runWatched .wellFormed alarm disk steps room [] t s = run disk steps room [] t s := by
  have hrun := watches_wellFormed.run (fun h ↦ h) (fun h ↦ h) halarm disk steps room
    (holds_wellFormed_iff.2 hs) (admits_wellFormed_iff.2 ht)
  rwa [hcount alarm halarm] at hrun

/-! ## Sessions -/

namespace Session

/-- Evaluating the form of a text stays countable. -/
def Moderate (w : World) (source : String) (s : Store) : Prop :=
  ∀ form, Reader.read w.depth source = .ok form →
    StaysCountable w.disk w.steps w.depth (.eval form topLevel) s

theorem isWellFormed_bare : bare.IsWellFormed := by
  refine ⟨fun f fr hfr e he ↦ ?_, fun v hv ↦ ?_⟩
  · obtain ⟨op, hop⟩ := exists_of_mem_bare hfr he
    rw [hop]
    exact .of_parts_eq_nil trivial rfl
  · simp [atoms_bare] at hv

theorem isWellFormed_of_read {limit : Nat} {source : String} {form : Value}
    (h : Reader.read limit source = .ok form) : form.All Value.IsWellFormed :=
  Value.All.mono (fun _ ↦ Value.IsWritten.isWellFormed) (Reader.all_isWritten_of_read h)

theorem Reachable.isWellFormed (h : Reachable Moderate s) : s.IsWellFormed := by
  refine holds_wellFormed_iff.1 (h.holds (fun _ _ ↦ trivial) ?_ ?_)
  · intro w source form s₁ hmoderate hread hl
    have hform : Task.IsWellFormed (.eval form topLevel) := isWellFormed_of_read hread
    exact ((holds_wellFormed_iff.1 hl).run hform (hmoderate form hread)
      Failure.isFinal_overflow).1.final.2
  · exact holds_wellFormed_iff.2 isWellFormed_bare

/-- **Every value of a session is well-formed**, provided that no collection has `2 ^ 63` elements
or more: every form that is read, whatever the store binds or holds, and whatever an evaluation goes
through, comes to or throws. -/
theorem wellFormed_of_reachable :
    (∀ (limit : Nat) (source : String) (form : Value), Reader.read limit source = .ok form →
      form.All Value.IsWellFormed) ∧
    (∀ s : Store, Reachable Moderate s → s.IsWellFormed ∧
      ∀ (disk : Disk) (steps room : Nat) (t : Task), t.IsWellFormed →
        StaysCountable disk steps room t s →
        Ends Store.IsWellFormed (fun _ v ↦ v.All Value.IsWellFormed)
          (run disk steps room [] t s) ∧
        ∀ alarm : Failure, alarm.IsFinal →
          runWatched .wellFormed alarm disk steps room [] t s = run disk steps room [] t s) := by
  refine ⟨fun _ _ _ ↦ isWellFormed_of_read, fun s h ↦ ⟨h.isWellFormed, ?_⟩⟩
  intro disk steps room t ht hcount
  refine ⟨(h.isWellFormed.run ht hcount Failure.isFinal_overflow).1.ends ?_, ?_⟩
  · exact fun _ ↦ holds_wellFormed_iff.1
  · exact fun alarm halarm ↦ (h.isWellFormed.run ht hcount halarm).2

/-- Counting a vector of two elements stays countable, and so all of it is well-formed. -/
theorem wellFormed_of_reachable_count :
    let t : Task := .call (.builtin topLevel .count) [.vec [.int 1, .int 2]] topLevel
    let disk : Disk := fun _ ↦ none
    (Reader.read 10 "[1 2]" = .ok (.vec [.int 1, .int 2]) ∧
      (Value.vec [.int 1, .int 2]).All Value.IsWellFormed) ∧
    Reachable Moderate bare ∧ t.IsWellFormed ∧ StaysCountable disk 1 1 t bare ∧
    Ends Store.IsWellFormed (fun _ v ↦ v.All Value.IsWellFormed) (run disk 1 1 [] t bare) ∧
    Failure.IsFinal .overflow ∧
    runWatched .wellFormed .overflow disk 1 1 [] t bare = run disk 1 1 [] t bare := by
  intro t disk
  obtain ⟨hforms, hruns⟩ := wellFormed_of_reachable
  have hread : Reader.read 10 "[1 2]" = .ok (.vec [.int 1, .int 2]) := rfl
  have hbare : Reachable Moderate bare := reachable_bare disk
  have ht : t.IsWellFormed := by
    refine ⟨.of_parts_eq_nil trivial rfl, fun v hv ↦ ?_⟩
    obtain rfl := List.mem_singleton.1 hv
    exact hforms 10 _ _ hread
  have hargs : t.IsCountable := by
    intro v hv vs hvs
    obtain rfl := List.mem_singleton.1 hv
    obtain rfl := Option.some.inj hvs
    decide
  have hvalue : (Value.int 2).IsCountable := by
    intro vs hvs
    simp [Value.items?, Value.bare] at hvs
  have hcount : StaysCountable disk 1 1 t bare := by
    intro alarm _
    rw [runWatched, run]
    show (Eval.require (fun _ ↦ t.IsCountable) alarm >>= _) bare = _
    rw [Eval.require_eq_pure fun _ ↦ hargs]
    show (Eval.require (fun _ ↦ (Value.int 2).IsCountable) alarm >>= _) bare = _
    rw [Eval.require_eq_pure fun _ ↦ hvalue]
    rfl
  obtain ⟨-, hrun⟩ := hruns bare hbare
  obtain ⟨hends, hwatch⟩ := hrun disk 1 1 t ht hcount
  exact ⟨⟨hread, hforms 10 _ _ hread⟩, hbare, ht, hcount, hends, trivial, hwatch .overflow trivial⟩

end Session

end Lisplet
