import Lisplet.Proofs.Limit
import Lisplet.Proofs.Renaming.Effect
import Lisplet.Proofs.Renaming.Form

/-!
# Evaluation does not depend on serial numbers

One step of evaluation does the same with new serial numbers (`Blind.step`), so a run does
(`tracks_run`): from a store with new numbers it ends as it does from the store itself, in the same
value or failure with new numbers and in the store with new numbers, if what is handed out on the
way is counted off as it is renumbered.  The induction is on the steps that are granted, because a
step evaluates through an engine that has fewer of them.

What a computation comes to when enough is granted is renumbered with it (`settles_of_tracks`), and
a renumbered computation comes to nothing else (`exists_of_settles_store`).
-/

set_option autoImplicit false

namespace Lisplet

/-- The form that heads a list has no serial number if it names a special form. -/
theorem SpecialForm.ofHead?_rename (ρ : Nat → Nat) (head : Value) :
    ofHead? (head.rename ρ) = ofHead? head := by
  cases head <;> simp [ofHead?]

namespace Renumbering

variable {R : Renumbering}

section

variable {eng : Engine} (scope : FrameId)

theorem Tracks.lookup (name : String) :
    R.Tracks (Value.rename R.serial) (Scope.lookup eng scope name)
      (Scope.lookup eng scope name) := by
  refine .bind .get fun s ↦ ?_
  rw [store, Store.get?_rename]
  cases s.get? scope name with
  | some v => exact .pure v
  | none => exact .fail eng _

namespace Blind

variable (h : R.Blind eng)
include h

theorem evalAll (forms : List Value) :
    R.Tracks (List.map (Value.rename R.serial)) (forms.mapM (eng.eval scope))
      ((forms.map (Value.rename R.serial)).mapM (eng.eval scope)) :=
  .mapM fun form _ ↦ h.eval scope form

theorem stepCombination (head : Value) (args : List Value) :
    R.Tracks (Step.rename R.serial) (Task.stepCombination eng scope head args)
      (Task.stepCombination eng scope (head.rename R.serial)
        (args.map (Value.rename R.serial))) := by
  refine .bind (h.eval scope head) fun v ↦ ?_
  rw [Value.bare_rename]
  generalize v.bare = w
  have hfail := Tracks.fail (R := R) (f := Step.rename R.serial) eng (.notFunction head w)
  cases w with
  | fn c =>
    rw [Value.rename_fn]
    cases hm : c.isMacro with
    | true =>
      simp only [Closure.isMacro_rename, hm, if_true]
      exact .bind (.enter eng c args) fun inner ↦ .pure (Step.code (.eval c.body inner) scope)
    | false =>
      simp only [Closure.isMacro_rename, hm, Bool.false_eq_true, if_false]
      refine .bind (h.evalAll scope args) fun vs ↦ ?_
      exact .bind (.enter eng c vs) fun inner ↦ .next c.body inner
  | builtin home op =>
    rw [Value.rename_builtin]
    exact .bind (h.evalAll scope args) fun vs ↦ .bind (h.call scope vs op) fun v ↦ .done v
  | _ => simpa [EvalError.rename] using hfail

theorem stepEval (form : Value) :
    R.Tracks (Step.rename R.serial) (Task.stepEval eng scope form)
      (Task.stepEval eng scope (form.rename R.serial)) := by
  have hdone := Tracks.done (R := R) form
  cases form with
  | sym name =>
    rw [Value.rename_sym]
    exact .bind (.lookup scope name) fun v ↦ .done v
  | vec items =>
    rw [Value.rename_vec]
    refine .bind (h.evalAll scope items) fun vs ↦ ?_
    exact .pure_of_eq (congrArg Step.done (Value.rename_vec R.serial vs))
  | map l d =>
    rw [Value.rename_map]
    have hentry (e : Key × Value) :
        R.Tracks (fun e ↦ (e.1, e.2.rename R.serial)) (do return (e.1, ← eng.eval scope e.2))
          (do return (e.1, ← eng.eval scope (e.2.rename R.serial))) :=
      .bind (h.eval scope e.2) fun v ↦ .pure (e.1, v)
    refine .bind (.mapM fun e _ ↦ hentry e) fun entries ↦ ?_
    have hmap := Tracks.labelled (R := R) (.map none ⟨entries⟩)
    rw [Value.rename_map] at hmap
    exact .bind hmap fun v ↦ .done v
  | list l items =>
    rw [Value.rename_list]
    rcases items with _ | ⟨head, args⟩
    · rwa [Value.rename_list] at hdone
    · simp only [List.map_cons, Task.stepEval, SpecialForm.ofHead?_rename]
      cases SpecialForm.ofHead? head with
      | some f => exact h.formStep scope f args
      | none => exact h.stepCombination scope head args
  | _ => simpa [Task.stepEval] using hdone

theorem stepCall (fn : Value) (args : List Value) :
    R.Tracks (Step.rename R.serial) (Task.stepCall eng scope fn args)
      (Task.stepCall eng scope (fn.rename R.serial) (args.map (Value.rename R.serial))) := by
  have hfail := Tracks.fail (R := R) (f := Step.rename R.serial) eng (.notApplicable fn)
  rw [Task.stepCall, Task.stepCall, Value.bare_rename]
  generalize fn.bare = w
  cases w with
  | fn c =>
    rw [Value.rename_fn]
    exact .bind (.enter eng c args) fun inner ↦ .next c.body inner
  | builtin home op =>
    rw [Value.rename_builtin]
    exact .bind (h.call scope args op) fun v ↦ .done v
  | _ => simpa [EvalError.rename] using hfail

theorem stepExpand (form : Value) :
    R.Tracks (Step.rename R.serial) (Task.stepExpand eng scope form)
      (Task.stepExpand eng scope (form.rename R.serial)) := by
  refine .bind .get fun s ↦ ?_
  rw [store, Store.macroCall?_rename]
  cases s.macroCall? scope form with
  | none => exact .done form
  | some p =>
    refine .bind (.discard (.print eng .readable "" [form])) fun _ ↦ ?_
    refine .bind (.enter eng p.1 p.2) fun inner ↦ ?_
    exact .bind (h.eval inner p.1.body) fun v ↦ .pure (Step.next (.expand v scope))

/-- **A step does the same with new serial numbers.** -/
theorem step (t : Task) :
    R.Tracks (Step.rename R.serial) (t.step eng) ((t.rename R.serial).step eng) := by
  cases t with
  | eval form scope => exact h.stepEval scope form
  | call fn args scope => exact h.stepCall scope fn args
  | expand form scope => exact h.stepExpand scope form

end Blind

end

/-- **A run does the same with new serial numbers.** -/
theorem tracks_run (disk : Disk) (steps room : Nat) (sites : List FrameId) (t : Task) :
    R.Tracks (Value.rename R.serial) (run disk steps room sites t)
      (run disk steps room sites (t.rename R.serial)) := by
  induction steps generalizing room sites t with
  | zero => exact .throw .exhausted
  | succ steps ih =>
    have hblind : R.Blind ⟨room, disk, nested (fun room t ↦ run disk steps room [] t) room⟩ := by
      intro t
      cases room with
      | zero => exact .throw .overflow
      | succ room => exact ih room [] t
    rw [run_succ, run_succ]
    refine .bind (hblind.step t) fun st ↦ ?_
    cases st with
    | next t => exact ih room sites t
    | code t site => exact ih room (site :: sites) t
    | done v =>
      cases sites with
      | nil => exact .pure v
      | cons site sites => exact ih room sites (.eval v site)

theorem blind_granted (disk : Disk) (steps room : Nat) : R.Blind (.granted disk steps room) :=
  fun t ↦ tracks_run disk steps room [] t

/-! ## What settles -/

section

variable {α β : Type} {disk : Disk} {f : α → β} {x : Engine → Eval α} {y : Engine → Eval β}
  (hxy : ∀ steps room, R.Tracks f (x (.granted disk steps room)) (y (.granted disk steps room)))
  {s : Store}
include hxy

/-- Whatever a computation settles in, the count has not fallen. -/
theorem serials_le_of_tracks {r : EStateM.Result Failure Store α} (h : Settles disk x s r) :
    s.serials ≤ (finalStore r).serials := by
  obtain ⟨-, n, hn⟩ := h
  rw [← hn n n (Nat.le_refl n) (Nat.le_refl n)]
  exact (hxy n n s).1

/-- **A renumbered computation settles** in what the computation settles in, renumbered. -/
theorem settles_of_tracks {r : EStateM.Result Failure Store α} (h : Settles disk x s r)
    (hcounts : R.Counts s.serials (finalStore r).serials) :
    Settles disk y (R.store s) (R.ending f r) := by
  obtain ⟨hr, n, hn⟩ := h
  refine ⟨settled_ending.2 hr, n, fun steps room hsteps hroom ↦ ?_⟩
  have hx := hn steps room hsteps hroom
  rw [← hx] at hcounts ⊢
  exact (hxy steps room s).2 hcounts

/-- **A computation settles if the renumbered one does**, which has settled in nothing else. -/
theorem exists_of_settles_store (hx : Growing disk x) (hcounts : ∀ n, R.Counts s.serials n)
    {q : EStateM.Result Failure Store β} (h : Settles disk y (R.store s) q) :
    ∃ r, Settles disk x s r ∧ q = R.ending f r := by
  obtain ⟨hq, n, hn⟩ := h
  have hy := hn n n (Nat.le_refl n) (Nat.le_refl n)
  rw [(hxy n n s).2 (hcounts _)] at hy
  exact ⟨_, hx.settles rfl (settled_ending.1 (hy ▸ hq)), hy.symm⟩

end

end Renumbering

end Lisplet
