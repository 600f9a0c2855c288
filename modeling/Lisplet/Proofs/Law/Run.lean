import Lisplet.Proofs.Law.Effect
import Lisplet.Proofs.Law.Form
import Lisplet.Proofs.Watch

/-!
# Runs keep every law

One step of evaluation keeps every law (`Engines.step`), so a run does (`run_agree`).  The induction
is on the steps that are granted, because a step evaluates through an engine that has fewer of them;
what is known of the engine is exactly the statement about runs with fewer steps.

The two runs of `run_agree` may be watched.  They agree if, where the law holds, both watches let
the same pass, and if the second run is granted the steps and the room of the first, or more steps
by a lax law and more room by a roomy one.
-/

set_option autoImplicit false

namespace Lisplet.Law

variable {L : Law} {s : Store} {eng eng' : Engine} {scope : FrameId}

/-! ## One step -/

/-- The macro that heads a good form is good, and so are the forms it is given. -/
theorem Holds.macroCall? {form : Value} {c : Closure Value} {args : List Value} (hl : L.Holds s)
    (hform : L.Good s form) (hm : s.macroCall? scope form = some (c, args)) :
    L.Good s (.fn c) ∧ ∀ v ∈ args, L.Good s v := by
  rw [Store.macroCall?.eq_def] at hm
  split at hm
  · rename_i args' _
    split at hm
    · rename_i c' heq
      split at hm
      · obtain ⟨rfl, rfl⟩ := Prod.mk.inj (Option.some.inj hm)
        obtain ⟨v, hv, hbare⟩ := Option.map_eq_some_iff.1 heq
        refine ⟨hbare ▸ (hl.get? hv).bare, fun w hw ↦ ?_⟩
        exact hform.inside (List.mem_cons_of_mem _ hw)
      · simp at hm
    · simp at hm
  · simp at hm

namespace Engines

variable (h : L.Engines eng eng')
include h

theorem lookup (name : String) :
    L.Agree s (Scope.lookup eng scope name) (Scope.lookup eng' scope name)
      fun s₁ v ↦ L.Good s₁ v := by
  refine .bind .get fun s₁ s' hs₁ hget ↦ ?_
  obtain ⟨rfl, hl⟩ := hget
  split
  · rename_i v hv
    exact .pure fun s₂ hs₂ ↦ (hl.get? hv).mono hs₂
  · exact h.fail _

/-- The values of the arguments of a call. -/
theorem evalAll {forms : List Value} (hforms : ∀ v ∈ forms, L.Good s v)
    (hscope : L.active s scope) :
    L.Agree s (forms.mapM (eng.eval scope)) (forms.mapM (eng'.eval scope))
      fun s₁ vs ↦ ∀ v ∈ vs, L.Good s₁ v ∧ L.fits v :=
  .mapM (fun _ _ _ hs hv ↦ ⟨hv.1.mono hs, hv.2⟩) fun v hv ↦ h.eval (hforms v hv) hscope

theorem stepCombination {head : Value} {args : List Value} (hhead : L.Good s head)
    (hargs : ∀ v ∈ args, L.Good s v) (hscope : L.active s scope) :
    L.Agree s (Task.stepCombination eng scope head args)
      (Task.stepCombination eng' scope head args) fun s₁ st ↦ L.Reached s₁ st := by
  refine .bind (h.eval hhead hscope) fun s₁ f hs₁ hf ↦ ?_
  have hb : L.Good s₁ f.bare := hf.1.bare
  have hargs₁ : ∀ v ∈ args, L.Good s₁ v := fun v hv ↦ (hargs v hv).mono hs₁
  have hscope₁ : L.active s₁ scope := L.active_mono hs₁ hscope
  split
  · rename_i c heq
    rw [heq] at hb
    split
    · refine .bind (h.enter hb hargs₁) fun s₂ inner hs₂ hinner ↦ .pure fun s₃ hs₃ ↦ ?_
      have hs : s₁.Extends s₃ := hs₂.trans hs₃
      exact ⟨⟨Good.mono hs hb.body, L.active_mono hs₃ hinner⟩, L.active_mono hs hscope₁⟩
    · refine .bind (h.evalAll hargs₁ hscope₁) fun s₂ vs hs₂ hvs ↦ ?_
      have hfn : L.Good s₂ (.fn c) := hb.mono hs₂
      refine .bind (h.enter hfn fun v hv ↦ (hvs v hv).1) fun s₃ inner hs₃ hinner ↦ ?_
      refine .pure fun s₄ hs₄ ↦ ⟨?_, L.active_mono hs₄ hinner⟩
      exact Good.mono (hs₃.trans hs₄) hfn.body
  · rename_i home op heq
    refine .bind (h.evalAll hargs₁ hscope₁) fun s₂ vs hs₂ hvs ↦ ?_
    have hcall := h.call op (fun v hv ↦ (hvs v hv).1) (fun v hv ↦ (hvs v hv).2)
      (L.active_mono hs₂ hscope₁)
    exact .bind hcall fun s₃ v hs₃ hv ↦ .pure fun s₄ hs₄ ↦ Good.mono hs₄ hv
  · exact h.fail _

theorem stepEval {form : Value} (hform : L.Good s form) (hscope : L.active s scope) :
    L.Agree s (Task.stepEval eng scope form) (Task.stepEval eng' scope form)
      fun s₁ st ↦ L.Reached s₁ st := by
  rw [Task.stepEval.eq_def, Task.stepEval.eq_def]
  split
  · exact .bind (h.lookup _) fun s₁ v hs₁ hv ↦ .pure fun s₂ hs₂ ↦ Good.mono hs₂ hv
  · refine .bind (h.evalAll (fun _ hv ↦ hform.inside hv) hscope) fun s₁ vs hs₁ hvs ↦ ?_
    exact .pure fun s₂ hs₂ ↦ good_vec fun v hv ↦ (hvs v hv).1.mono hs₂
  · rename_i l d
    have hentries : L.Agree s
        (d.entries.mapM fun e ↦ return (e.1, ← eng.eval scope e.2))
        (d.entries.mapM fun e ↦ return (e.1, ← eng'.eval scope e.2))
        fun s₁ es ↦ ∀ e ∈ es, L.Good s₁ (.ofKey e.1) ∧ L.Good s₁ e.2 := by
      refine .mapM (fun _ _ _ hs he ↦ ⟨he.1.mono hs, he.2.mono hs⟩) fun e he ↦ ?_
      obtain ⟨hkey, hval⟩ := Value.All.entry hform he
      refine .bind (h.eval hval hscope) fun s₁ v hs₁ hv ↦ .pure fun s₂ hs₂ ↦ ?_
      exact ⟨Good.mono (hs₁.trans hs₂) hkey, hv.1.mono hs₂⟩
    refine .bind hentries fun s₁ es hs₁ hes ↦ .bind (agree_labelled (good_map none hes)) ?_
    exact fun s₂ v hs₂ hv ↦ .pure fun s₃ hs₃ ↦ Good.mono hs₃ hv
  · rename_i head args
    have hparts : ∀ v ∈ head :: args, L.Good s v := fun v hv ↦ hform.inside hv
    obtain ⟨hhead, hargs⟩ := List.forall_mem_cons.1 hparts
    split
    · exact h.formStep hargs hscope _
    · exact h.stepCombination hhead hargs hscope
  · exact .pure fun s₁ hs₁ ↦ hform.mono hs₁

theorem stepCall {fn : Value} {args : List Value} (hfn : L.Good s fn)
    (hargs : ∀ v ∈ args, L.Good s v) (hfits : ∀ v ∈ args, L.fits v) (hscope : L.active s scope) :
    L.Agree s (Task.stepCall eng scope fn args) (Task.stepCall eng' scope fn args)
      fun s₁ st ↦ L.Reached s₁ st := by
  have hb : L.Good s fn.bare := hfn.bare
  rw [Task.stepCall, Task.stepCall]
  split
  · rename_i c heq
    rw [heq] at hb
    refine .bind (h.enter hb hargs) fun s₁ inner hs₁ hinner ↦ .pure fun s₂ hs₂ ↦ ?_
    exact ⟨Good.mono (hs₁.trans hs₂) hb.body, L.active_mono hs₂ hinner⟩
  · refine .bind (h.call _ hargs hfits hscope) fun s₁ v hs₁ hv ↦ ?_
    exact .pure fun s₂ hs₂ ↦ Good.mono hs₂ hv
  · exact h.fail _

theorem stepExpand {form : Value} (hform : L.Good s form) (hscope : L.active s scope) :
    L.Agree s (Task.stepExpand eng scope form) (Task.stepExpand eng' scope form)
      fun s₁ st ↦ L.Reached s₁ st := by
  refine .bind .get fun s₁ s' hs₁ hget ↦ ?_
  obtain ⟨rfl, hl⟩ := hget
  split
  · exact .pure fun s₂ hs₂ ↦ hform.mono (hs₁.trans hs₂)
  · rename_i c args hm
    obtain ⟨hc, hargs⟩ := hl.macroCall? (hform.mono hs₁) hm
    refine .bind (.discard (h.print _ _ _)) fun s₂ _ hs₂ _ ↦ ?_
    have hc₂ : L.Good s₂ (.fn c) := hc.mono hs₂
    refine .bind (h.enter hc₂ fun v hv ↦ (hargs v hv).mono hs₂) fun s₃ inner hs₃ hinner ↦ ?_
    refine .bind (h.eval (Good.mono hs₃ hc₂.body) hinner) fun s₄ v hs₄ hv ↦ ?_
    refine .pure fun s₅ hs₅ ↦ ⟨hv.1.mono hs₅, L.active_mono ?_ hscope⟩
    exact hs₁.trans (hs₂.trans (hs₃.trans (hs₄.trans hs₅)))

/-- **A step keeps every law**: what it comes to is good, or a good task to go on with. -/
theorem step {t : Task} (ht : L.Admits s t) (hfits : L.Fits t) :
    L.Agree s (t.step eng) (t.step eng') fun s₁ st ↦ L.Reached s₁ st := by
  cases t with
  | eval form scope => exact h.stepEval ht.1 ht.2
  | call fn args scope => exact h.stepCall ht.1 ht.2.1 hfits ht.2.2
  | expand form scope => exact h.stepExpand ht.1 ht.2

end Engines

/-! ## A run -/

/-- What a watch checks it for can be relied on, and another watch lets the same pass. -/
structure Watches (L : Law) (w w' : Watch) : Prop where
  task : ∀ {s : Store} {sites : List FrameId} {t : Task}, L.Holds s → (∀ f ∈ sites, L.active s f) →
    L.Admits s t → (w.task s sites t ↔ w'.task s sites t)
  value : ∀ {s : Store} {sites : List FrameId} {v : Value}, L.Holds s →
    (∀ f ∈ sites, L.active s f) → L.Good s v → (w.value s sites v ↔ w'.value s sites v)
  fits_task : ∀ {s : Store} {sites : List FrameId} {t : Task}, w.task s sites t → L.Fits t
  fits_value : ∀ {s : Store} {sites : List FrameId} {v : Value}, w.value s sites v → L.fits v

/-- Without anyone watching, nothing can be relied on, and a law may ask for nothing. -/
theorem Watches.idle (hfits : ∀ v, L.fits v) : L.Watches .idle .idle where
  task _ _ _ := Iff.rfl
  value _ _ _ := Iff.rfl
  fits_task {_ _ t} _ := by
    cases t with
    | call => exact fun v _ ↦ hfits v
    | _ => trivial
  fits_value _ := hfits _

theorem agree_require {alarm : Failure} (halarm : alarm.IsFinal) {P P' : Store → Prop}
    (h : ∀ s₁, s.Extends s₁ → L.Holds s₁ → (P s₁ ↔ P' s₁)) :
    L.Agree s (Eval.require P alarm) (Eval.require P' alarm) fun s₁ _ ↦ P s₁ := by
  intro s₁ hs₁ hl
  have hiff : P s₁ ↔ P' s₁ := h s₁ hs₁ hl
  rw [Eval.require, Eval.require]
  by_cases hp : P s₁
  · rw [if_pos hp, if_pos (hiff.1 hp)]
    exact ⟨⟨.refl s₁, hl, hp⟩, fun _ ↦ rfl⟩
  · rw [if_neg hp, if_neg (mt hiff.2 hp)]
    refine ⟨⟨.refl s₁, hl, ?_⟩, fun _ ↦ rfl⟩
    cases alarm with
    | thrown => exact halarm.elim
    | _ => trivial

/-- Evaluation one level further down agrees if it does in less room. -/
theorem agree_nested {go go' : Nat → Task → Eval Value} {room room' : Nat} (hroom : room ≤ room')
    (hexact : ¬L.roomy → room' = room) {t : Task} {Q : Store → Value → Prop}
    (h : ∀ k k', k ≤ k' → (¬L.roomy → k' = k) → L.Agree s (go k t) (go' k' t) Q) :
    L.Agree s (nested go room t) (nested go' room' t) Q := by
  cases room with
  | zero =>
    by_cases hroomy : L.roomy
    · exact .overflow hroomy
    · rw [hexact hroomy]
      exact .throw fun _ _ ↦ trivial
  | succ room =>
    obtain ⟨room', rfl⟩ := Nat.exists_eq_add_one.2 (Nat.lt_of_lt_of_le room.succ_pos hroom)
    exact h room room' (Nat.le_of_succ_le_succ hroom) fun hroomy ↦ Nat.succ.inj (hexact hroomy)

/-- The engines of two steps agree if the runs inside them do. -/
theorem engines_nested {go go' : Nat → Task → Eval Value} {disk : Disk} {room room' : Nat}
    (hroom : room ≤ room') (hexact : ¬L.roomy → room' = room)
    (h : ∀ k k', k ≤ k' → (¬L.roomy → k' = k) → ∀ (s : Store) (t : Task), L.Admits s t →
      L.Agree s (go k t) (go' k' t) fun s₁ v ↦ L.Good s₁ v ∧ L.fits v) :
    L.Engines ⟨room, disk, nested go room⟩ ⟨room', disk, nested go' room'⟩ := by
  refine ⟨rfl, hroom, hexact, fun s t ht ↦ ?_⟩
  exact agree_nested hroom hexact fun k k' hk hexact' ↦ h k k' hk hexact' s t ht

/-- **A run keeps every law, whoever watches**, and more steps and more room change nothing. -/
theorem run_agree {w w' : Watch} (hw : L.Watches w w') {alarm : Failure} (halarm : alarm.IsFinal)
    (disk : Disk) {m n room room' : Nat} (hmn : m ≤ n) (hroom : room ≤ room')
    (hstrict : ¬L.lax → n = m) (hexact : ¬L.roomy → room' = room) {sites : List FrameId} {t : Task}
    (hsites : ∀ f ∈ sites, L.active s f) (ht : L.Admits s t) :
    L.Agree s (runWatched w alarm disk m room sites t) (runWatched w' alarm disk n room' sites t)
      fun s₁ v ↦ L.Good s₁ v ∧ L.fits v := by
  induction m generalizing s n room room' sites t with
  | zero =>
    by_cases hlax : L.lax
    · exact .exhausted hlax
    · obtain rfl := hstrict hlax
      exact .throw fun _ _ ↦ trivial
  | succ m ih =>
    obtain ⟨n, rfl⟩ := Nat.exists_eq_add_one.2 (Nat.lt_of_lt_of_le m.succ_pos hmn)
    replace hmn : m ≤ n := Nat.le_of_succ_le_succ hmn
    replace hstrict (hlax : ¬L.lax) : n = m := Nat.succ.inj (hstrict hlax)
    rw [runWatched, runWatched]
    refine .bind (agree_require halarm fun s₁ hs₁ hl ↦ ?_) fun s₁ _ hs₁ hpass ↦ ?_
    · exact hw.task hl (fun f hf ↦ L.active_mono hs₁ (hsites f hf)) (ht.mono hs₁)
    -- one level further down there are fewer steps, and one unit of room less
    have hengines : L.Engines
        ⟨room, disk, nested (fun room t ↦ runWatched w alarm disk m room [] t) room⟩
        ⟨room', disk, nested (fun room t ↦ runWatched w' alarm disk n room [] t) room'⟩ :=
      engines_nested hroom hexact fun k k' hk hexact' s₂ t₂ ht₂ ↦
        ih hmn hk hstrict hexact' (by simp) ht₂
    refine .bind (hengines.step (ht.mono hs₁) (hw.fits_task hpass)) fun s₂ st hs₂ hst ↦ ?_
    have hs : s.Extends s₂ := hs₁.trans hs₂
    have hsites₂ : ∀ f ∈ sites, L.active s₂ f := fun f hf ↦ L.active_mono hs (hsites f hf)
    cases st with
    | next t => exact ih hmn hroom hstrict hexact hsites₂ hst
    | code t site =>
      exact ih hmn hroom hstrict hexact (List.forall_mem_cons.2 ⟨hst.2, hsites₂⟩) hst.1
    | done v =>
      refine .bind (agree_require halarm fun s₃ hs₃ hl ↦ ?_) fun s₃ _ hs₃ hpass ↦ ?_
      · exact hw.value hl (fun f hf ↦ L.active_mono hs₃ (hsites₂ f hf)) (Good.mono hs₃ hst)
      cases sites with
      | nil => exact .pure fun s₄ hs₄ ↦ ⟨Good.mono (hs₃.trans hs₄) hst, hw.fits_value hpass⟩
      | cons site sites =>
        obtain ⟨hsite, hrest⟩ := List.forall_mem_cons.1 hsites₂
        refine ih hmn hroom hstrict hexact (fun f hf ↦ L.active_mono hs₃ (hrest f hf)) ?_
        exact ⟨Good.mono hs₃ hst, L.active_mono hs₃ hsite⟩

/-- An evaluation from a store that obeys a law keeps it, and ends in the same way under the other
watch. -/
theorem Watches.run {w w' : Watch} (hw : L.Watches w w') (hlax : ¬L.lax) (hroomy : ¬L.roomy)
    {alarm : Failure} (halarm : alarm.IsFinal) (disk : Disk) (steps room : Nat) {t : Task}
    (hs : L.Holds s) (ht : L.Admits s t) :
    L.Outcome s L.Good (runWatched w alarm disk steps room [] t s) ∧
      runWatched w' alarm disk steps room [] t s = runWatched w alarm disk steps room [] t s := by
  have hsites : ∀ f ∈ ([] : List FrameId), L.active s f := by simp
  have hagree := run_agree hw halarm disk (Nat.le_refl steps) (Nat.le_refl room)
    (fun _ ↦ rfl) (fun _ ↦ rfl) hsites ht
  obtain ⟨hout, heq⟩ := hagree.imp (fun _ _ _ hv ↦ hv.1) s (.refl s) hs
  exact ⟨hout, heq (answers_of_strict hlax hroomy _)⟩

end Lisplet.Law
