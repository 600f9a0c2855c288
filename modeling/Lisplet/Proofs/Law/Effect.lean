import Lisplet.Builtin.Call
import Lisplet.Proofs.Law.Builtin

/-!
# Calls of built-in functions

Those that need more than their arguments get it from their engine, so two engines that agree give
calls that agree (`Engines.call`).  Atoms hold good values because only good values are put there;
what is read from a text is good because it can be written.
-/

set_option autoImplicit false

namespace Lisplet.Law

open Builtin (one two text cell itemsOrNil)

variable {L : Law} {eng eng' : Engine} (h : L.Engines eng eng') {s : Store} {args : List Value}
  {scope : FrameId}

namespace Engines

section
include h

/-! ## Comparing, printing and reading -/

theorem equal :
    L.Agree s (Effect.equal eng args) (Effect.equal eng' args) fun s₁ v ↦ L.Good s₁ v := by
  refine .bind (h.lift yields_two) fun s₁ p hs₁ hp ↦ ?_
  refine .bind (h.fit (fun _ _ hmn ↦ Value.equal?_within hmn p.1 p.2) fun _ _ _ _ ↦ trivial) ?_
  exact fun _ b _ _ ↦ .pure fun _ _ ↦ good_bool b

theorem toText (style : PrintStyle) (sep : String) :
    L.Agree s (Effect.toText eng style sep args) (Effect.toText eng' style sep args)
      fun s₁ v ↦ L.Good s₁ v :=
  .bind (h.print style sep args) fun _ text _ _ ↦ .pure fun _ _ ↦ good_str text

theorem printLine (style : PrintStyle) :
    L.Agree s (Effect.printLine eng style args) (Effect.printLine eng' style args)
      fun s₁ v ↦ L.Good s₁ v := by
  refine .bind (h.print style " " args) fun s₁ line hs₁ _ ↦ ?_
  refine .bind (.change fun s₂ _ hl ↦ ?_) fun _ _ _ _ ↦ .pure fun _ _ ↦ good_nil
  exact ⟨s₂.extends_write _, hl.congr rfl rfl⟩

/-- **What is read from a text can be written.** -/
theorem readText (text : String) (unreadable : ReadError → EvalError) :
    L.Agree s (Effect.readText eng text unreadable) (Effect.readText eng' text unreadable)
      fun _ v ↦ v.All Value.IsWritten := by
  have hread := Reader.read_sameUnless h.room_le text
  rw [Effect.readText, Effect.readText]
  match hr : Reader.read eng.room text with
  | .ok form =>
    rw [hread (by simp [hr]), hr]
    exact .pure fun _ _ ↦ Reader.all_isWritten_of_read hr
  | .error (.error e) =>
    rw [hread (by simp [hr]), hr]
    exact h.fail _
  | .error .tooDeep =>
    by_cases hroomy : L.roomy
    · exact .overflow hroomy
    · rw [h.room_eq hroomy, hr]
      exact .throw fun _ _ ↦ trivial
  | .error (.unconverted digits) =>
    rw [hread (by simp [hr]), hr]
    exact .throw fun _ _ ↦ trivial

theorem readString :
    L.Agree s (Effect.readString eng args) (Effect.readString eng' args)
      fun s₁ v ↦ L.Good s₁ v := by
  refine .bind (h.lift (.bind yields_one fun v _ ↦ yields_text)) fun s₁ source hs₁ _ ↦ ?_
  exact (h.readText source _).imp fun _ _ _ hv ↦ good_of_isWritten hv

theorem symbol (hargs : ∀ v ∈ args, L.Good s v) :
    L.Agree s (Effect.symbol eng args) (Effect.symbol eng' args) fun s₁ v ↦ L.Good s₁ v := by
  refine .bind (h.lift yields_one) fun s₁ v hs₁ hv ↦ ?_
  split
  · exact .pure fun s₂ hs₂ ↦ (hargs _ hv).mono (hs₁.trans hs₂)
  · refine .bind (h.lift yields_text) fun s₂ name _ _ ↦ ?_
    refine .bind (h.readText name _) fun s₃ form _ hform ↦ ?_
    split
    · exact .pure fun _ _ ↦ good_of_isWritten hform
    · exact h.fail _

theorem keyword (hargs : ∀ v ∈ args, L.Good s v) :
    L.Agree s (Effect.keyword eng args) (Effect.keyword eng' args) fun s₁ v ↦ L.Good s₁ v := by
  refine .bind (h.lift yields_one) fun s₁ v hs₁ hv ↦ ?_
  split
  · exact .pure fun s₂ hs₂ ↦ (hargs _ hv).mono (hs₁.trans hs₂)
  · refine .bind (h.lift yields_text) fun s₂ name _ _ ↦ ?_
    refine .bind (h.readText name _) fun s₃ form _ hform ↦ ?_
    split
    · have hname : IsSymbolName _ := hform.here
      exact .pure fun _ _ ↦ good_keyword hname.isKeywordName
    · exact .pure fun _ _ ↦ good_of_isWritten hform
    · exact h.fail _

theorem readFile (path : String) :
    L.Agree s (Effect.readFile eng.disk path) (Effect.readFile eng'.disk path)
      fun _ _ ↦ True := by
  rw [h.disk, Effect.readFile]
  split
  · split
    · exact .pure fun _ _ ↦ trivial
    · exact .throw fun _ _ ↦ trivial
    · exact .pure fun _ _ ↦ trivial
    · exact .throw fun _ _ ↦ trivial
  · exact .throw fun _ _ ↦ trivial

theorem slurp :
    L.Agree s (Effect.slurp eng args) (Effect.slurp eng' args) fun s₁ v ↦ L.Good s₁ v := by
  refine .bind (h.lift (.bind yields_one fun v _ ↦ yields_text)) fun s₁ path hs₁ _ ↦ ?_
  refine .bind (h.readFile _) fun s₂ content _ _ ↦ ?_
  split
  · exact .pure fun _ _ ↦ good_str _
  · exact h.fail _

/-! ## Atoms -/

theorem atom (hargs : ∀ v ∈ args, L.Good s v) :
    L.Agree s (Effect.atom eng args) (Effect.atom eng' args) fun s₁ v ↦ L.Good s₁ v := by
  refine .bind (h.lift yields_one) fun s₁ v hs₁ hv ↦ ?_
  refine .bind (.modifyGet fun s₂ hs₂ hl ↦ ?_) fun _ a _ ha ↦ .pure fun _ hs ↦ Good.mono hs ha
  have hgood : L.Good s₂ v := (hargs v hv).mono (hs₁.trans hs₂)
  have hnew : s₂.atoms.size < (s₂.addAtom v).2.atoms.size := by simp [Store.addAtom]
  exact ⟨s₂.extends_addAtom v, hl.addAtom hgood, .of_parts_eq_nil (L.ok_atom hnew) rfl⟩

theorem deref :
    L.Agree s (Effect.deref eng args) (Effect.deref eng' args) fun s₁ v ↦ L.Good s₁ v := by
  refine .bind (h.lift (.bind yields_one fun v _ ↦ yields_cell)) fun s₁ a hs₁ _ ↦ ?_
  refine .bind .get fun s₂ s hs₂ hget ↦ .pure fun s₃ hs₃ ↦ ?_
  obtain ⟨rfl, hl⟩ := hget
  exact (hl.content a).mono hs₃

theorem reset (hargs : ∀ v ∈ args, L.Good s v) :
    L.Agree s (Effect.reset eng args) (Effect.reset eng' args) fun s₁ v ↦ L.Good s₁ v := by
  refine .bind (h.lift yields_two) fun s₁ p hs₁ hp ↦ ?_
  have hv : L.Good s₁ p.2 := (hargs p.2 hp.2).mono hs₁
  refine .bind (h.lift yields_cell) fun s₂ a hs₂ _ ↦ ?_
  refine .bind (.change fun s₃ hs₃ hl ↦ ?_) fun s₃ _ hs₃ _ ↦ .pure fun s₄ hs₄ ↦ ?_
  · exact ⟨s₃.extends_setAtom a p.2, hl.setAtom a (hv.mono (hs₂.trans hs₃))⟩
  · exact hv.mono (hs₂.trans (hs₃.trans hs₄))

theorem swap (hargs : ∀ v ∈ args, L.Good s v) (hscope : L.active s scope) :
    L.Agree s (Effect.swap eng scope args) (Effect.swap eng' scope args)
      fun s₁ v ↦ L.Good s₁ v := by
  rw [Effect.swap.eq_def, Effect.swap.eq_def]
  split
  · rename_i target fn extra
    obtain ⟨-, hfn, hextra⟩ := by simpa only [List.forall_mem_cons] using hargs
    refine .bind (h.lift yields_cell) fun s₁ a hs₁ _ ↦ ?_
    refine .bind .get fun s₂ s' hs₂ hget ↦ ?_
    obtain ⟨rfl, hl⟩ := hget
    have hs : s.Extends s' := hs₁.trans hs₂
    have hcall : L.Admits s' (.call fn (s'.atoms.content a :: extra) scope) := by
      refine ⟨hfn.mono hs, List.forall_mem_cons.2 ⟨hl.content a, ?_⟩, L.active_mono hs hscope⟩
      exact fun v hv ↦ (hextra v hv).mono hs
    refine .bind (h.run s' _ hcall) fun s₃ v hs₃ hv ↦ ?_
    refine .bind (.change fun s₄ hs₄ hl ↦ ?_) fun s₄ _ hs₄ _ ↦ .pure fun s₅ hs₅ ↦ ?_
    · exact ⟨s₄.extends_setAtom a v, hl.setAtom a (hv.1.mono hs₄)⟩
    · exact hv.1.mono (hs₄.trans hs₅)
  · exact h.fail _

/-! ## Evaluating and calling -/

theorem evalTop (hargs : ∀ v ∈ args, L.Good s v) (hscope : L.active s scope) :
    L.Agree s (Effect.eval eng scope args) (Effect.eval eng' scope args)
      fun s₁ v ↦ L.Good s₁ v := by
  refine .bind (h.lift yields_one) fun s₁ form hs₁ hform ↦ ?_
  refine .bind .get fun s₂ s' hs₂ hget ↦ ?_
  obtain ⟨rfl, hl⟩ := hget
  have hs : s.Extends s' := hs₁.trans hs₂
  have htop : L.active s' (s'.topLevel scope) :=
    L.active_topLevel hl.shape (L.active_mono hs hscope)
  exact (h.eval ((hargs form hform).mono hs) htop).imp fun _ _ _ hv ↦ hv.1

theorem evalHere (hargs : ∀ v ∈ args, L.Good s v) (hscope : L.active s scope) :
    L.Agree s (Effect.evalHere eng scope args) (Effect.evalHere eng' scope args)
      fun s₁ v ↦ L.Good s₁ v := by
  refine .bind (h.lift yields_one) fun s₁ form hs₁ hform ↦ ?_
  refine (h.eval ((hargs form hform).mono hs₁) (L.active_mono hs₁ hscope)).imp ?_
  exact fun _ _ _ hv ↦ hv.1

theorem throwArgument (hargs : ∀ v ∈ args, L.Good s v) :
    L.Agree s (Effect.throwArgument eng args) (Effect.throwArgument eng' args)
      fun s₁ v ↦ L.Good s₁ v := by
  refine .bind (h.lift yields_one) fun s₁ v hs₁ hv ↦ .throw fun s₂ hs₂ ↦ ?_
  exact (hargs v hv).mono (hs₁.trans hs₂)

theorem map (hargs : ∀ v ∈ args, L.Good s v) (hscope : L.active s scope) :
    L.Agree s (Effect.map eng scope args) (Effect.map eng' scope args)
      fun s₁ v ↦ L.Good s₁ v := by
  refine .bind (h.lift yields_two) fun s₁ p hs₁ hp ↦ ?_
  refine .bind (h.lift yields_itemsOrNil) fun s₂ vs hs₂ hvs ↦ ?_
  have hs : s.Extends s₂ := hs₁.trans hs₂
  have hitems : ∀ v ∈ vs, L.Good s v := (hargs p.2 hp.2).itemsOrNil hvs
  have hcalls : L.Agree s₂ (vs.mapM fun v ↦ eng.run (.call p.1 [v] scope))
      (vs.mapM fun v ↦ eng'.run (.call p.1 [v] scope)) fun s₃ ws ↦ ∀ w ∈ ws, L.Good s₃ w := by
    refine .mapM (fun _ _ _ hs hw ↦ hw.mono hs) fun v hv ↦ ?_
    have hcall : L.Admits s (.call p.1 [v] scope) :=
      ⟨hargs p.1 hp.1, fun w hw ↦ List.mem_singleton.1 hw ▸ hitems v hv, hscope⟩
    exact (h.run s₂ _ (hcall.mono hs)).imp fun _ _ _ hw ↦ hw.1
  exact .bind hcalls fun s₃ ws _ hws ↦ agree_labelled (good_list none hws)

theorem apply (hargs : ∀ v ∈ args, L.Good s v) (hscope : L.active s scope) :
    L.Agree s (Effect.apply eng scope args) (Effect.apply eng' scope args)
      fun s₁ v ↦ L.Good s₁ v := by
  rw [Effect.apply.eq_def, Effect.apply.eq_def]
  split
  · rename_i fn arg args
    obtain ⟨hfn, hargs⟩ := List.forall_mem_cons.1 hargs
    have hlast : L.Good s ((arg :: args).getLastD .nil) := by
      rw [List.getLastD_cons]
      exact hargs _ List.getLastD_mem_cons
    refine .bind (h.lift yields_itemsOrNil) fun s₁ vs hs₁ hvs ↦ ?_
    have hcall : L.Admits s (.call fn ((arg :: args).dropLast ++ vs) scope) := by
      refine ⟨hfn, List.forall_mem_append.2 ⟨fun v hv ↦ ?_, hlast.itemsOrNil hvs⟩, hscope⟩
      exact hargs v (List.dropLast_subset _ hv)
    exact (h.run s₁ _ (hcall.mono hs₁)).imp fun _ _ _ hw ↦ hw.1
  · exact h.fail _

end

/-! ## All of them -/

/-- **A call of a built-in function keeps every law.** -/
theorem call (h : L.Engines eng eng') (op : Builtin) (hargs : ∀ v ∈ args, L.Good s v)
    (hfits : ∀ v ∈ args, L.fits v) (hscope : L.active s scope) :
    L.Agree s (op.call eng scope args) (op.call eng' scope args) fun s₁ v ↦ L.Good s₁ v := by
  rw [Builtin.call.eq_def, Builtin.call.eq_def]
  cases op with
  | equal => exact h.equal
  | add | sub | mul => exact h.answer yields_operate
  | div => exact h.answer yields_divide
  | less | lessEq | greater | greaterEq => exact h.answer yields_compare
  | list => exact agree_labelled (good_list none hargs)
  | vector => exact .pure fun _ hs ↦ (good_vec hargs).mono hs
  | vec => exact h.answer (yields_vec hargs)
  | count => exact h.answer (yields_count hfits)
  | cons => exact h.make (yields_cons hargs)
  | concat => exact h.make (yields_concat hargs)
  | first => exact h.answer (yields_first hargs)
  | rest => exact h.make (yields_rest hargs)
  | nth => exact h.answer (yields_nth hargs)
  | conj => exact h.make (yields_conj hargs)
  | seq => exact h.make (yields_seq hargs)
  | hashMap => exact h.make (yields_hashMap hargs)
  | get => exact h.answer (yields_get hargs)
  | contains => exact h.answer yields_contains
  | assoc => exact h.make (yields_assoc hargs)
  | dissoc => exact h.make (yields_dissoc hargs)
  | keys => exact h.make (yields_keys hargs)
  | vals => exact h.make (yields_vals hargs)
  | atom => exact h.atom hargs
  | isAtom => exact h.answer yields_isAtom
  | deref => exact h.deref
  | reset => exact h.reset hargs
  | swap => exact h.swap hargs hscope
  | prStr | str => exact h.toText _ _
  | prn | println => exact h.printLine _
  | readString => exact h.readString
  | slurp => exact h.slurp
  | eval => exact h.evalTop hargs hscope
  | evalHere => exact h.evalHere hargs hscope
  | throw => exact h.throwArgument hargs
  | map => exact h.map hargs hscope
  | apply => exact h.apply hargs hscope
  | symbol => exact h.symbol hargs
  | keyword => exact h.keyword hargs
  | metadata => exact h.answer (yields_metadata hargs)
  | withMeta => exact h.answer (yields_withMeta hargs)
  | _ => exact h.answer yields_test

end Engines

end Lisplet.Law
