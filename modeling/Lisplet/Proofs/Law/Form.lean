import Lisplet.Eval.Form
import Lisplet.Proofs.Law.Engine

/-!
# Special forms

Each rule hands on good code in a frame that code may run in: the frame it was given, or one that it
has just made.  That is why frames that are captured and not active are safe: no rule ever gets to
write to them.

The code of a template is put together from the template and from a few fixed names, so it is good
if the template is.  The names of a function's parameters stand in its parameter list.
-/

set_option autoImplicit false

namespace Lisplet

/-! ## Parameter lists -/

theorem Params.mem_of_mem_names {names : List String} {p : Params}
    (h : Params.ofNames names = .ok p) {name : String} (hn : name ∈ p.names) : name ∈ names := by
  rw [Params.ofNames] at h
  split at h
  · obtain rfl := Except.ok.inj h
    simpa [Params.names] using hn
  · split at h
    · rename_i rest marker formals hrev
      split at h
      · obtain rfl := Except.ok.inj h
        have hmem : name ∈ names.reverse := by
          rw [hrev]
          simp only [Params.names, List.mem_append, List.mem_reverse, Option.toList_some,
            List.mem_singleton] at hn
          rcases hn with hn | rfl
          · exact List.mem_cons_of_mem _ (List.mem_cons_of_mem _ hn)
          · exact List.mem_cons_self
        exact List.mem_reverse.1 hmem
      · simp at h
    · simp at h

/-- Every name of a parameter list stands in it as a symbol. -/
theorem Params.exists_of_mem_names {form : Value} {p : Params} (h : Params.ofForm form = .ok p)
    {name : String} (hn : name ∈ p.names) : ∃ vs, form.items? = some vs ∧ .sym name ∈ vs := by
  rw [Params.ofForm] at h
  split at h
  · simp at h
  · rename_i vs hvs
    obtain ⟨names, hnames, h⟩ := exists_of_bind_eq_ok h
    obtain ⟨v, hv, hname⟩ := exists_of_mem_mapM hnames (Params.mem_of_mem_names h hn)
    cases v with
    | sym name' =>
      obtain rfl := Except.ok.inj hname
      exact ⟨vs, hvs, hv⟩
    | _ => simp [Params.nameOf] at hname

namespace Law

variable {L : Law} {s : Store} {v : Value}

/-! ## Templates -/

theorem yields_argument? {marker : String} (hv : L.Good s v) :
    L.Yields s (fun arg ↦ ∀ w ∈ arg, L.Good s w) (Template.argument? marker v) := by
  rw [Template.argument?]
  split
  · rename_i head args hargs
    split
    · split
      · rename_i arg
        intro w hw
        obtain rfl := Option.mem_some.1 hw
        exact Value.All.items hv hargs (List.mem_cons_of_mem _ List.mem_cons_self)
      · trivial
    · exact fun w hw ↦ by simp at hw
  · exact fun w hw ↦ by simp at hw

theorem good_callOf (l : Label) {head : String} (hh : IsSymbolName head) {args : List Value}
    (hargs : ∀ v ∈ args, L.Good s v) : L.Good s (Template.callOf l head args) :=
  good_list _ (List.forall_mem_cons.2 ⟨good_leaf hh rfl, hargs⟩)

section

variable {code : Label → Value → Except Fault Value}
  (hcode : ∀ l t, L.Good s t → L.Yields s (L.Good s) (code l t))
include hcode

theorem yields_prepend (l : Label) {elem tail : Value} (he : L.Good s elem) (ht : L.Good s tail) :
    L.Yields s (L.Good s) (Template.prepend code l elem tail) := by
  have hcall {head : String} (hh : IsSymbolName head) {w : Value} (hw : L.Good s w) :
      L.Good s (Template.callOf l head [w, tail]) :=
    good_callOf l hh (by simp [hw, ht])
  refine .bind (yields_argument? he) fun arg harg ↦ ?_
  cases arg with
  | some arg => exact hcall (by decide) (harg arg rfl)
  | none =>
    refine .bind (yields_argument? he) fun arg harg ↦ ?_
    cases arg with
    | some arg => exact hcall (by decide) (harg arg rfl)
    | none => exact .bind (hcode _ _ he) fun w hw ↦ hcall (by decide) hw

theorem yields_elements (l : Label) {vs : List Value} (hvs : ∀ v ∈ vs, L.Good s v) :
    L.Yields s (L.Good s) (Template.elements code l vs) := by
  induction vs generalizing l with
  | nil => exact good_empty none
  | cons v vs ih =>
    obtain ⟨hv, hvs⟩ := List.forall_mem_cons.1 hvs
    exact .bind (ih _ hvs) fun tail ht ↦ yields_prepend hcode l hv ht

end

/-- **The code of a good template is good.** -/
theorem yields_code (room : Nat) (l : Label) {t : Value} (ht : L.Good s t) :
    L.Yields s (L.Good s) (Template.code room l t) := by
  induction room generalizing l t with
  | zero => trivial
  | succ room ih =>
    have hb : L.Good s t.bare := Value.All.bare ht
    rw [Template.code]
    split
    · rename_i items heq
      refine .bind (yields_argument? ht) fun arg harg ↦ ?_
      cases arg with
      | some arg => exact harg arg rfl
      | none => exact yields_elements (fun l t ↦ ih l) l fun w hw ↦ (heq ▸ hb).inside hw
    · rename_i items heq
      have hitems : ∀ w ∈ items, L.Good s w := fun w hw ↦ (heq ▸ hb).inside hw
      refine .bind (yields_elements (fun l t ↦ ih l) _ hitems) fun w hw ↦ ?_
      exact good_callOf l (by decide) (by simp [hw])
    · exact good_callOf l (by decide) (by simp [ht])
    · exact good_callOf l (by decide) (by simp [ht])
    · exact ht

/-! ## The rules -/

variable {eng eng' : Engine} {scope : FrameId} {parts : List Value}

theorem agree_newClosure {params : Params} {body : Value} (isMacro : Bool)
    (hbody : L.Good s body) (hnames : ∀ name ∈ params.names, L.Good s (.sym name))
    (hscope : L.captured s scope) :
    L.Agree s (SpecialForm.newClosure params body scope isMacro)
      (SpecialForm.newClosure params body scope isMacro) fun s₁ c ↦ L.Good s₁ (.fn c) := by
  refine .bind agree_nextSerial fun s₁ n hs₁ _ ↦ .pure fun s₂ hs₂ ↦ ?_
  have hs : s.Extends s₂ := hs₁.trans hs₂
  exact good_fn (L.captured_mono hs hscope) (hbody.mono hs) fun name hn ↦ (hnames name hn).mono hs

/-- A binding in a frame that code may run in. -/
theorem agree_define {f : FrameId} (hf : L.active s f) (hv : L.Good s v) (name : String) :
    L.Agree s (modify fun s ↦ s.define f name v) (modify fun s ↦ s.define f name v)
      fun _ _ ↦ True :=
  .change fun s₁ hs₁ hl ↦
    ⟨s₁.extends_define f name v, hl.define (L.active_mono hs₁ hf) (hv.mono hs₁) name⟩

/-- A frame inside one that code may run in. -/
theorem agree_addFrame {vars : Dict String Value} (hscope : L.active s scope)
    (hvars : ∀ e ∈ vars.entries, L.Good s e.2) :
    L.Agree s (modifyGet fun s ↦ s.addFrame (some scope) vars)
      (modifyGet fun s ↦ s.addFrame (some scope) vars) fun s₁ f ↦ L.active s₁ f := by
  refine .modifyGet fun s₁ hs₁ hl ↦ ?_
  have hcap : L.captured s₁ scope := L.captured_of_active (L.active_mono hs₁ hscope)
  have hvars₁ : ∀ e ∈ vars.entries, L.Good s₁ e.2 := fun e he ↦ (hvars e he).mono hs₁
  exact ⟨s₁.extends_addFrame _ _, hl.addFrame hcap hvars₁, L.active_addFrame _ _ hl.shape⟩

namespace Engines

variable (h : L.Engines eng eng') (hparts : ∀ v ∈ parts, L.Good s v) (hscope : L.active s scope)
include h

theorem misshapen {α : Type} {Q : Store → α → Prop} (f : SpecialForm) :
    L.Agree s (SpecialForm.misshapen eng f) (SpecialForm.misshapen eng' f) Q :=
  h.fail _

theorem stepOnly (f : SpecialForm) {rule rule' : Value → Eval Step}
    (hrule : ∀ v ∈ parts, L.Agree s (rule v) (rule' v) fun s₁ st ↦ L.Reached s₁ st) :
    L.Agree s (SpecialForm.stepOnly eng f rule parts) (SpecialForm.stepOnly eng' f rule' parts)
      fun s₁ st ↦ L.Reached s₁ st := by
  rw [SpecialForm.stepOnly.eq_def, SpecialForm.stepOnly.eq_def]
  split
  · exact hrule _ List.mem_cons_self
  · exact h.misshapen f

theorem codeOf {form : Value} (hform : L.Good s form) :
    L.Agree s (SpecialForm.codeOf eng form) (SpecialForm.codeOf eng' form)
      fun s₁ v ↦ L.Good s₁ v := by
  refine .bind agree_newLabel fun s₁ l hs₁ _ ↦ ?_
  have hcode := Template.code_sameUnless h.room_le l form
  have hgood := yields_code eng.room l (hform.mono hs₁)
  match hr : Template.code eng.room l form with
  | .ok _ | .error (.error _) | .error (.thrown _) =>
    rw [hcode (by simp [hr])]
    exact hr ▸ h.answer hgood
  | .error .tooDeep =>
    by_cases hroomy : L.roomy
    · exact .overflow hroomy
    · rw [h.room_eq hroomy, hr]
      exact .throw fun _ _ ↦ trivial

include hscope

theorem bindLocal {binding : Value × Value} (hform : L.Good s binding.2) :
    L.Agree s (SpecialForm.bindLocal eng scope binding) (SpecialForm.bindLocal eng' scope binding)
      fun _ _ ↦ True := by
  rw [SpecialForm.bindLocal, SpecialForm.bindLocal]
  split
  · refine .bind (h.eval hform hscope) fun s₁ v hs₁ hv ↦ ?_
    exact agree_define (L.active_mono hs₁ hscope) hv.1 _
  · exact h.fail _

theorem handle {clause payload : Value} (hclause : L.Good s clause) (hp : L.Good s payload) :
    L.Agree s (SpecialForm.handle eng scope clause payload)
      (SpecialForm.handle eng' scope clause payload) fun s₁ st ↦ L.Reached s₁ st := by
  rw [SpecialForm.handle, SpecialForm.handle]
  split
  · exact h.fail _
  · rename_i name handler hcl
    have hhandler : L.Good s handler := by
      rw [SpecialForm.catchClause?.eq_def] at hcl
      split at hcl
      · split at hcl
        · obtain ⟨rfl, rfl⟩ := Prod.mk.inj (Option.some.inj hcl)
          exact hclause.inside (by simp [Value.parts])
        · simp at hcl
      · simp at hcl
    refine .bind (.discard (h.print _ _ _)) fun s₁ _ hs₁ _ ↦ ?_
    have hvars : ∀ e ∈ (Dict.ofList [(name, payload)]).entries, L.Good s₁ e.2 := fun e he ↦ by
      obtain rfl := List.mem_singleton.1 (Dict.mem_of_mem_entries_ofList he)
      exact hp.mono hs₁
    refine .bind (agree_addFrame (L.active_mono hs₁ hscope) hvars) fun s₂ inner hs₂ hinner ↦ ?_
    refine .pure fun s₃ hs₃ ↦ ⟨hhandler.mono (hs₁.trans (hs₂.trans hs₃)), ?_⟩
    exact L.active_mono hs₃ hinner

include hparts

theorem stepDefine :
    L.Agree s (SpecialForm.stepDefine eng scope parts) (SpecialForm.stepDefine eng' scope parts)
      fun s₁ st ↦ L.Reached s₁ st := by
  rw [SpecialForm.stepDefine.eq_def, SpecialForm.stepDefine.eq_def]
  split
  · refine .bind (h.eval (hparts _ (by simp)) hscope) fun s₁ v hs₁ hv ↦ ?_
    refine .bind (agree_define (L.active_mono hs₁ hscope) hv.1 _) fun s₂ _ hs₂ _ ↦ ?_
    exact .pure fun s₃ hs₃ ↦ hv.1.mono (hs₂.trans hs₃)
  · exact h.fail _
  · exact h.misshapen _

theorem stepDefineMacro :
    L.Agree s (SpecialForm.stepDefineMacro eng scope parts)
      (SpecialForm.stepDefineMacro eng' scope parts) fun s₁ st ↦ L.Reached s₁ st := by
  rw [SpecialForm.stepDefineMacro.eq_def, SpecialForm.stepDefineMacro.eq_def]
  split
  · refine .bind (h.eval (hparts _ (by simp)) hscope) fun s₁ v hs₁ hv ↦ ?_
    have hb : L.Good s₁ v.bare := Value.All.bare hv.1
    split
    · rename_i c heq
      rw [heq] at hb
      refine .bind (agree_newClosure true hb.body (fun _ ↦ hb.param) hb.captured) ?_
      refine fun s₂ c' hs₂ hc' ↦ .bind (agree_define ?_ hc' _) fun s₃ _ hs₃ _ ↦ ?_
      · exact L.active_mono (hs₁.trans hs₂) hscope
      · exact .pure fun s₄ hs₄ ↦ hc'.mono (hs₃.trans hs₄)
    · exact h.fail _
  · exact h.fail _
  · exact h.misshapen _

theorem stepLet :
    L.Agree s (SpecialForm.stepLet eng scope parts) (SpecialForm.stepLet eng' scope parts)
      fun s₁ st ↦ L.Reached s₁ st := by
  rw [SpecialForm.stepLet.eq_def, SpecialForm.stepLet.eq_def]
  split
  · rename_i bindings body
    obtain ⟨hbindings, hbody, -⟩ := by simpa only [List.forall_mem_cons] using hparts
    dsimp only
    split
    · exact h.fail _
    · rename_i pairs hpairs
      obtain ⟨items, hitems, hpairs⟩ := Option.bind_eq_some_iff.1 hpairs
      have hgood : ∀ v ∈ items, L.Good s v := by
        split at hitems
        · obtain rfl := Option.some.inj hitems
          exact fun v hv ↦ hbindings.inside hv
        · obtain rfl := Option.some.inj hitems
          exact fun v hv ↦ hbindings.inside hv
        · simp at hitems
      refine .bind (agree_addFrame hscope fun e he ↦ by simp [Dict.empty] at he) ?_
      intro s₁ inner hs₁ hinner
      have hlocals : L.Agree s₁ (pairs.forM (SpecialForm.bindLocal eng inner))
          (pairs.forM (SpecialForm.bindLocal eng' inner)) fun _ _ ↦ True :=
        .forM fun p hp ↦ h.bindLocal hinner ((hgood _ (mem_of_mem_pairs? hpairs hp).2).mono hs₁)
      refine .bind hlocals fun s₂ _ hs₂ _ ↦ .pure fun s₃ hs₃ ↦ ?_
      have hs : s₁.Extends s₃ := hs₂.trans hs₃
      exact ⟨hbody.mono (hs₁.trans hs), L.active_mono hs hinner⟩
  · exact h.misshapen _

theorem stepSequence :
    L.Agree s (SpecialForm.stepSequence eng scope parts)
      (SpecialForm.stepSequence eng' scope parts) fun s₁ st ↦ L.Reached s₁ st := by
  rw [SpecialForm.stepSequence, SpecialForm.stepSequence]
  split
  · exact .pure fun _ _ ↦ good_nil
  · rename_i last hlast
    have hinit : L.Agree s (parts.dropLast.forM fun form ↦ discard (eng.eval scope form))
        (parts.dropLast.forM fun form ↦ discard (eng'.eval scope form)) fun _ _ ↦ True :=
      .forM fun form hform ↦ .discard (h.eval (hparts _ (List.dropLast_subset _ hform)) hscope)
    refine .bind hinit fun s₁ _ hs₁ _ ↦ .pure fun s₂ hs₂ ↦ ?_
    have hs : s.Extends s₂ := hs₁.trans hs₂
    exact ⟨(hparts last (List.mem_of_getLast? hlast)).mono hs, L.active_mono hs hscope⟩

theorem stepChoice :
    L.Agree s (SpecialForm.stepChoice eng scope parts) (SpecialForm.stepChoice eng' scope parts)
      fun s₁ st ↦ L.Reached s₁ st := by
  have hnext {s₂ : Store} (hs : s.Extends s₂) {form : Value} (hform : L.Good s form) :
      L.Reached s₂ (.next (.eval form scope)) :=
    ⟨hform.mono hs, L.active_mono hs hscope⟩
  rw [SpecialForm.stepChoice.eq_def, SpecialForm.stepChoice.eq_def]
  dsimp only
  split
  · rw [pure_bind, pure_bind]
    obtain ⟨hc, hp, -⟩ := by simpa only [List.forall_mem_cons] using hparts
    refine .bind (h.eval hc hscope) fun s₁ v hs₁ _ ↦ ?_
    split
    · exact .pure fun s₂ hs₂ ↦ hnext (hs₁.trans hs₂) hp
    · exact .pure fun _ _ ↦ good_nil
  · rw [pure_bind, pure_bind]
    obtain ⟨hc, hp, hn, -⟩ := by simpa only [List.forall_mem_cons] using hparts
    refine .bind (h.eval hc hscope) fun s₁ v hs₁ _ ↦ ?_
    split
    · exact .pure fun s₂ hs₂ ↦ hnext (hs₁.trans hs₂) hp
    · exact .pure fun s₂ hs₂ ↦ hnext (hs₁.trans hs₂) hn
  · exact .bind (h.misshapen (Q := fun _ _ ↦ False) _) fun _ _ _ hfalse ↦ hfalse.elim

theorem stepFunction :
    L.Agree s (SpecialForm.stepFunction eng scope parts)
      (SpecialForm.stepFunction eng' scope parts) fun s₁ st ↦ L.Reached s₁ st := by
  rw [SpecialForm.stepFunction.eq_def, SpecialForm.stepFunction.eq_def]
  split
  · rename_i params body
    obtain ⟨hparams, hbody, -⟩ := by simpa only [List.forall_mem_cons] using hparts
    have hnames (p : Params) (hp : Params.ofForm params = .ok p) (name : String)
        (hn : name ∈ p.names) : L.Good s (.sym name) := by
      obtain ⟨vs, hvs, hmem⟩ := Params.exists_of_mem_names hp hn
      exact Value.All.items hparams hvs hmem
    refine .bind (h.accept hnames) fun s₁ p hs₁ hp ↦ ?_
    have hcap : L.captured s₁ scope := L.captured_of_active (L.active_mono hs₁ hscope)
    refine .bind (agree_newClosure false (hbody.mono hs₁) (fun n hn ↦ (hp n hn).mono hs₁) hcap) ?_
    exact fun s₂ c hs₂ hc ↦ .pure fun s₃ hs₃ ↦ hc.mono hs₃
  · exact h.misshapen _

theorem stepAttempt :
    L.Agree s (SpecialForm.stepAttempt eng scope parts) (SpecialForm.stepAttempt eng' scope parts)
      fun s₁ st ↦ L.Reached s₁ st := by
  rw [SpecialForm.stepAttempt.eq_def, SpecialForm.stepAttempt.eq_def]
  split
  · refine .bind (h.eval (hparts _ (by simp)) hscope) fun s₁ v hs₁ hv ↦ ?_
    exact .pure fun s₂ hs₂ ↦ hv.1.mono hs₂
  · rename_i body clause
    obtain ⟨hbody, hclause, -⟩ := by simpa only [List.forall_mem_cons] using hparts
    refine .bind (.catchThrown (h.eval hbody hscope)) fun s₁ r hs₁ hr ↦ ?_
    cases r with
    | ok v => exact .pure fun s₂ hs₂ ↦ hr.1.mono hs₂
    | error payload => exact h.handle (L.active_mono hs₁ hscope) (hclause.mono hs₁) hr
  · exact h.misshapen _

/-- **A step of a special form keeps every law.** -/
theorem formStep (f : SpecialForm) :
    L.Agree s (f.step eng scope parts) (f.step eng' scope parts)
      fun s₁ st ↦ L.Reached s₁ st := by
  cases f with
  | define => exact h.stepDefine hparts hscope
  | defineMacro => exact h.stepDefineMacro hparts hscope
  | letIn => exact h.stepLet hparts hscope
  | sequence => exact h.stepSequence hparts hscope
  | choice => exact h.stepChoice hparts hscope
  | function => exact h.stepFunction hparts hscope
  | quotation => exact h.stepOnly _ fun v hv ↦ .pure fun s₁ hs₁ ↦ (hparts v hv).mono hs₁
  | template =>
    refine h.stepOnly _ fun v hv ↦ .bind (h.codeOf (hparts v hv)) fun s₁ w hs₁ hw ↦ ?_
    exact .pure fun s₂ hs₂ ↦ ⟨hw.mono hs₂, L.active_mono (hs₁.trans hs₂) hscope⟩
  | templateCode =>
    refine h.stepOnly _ fun v hv ↦ .bind (h.codeOf (hparts v hv)) fun s₁ w hs₁ hw ↦ ?_
    exact .pure fun s₂ hs₂ ↦ hw.mono hs₂
  | expansion =>
    refine h.stepOnly _ fun v hv ↦ .pure fun s₁ hs₁ ↦ ?_
    exact ⟨(hparts v hv).mono hs₁, L.active_mono hs₁ hscope⟩
  | attempt => exact h.stepAttempt hparts hscope

end Engines

end Law

end Lisplet
