import Lisplet.Proofs.Metadata

/-!
# Calling functions from functions

`apply`, `map` and `swap!` are given functions and call them on values.  No form stands for such a
call, so it has a task of its own.  It comes to what the form would come to that has the function
itself at its head and each value behind it, quoted: the same value or error, in the same store
(`settles_call_iff_callOf`).  So what each of the three does can be said in terms of direct calls.

How deep calls nest is left aside, as calls through `map` nest deeper than direct ones.
-/

set_option autoImplicit false

namespace Lisplet

variable {α β : Type} {disk : Disk} {scope : FrameId} {s s' s₁ : Store} {f v xs : Value}
  {args vs ws : List Value} {e : Failure} {r : EStateM.Result Failure Store Value}

/-! ## Direct calls -/

/-- The form of a value, which evaluates to it. -/
def quoted (v : Value) : Value := .list none [.sym "quote", v]

/-- The form of a call on values. -/
def callOf (head : Value) (args : List Value) : Value := .list none (head :: args.map quoted)

/-- What calls call and evaluate the arguments of: a closure that is no macro or a built-in
function, with or without metadata. -/
def IsApplicable (f : Value) : Prop :=
  (∃ c, f.bare = .fn c ∧ c.isMacro = false) ∨ ∃ home op, f.bare = .builtin home op

theorem settles_quoted (v : Value) :
    Settles disk (fun eng ↦ eng.eval scope (quoted v)) s (.ok v s) :=
  settles_run_iff_value.2 (settles_of_forall trivial fun _ ↦ rfl)

theorem settles_mapM_quoted (args : List Value) :
    Settles disk (fun eng ↦ (args.map quoted).mapM (eng.eval scope)) s (.ok args s) := by
  have h : Settles disk (fun eng ↦
      ((args.map fun v ↦ (quoted v, v)).map Prod.fst).mapM (eng.eval scope)) s
      (.ok ((args.map fun v ↦ (quoted v, v)).map Prod.snd) s) :=
    settles_args _ (by simpa using fun v _ ↦ settles_quoted v)
  simpa [Function.comp_def] using h

/-- The name of a built-in function, with the values behind it, calls the function on them. -/
theorem settles_callOf_iff {op : Builtin} (h : s.Resolves scope op) :
    Settles disk (fun eng ↦ eng.eval scope (callOf (.sym op.name) args)) s r ↔
      Settles disk (fun eng ↦ op.call eng scope args) s r :=
  (settles_call_iff h).trans (settles_bind_of_ok (settles_mapM_quoted args))

namespace IsApplicable

theorem ofHead?_eq_none (hf : IsApplicable f) : SpecialForm.ofHead? f = none := by
  cases f with
  | sym name => obtain ⟨c, hc, -⟩ | ⟨home, op, h⟩ := hf <;> simp [Value.bare] at *
  | _ => rfl

/-- A function is its own value. -/
theorem form_eq (hf : IsApplicable f) (eng : Engine) : Direct.form eng scope f = pure f := by
  cases f with
  | fn | builtin | withMeta => rfl
  | _ => obtain ⟨c, hc, -⟩ | ⟨home, op, h⟩ := hf <;> simp [Value.bare] at *

/-- The rule for a form with a function at its head: its arguments are evaluated, and it is called
on them. -/
theorem settles_eval_iff (hf : IsApplicable f) {forms : List Value} :
    Settles disk (fun eng ↦ eng.eval scope (.list none (f :: forms))) s r ↔
      Settles disk (fun eng ↦ forms.mapM (eng.eval scope) >>= fun vs ↦
        Direct.call eng scope f vs) s r := by
  have hform (eng : Engine) : Direct.value eng (.eval (.list none (f :: forms)) scope) =
      Direct.combination eng scope f forms := by
    rw [Direct.value, Direct.form, hf.ofHead?_eq_none]
  refine settles_run_iff_value.trans ?_
  simp only [hform, Direct.combination]
  refine (settles_bind_of_ok (settles_itself hf.form_eq)).trans ?_
  simp only [Direct.call]
  obtain ⟨c, hc, hmacro⟩ | ⟨home, op, h⟩ := hf
  · simp only [hc, hmacro, Bool.false_eq_true, if_false]
  · simp only [h]

/-- **A call of a function on values comes to what the direct call comes to.** -/
theorem settles_call_iff_callOf (hf : IsApplicable f) :
    Settles disk (fun eng ↦ eng.run (.call f args scope)) s r ↔
      Settles disk (fun eng ↦ eng.eval scope (callOf f args)) s r := by
  refine settles_run_iff_value.trans (Iff.symm ?_)
  exact hf.settles_eval_iff.trans (settles_bind_of_ok (settles_mapM_quoted args))

end IsApplicable

/-! ## The elements of an argument -/

/-- The argument is a list or a vector of these elements, or `nil` and there are none. -/
def Spreads (xs : Value) (vs : List Value) : Prop := xs = .nil ∧ vs = [] ∨ xs.items? = some vs

theorem Spreads.itemsOrNil_eq (h : Spreads xs vs) (op : Builtin) :
    Builtin.itemsOrNil op xs = .ok vs := by
  obtain ⟨rfl, rfl⟩ | h := h
  · rfl
  · rw [Builtin.itemsOrNil.eq_def]
    split
    · simp [Value.items?, Value.bare] at h
    · rw [Builtin.items, h]

/-! ## One call after the other -/

/-- The direct calls on the values, one after the other, each in the store that the one before left,
have these values. -/
inductive CallsInTurn (disk : Disk) (scope : FrameId) (f : Value) :
    Store → List Value → List Value → Store → Prop
  | nil (s : Store) : CallsInTurn disk scope f s [] [] s
  | cons {s s₁ s₂ : Store} {v w : Value} {vs ws : List Value}
      (h : Evaluates disk (.eval (callOf f [v]) scope) s (.ok w s₁))
      (hvs : CallsInTurn disk scope f s₁ vs ws s₂) :
      CallsInTurn disk scope f s (v :: vs) (w :: ws) s₂

/-- The direct calls on the values have values up to the first that fails. -/
def FailsInTurn (disk : Disk) (scope : FrameId) (f : Value) (s : Store) (vs : List Value)
    (e : Failure) (s' : Store) : Prop :=
  ∃ done v rest ws s₁, vs = done ++ v :: rest ∧ CallsInTurn disk scope f s done ws s₁ ∧
    Evaluates disk (.eval (callOf f [v]) scope) s₁ (.error e s')

/-- The calls that `map` makes. -/
def mapped (scope : FrameId) (f : Value) (vs : List Value) (eng : Engine) : Eval (List Value) :=
  vs.mapM fun v ↦ eng.run (.call f [v] scope)

theorem growing_mapped (vs : List Value) : Growing disk (mapped scope f vs) :=
  .mapM (fun v ↦ .run (.call f [v] scope)) vs

/-- The first call, and then the others. -/
theorem settles_mapped_cons_iff {r : EStateM.Result Failure Store (List Value)} :
    Settles disk (mapped scope f (v :: vs)) s r ↔
      (∃ w s₁, Settles disk (fun eng ↦ eng.run (.call f [v] scope)) s (.ok w s₁) ∧
        ((∃ ws s₂, Settles disk (mapped scope f vs) s₁ (.ok ws s₂) ∧ r = .ok (w :: ws) s₂) ∨
          ∃ e s₂, Settles disk (mapped scope f vs) s₁ (.error e s₂) ∧ r = .error e s₂)) ∨
        ∃ e s₁, Settles disk (fun eng ↦ eng.run (.call f [v] scope)) s (.error e s₁) ∧
          r = .error e s₁ := by
  have hcons : mapped scope f (v :: vs) = fun eng ↦
      eng.run (.call f [v] scope) >>= fun w ↦ mapped scope f vs eng >>= fun ws ↦
        pure (w :: ws) := by
    funext eng
    exact List.mapM_cons
  have hpure (w : Value) (ws : List Value) (s₂ : Store) :
      Settles disk (fun _ ↦ pure (w :: ws)) s₂ r ↔ r = .ok (w :: ws) s₂ := by
    refine settles_const_iff.trans ⟨fun h ↦ h.2.symm, ?_⟩
    rintro rfl
    exact ⟨trivial, rfl⟩
  rw [hcons, settles_bind_iff (.run _)]
  simp only [settles_bind_iff (growing_mapped vs), hpure]

namespace IsApplicable

variable (hf : IsApplicable f)

include hf

/-- All the calls have values if each has one. -/
theorem settles_mapped_ok_iff :
    Settles disk (mapped scope f vs) s (.ok ws s') ↔ CallsInTurn disk scope f s vs ws s' := by
  induction vs generalizing s ws with
  | nil =>
    refine settles_const_iff.trans ⟨fun h ↦ ?_, fun h ↦ ?_⟩
    · cases h.2
      exact .nil _
    · cases h
      exact ⟨trivial, rfl⟩
  | cons v vs ih =>
    rw [settles_mapped_cons_iff]
    constructor
    · rintro (⟨w, s₁, hw, ⟨ws', s₂, hws, heq⟩ | ⟨e, s₂, -, heq⟩⟩ | ⟨e, s₁, -, heq⟩)
      · cases heq
        exact .cons (hf.settles_call_iff_callOf.1 hw) (ih.1 hws)
      · cases heq
      · cases heq
    · rintro (_ | ⟨hw, hws⟩)
      exact .inl ⟨_, _, hf.settles_call_iff_callOf.2 hw, .inl ⟨_, _, ih.2 hws, rfl⟩⟩

/-- They fail where the first of them fails that does. -/
theorem settles_mapped_error_iff :
    Settles disk (mapped scope f vs) s (.error e s') ↔ FailsInTurn disk scope f s vs e s' := by
  induction vs generalizing s with
  | nil =>
    refine settles_const_iff.trans ⟨fun h ↦ ?_, ?_⟩
    · cases h.2
    · rintro ⟨done, v, rest, ws, s₁, heq, -⟩
      simp at heq
  | cons v vs ih =>
    -- Either the first call fails, or it has a value and goes in front of those that have one.
    rw [settles_mapped_cons_iff]
    constructor
    · rintro (⟨w, s₁, hw, ⟨ws, s₂, -, heq⟩ | ⟨e', s₂, hvs, heq⟩⟩ | ⟨e', s₁, hv, heq⟩)
      · cases heq
      · cases heq
        obtain ⟨done, u, rest, ws, s₃, rfl, hdone, hu⟩ := ih.1 hvs
        exact ⟨v :: done, u, rest, w :: ws, s₃, rfl,
          .cons (hf.settles_call_iff_callOf.1 hw) hdone, hu⟩
      · cases heq
        exact ⟨[], v, vs, [], s, rfl, .nil s, hf.settles_call_iff_callOf.1 hv⟩
    · rintro ⟨done, u, rest, ws, s₃, heq, hdone, hu⟩
      cases hdone with
      | nil =>
        cases heq
        exact .inr ⟨_, _, hf.settles_call_iff_callOf.2 hu, rfl⟩
      | cons hw hdone =>
        obtain ⟨rfl, htail⟩ := List.cons.inj heq
        exact .inl ⟨_, _, hf.settles_call_iff_callOf.2 hw,
          .inr ⟨_, _, ih.2 ⟨_, _, _, _, _, htail, hdone, hu⟩, rfl⟩⟩

end IsApplicable

/-! ## The functions that call -/

theorem apply_eq (h : Spreads xs vs) (eng : Engine) :
    Effect.apply eng scope (f :: (args ++ [xs])) = eng.run (.call f (args ++ vs) scope) := by
  obtain ⟨arg, rest, heq⟩ : ∃ arg rest, args ++ [xs] = arg :: rest :=
    List.exists_cons_of_ne_nil (by simp)
  rw [heq, Effect.apply, ← heq, List.getLastD_eq_getLast?, List.getLast?_concat,
    List.dropLast_concat, Option.getD_some, h.itemsOrNil_eq]
  rfl

theorem map_eq (h : Spreads xs vs) (eng : Engine) :
    Effect.map eng scope [f, xs] = mapped scope f vs eng >>= fun ws ↦
      Eval.labelled (.list none ws) := by
  have htwo : eng.lift (Builtin.two .map [f, xs]) = pure (f, xs) := rfl
  have hitems : eng.lift (Builtin.itemsOrNil .map xs) = pure vs := by
    rw [h.itemsOrNil_eq]
    rfl
  rw [Effect.map, htwo, pure_bind]
  dsimp only
  rw [hitems, pure_bind]
  rfl

/-- Puts a value into an atom, which is then the value of the call. -/
def putInto (a : AtomId) (v : Value) : Eval Value := do
  modify fun s ↦ s.setAtom a v
  return v

theorem swap_apply (a : AtomId) (eng : Engine) (s : Store) :
    Effect.swap eng scope (.atom a :: f :: args) s =
      (eng.run (.call f (s.atoms.content a :: args) scope) >>= putInto a) s := rfl

theorem reset_eq (a : AtomId) (v : Value) (eng : Engine) :
    Effect.reset eng [.atom a, v] = putInto a v := rfl

/-- The call that `swap!` stands for: the function is called on the content and the other
arguments, and its value put back. -/
def swapForm (a : AtomId) (f : Value) (args : List Value) : Value :=
  .list none [.sym "reset!", .atom a,
    .list none (f :: .list none [.sym "deref", .atom a] :: args.map quoted)]

/-- A list that is made gets the next label. -/
theorem settles_labelled_iff {q : EStateM.Result Failure Store Value} :
    Settles disk (fun _ ↦ Eval.labelled (.list none ws)) s q ↔
      q = .ok (.list (some ⟨s.serials, []⟩) ws) s.nextSerial.2 := by
  refine settles_const_iff.trans ⟨fun h ↦ h.2.symm, ?_⟩
  rintro rfl
  exact ⟨trivial, rfl⟩

namespace IsApplicable

variable (hf : IsApplicable f)

include hf

theorem settles_apply_iff (hop : s.Resolves scope .apply) (h : Spreads xs vs) :
    Settles disk (fun eng ↦ eng.eval scope (callOf (.sym "apply") (f :: (args ++ [xs])))) s r ↔
      Settles disk (fun eng ↦ eng.eval scope (callOf f (args ++ vs))) s r := by
  refine (settles_callOf_iff hop).trans ?_
  simp only [Builtin.call, apply_eq h]
  exact hf.settles_call_iff_callOf

theorem settles_map_iff (hop : s.Resolves scope .map) (h : Spreads xs vs) :
    Settles disk (fun eng ↦ eng.eval scope (callOf (.sym "map") [f, xs])) s r ↔
      (∃ ws s₁, CallsInTurn disk scope f s vs ws s₁ ∧
        r = .ok (.list (some ⟨s₁.serials, []⟩) ws) s₁.nextSerial.2) ∨
        ∃ e s₁, FailsInTurn disk scope f s vs e s₁ ∧ r = .error e s₁ := by
  refine (settles_callOf_iff hop).trans ?_
  simp only [Builtin.call, map_eq h]
  refine (settles_bind_iff (growing_mapped vs)).trans ?_
  simp only [hf.settles_mapped_ok_iff, hf.settles_mapped_error_iff, settles_labelled_iff]

/-- The value that is put back is that of a call on the content, as it is before the call. -/
theorem settles_swapped_iff {a : AtomId} (hderef : s.Resolves scope .deref) :
    Settles disk (fun eng ↦ eng.eval scope
        (.list none (f :: .list none [.sym "deref", .atom a] :: args.map quoted))) s r ↔
      Settles disk (fun eng ↦ eng.run (.call f (s.atoms.content a :: args) scope)) s r := by
  have hatom : Settles disk (fun eng ↦ eng.eval scope (.atom a)) s (.ok (.atom a) s) :=
    settles_itself fun _ ↦ rfl
  have hcontent : Settles disk
      (fun eng ↦ eng.eval scope (.list none [.sym "deref", .atom a])) s
      (.ok (s.atoms.content a) s) :=
    (settles_call_of_args [(.atom a, .atom a)] hderef (by simpa using hatom)).2
      (settles_of_forall trivial fun _ ↦ rfl)
  have hargs : Settles disk (fun eng ↦
      (.list none [.sym "deref", .atom a] :: args.map quoted).mapM (eng.eval scope)) s
      (.ok (s.atoms.content a :: args) s) := by
    simp only [List.mapM_cons]
    refine (settles_bind_of_ok hcontent).2 ?_
    exact (settles_bind_of_ok (settles_mapM_quoted args)).2 (settles_pure _)
  refine hf.settles_eval_iff.trans ((settles_bind_of_ok hargs).trans (Iff.symm ?_))
  exact settles_run_iff_value

theorem settles_swap_iff {a : AtomId} (hswap : s.Resolves scope .swap) :
    Settles disk (fun eng ↦ eng.eval scope (callOf (.sym "swap!") (.atom a :: f :: args))) s r ↔
      Settles disk (fun eng ↦
        eng.eval scope (callOf f (s.atoms.content a :: args)) >>= putInto a) s r := by
  refine (settles_callOf_iff hswap).trans ?_
  simp only [Builtin.call]
  refine Iff.trans ?_ (settles_bind_congr (.run _) (.eval _ _)
    (fun q ↦ hf.settles_call_iff_callOf) fun v s₁ _ ↦ Iff.rfl)
  simp only [Settles, swap_apply]

theorem settles_swapForm_iff {a : AtomId} (hreset : s.Resolves scope .reset)
    (hderef : s.Resolves scope .deref) :
    Settles disk (fun eng ↦ eng.eval scope (swapForm a f args)) s r ↔
      Settles disk (fun eng ↦
        eng.eval scope (callOf f (s.atoms.content a :: args)) >>= putInto a) s r := by
  have hatom : Settles disk (fun eng ↦ eng.eval scope (.atom a)) s (.ok (.atom a) s) :=
    settles_itself fun _ ↦ rfl
  refine (settles_call_iff hreset).trans ?_
  simp only [List.mapM_cons, List.mapM_nil, bind_assoc, pure_bind]
  refine (settles_bind_of_ok hatom).trans ?_
  simp only [Builtin.call, reset_eq]
  refine settles_bind_congr (.eval _ _) (.eval _ _) (fun q ↦ ?_) fun v s₁ _ ↦ Iff.rfl
  exact (hf.settles_swapped_iff hderef).trans hf.settles_call_iff_callOf

end IsApplicable

/-- **Application through `apply`, `map` and `swap!` agrees with direct calls.**

Let `f` be a function that is no macro, with or without metadata.  A call of `f` on values, as such
functions make it, ends as the form does that calls `f` on the values, quoted: with the same value
or error, in the same store.

Hence `apply` ends as the direct call on its arguments and the elements of the last one.  `map` has
the list of the direct calls on the elements, in turn, under the next label; or the error of the
first that fails, in the store that this call and those before it left.  And `swap!` ends as
`reset!` on the direct call on the content: if the call has a value the atom then holds that, and if
it fails nothing is put back. -/
theorem application_agrees (disk : Disk) (scope : FrameId) (s : Store) (f : Value)
    (hf : IsApplicable f) :
    (∀ args r, Evaluates disk (.call f args scope) s r ↔
      Evaluates disk (.eval (callOf f args) scope) s r) ∧
    (s.Resolves scope .apply → ∀ args xs vs, Spreads xs vs → ∀ r,
      Evaluates disk (.eval (callOf (.sym "apply") (f :: (args ++ [xs]))) scope) s r ↔
        Evaluates disk (.eval (callOf f (args ++ vs)) scope) s r) ∧
    (s.Resolves scope .map → ∀ xs vs, Spreads xs vs → ∀ r,
      Evaluates disk (.eval (callOf (.sym "map") [f, xs]) scope) s r ↔
        (∃ ws s₁, CallsInTurn disk scope f s vs ws s₁ ∧
          r = .ok (.list (some ⟨s₁.serials, []⟩) ws) s₁.nextSerial.2) ∨
          ∃ e s₁, FailsInTurn disk scope f s vs e s₁ ∧ r = .error e s₁) ∧
    (s.Resolves scope .swap → ∀ a args,
      (s.Resolves scope .reset → s.Resolves scope .deref → ∀ r,
        Evaluates disk (.eval (callOf (.sym "swap!") (.atom a :: f :: args)) scope) s r ↔
          Evaluates disk (.eval (swapForm a f args) scope) s r) ∧
      (∀ v s', Evaluates disk (.eval (callOf f (s.atoms.content a :: args)) scope) s (.ok v s') →
        Evaluates disk (.eval (callOf (.sym "swap!") (.atom a :: f :: args)) scope) s
          (.ok v (s'.setAtom a v))) ∧
      ∀ e s', Evaluates disk (.eval (callOf f (s.atoms.content a :: args)) scope) s
          (.error e s') →
        Evaluates disk (.eval (callOf (.sym "swap!") (.atom a :: f :: args)) scope) s
          (.error e s')) := by
  refine ⟨fun args r ↦ hf.settles_call_iff_callOf,
    fun hop args xs vs h r ↦ hf.settles_apply_iff hop h,
    fun hop xs vs h r ↦ hf.settles_map_iff hop h, fun hswap a args ↦
      ⟨fun hreset hderef r ↦ ?_, fun v s' h ↦ ?_, fun e s' h ↦ ?_⟩⟩
  · exact (hf.settles_swap_iff hswap).trans (hf.settles_swapForm_iff hreset hderef).symm
  · have hcall : Settles disk
        (fun eng ↦ eng.eval scope (callOf f (s.atoms.content a :: args))) s (.ok v s') := h
    refine (hf.settles_swap_iff hswap).2 ((settles_bind_of_ok hcall).2 ?_)
    exact settles_const_iff.2 ⟨trivial, rfl⟩
  · have hcall : Settles disk
        (fun eng ↦ eng.eval scope (callOf f (s.atoms.content a :: args))) s (.error e s') := h
    exact (hf.settles_swap_iff hswap).2 (settles_bind_of_error hcall)

namespace Session

set_option maxRecDepth 2000 in
/-- Addition, under metadata, is applied to a number and a vector and swaps the content of an atom;
and `count` is mapped up to an element that has none. -/
theorem application_agrees_sum :
    let disk : Disk := fun _ ↦ none
    let s : Store := { bare with atoms := #[.int 3] }
    let sum : Value := .withMeta (.builtin topLevel .add) .nil
    let count : Value := .builtin topLevel .count
    IsApplicable sum ∧ IsApplicable count ∧
      Evaluates disk (.eval (callOf (.sym "apply") [sum, .int 1, .vec [.int 2]]) topLevel) s
        (.ok (.int 3) s) ∧
      Evaluates disk (.eval (callOf (.sym "swap!") [.atom 0, sum, .int 4]) topLevel) s
        (.ok (.int 7) (s.setAtom 0 (.int 7))) ∧
      ∃ e, Evaluates disk
        (.eval (callOf (.sym "map") [count, .vec [.vec [], .int 5, .vec []]]) topLevel) s
        (.error e s) := by
  intro disk s sum count
  have hsum : IsApplicable sum := .inr ⟨_, _, rfl⟩
  have hcount : IsApplicable count := .inr ⟨_, _, rfl⟩
  have happly : s.Resolves topLevel .apply := ⟨_, _, by with_unfolding_all rfl, rfl⟩
  have hmap : s.Resolves topLevel .map := ⟨_, _, by with_unfolding_all rfl, rfl⟩
  have hswap : s.Resolves topLevel .swap := ⟨_, _, by with_unfolding_all rfl, rfl⟩
  have hthree : run disk 9 9 [] (.eval (callOf sum [.int 1, .int 2]) topLevel) s =
      .ok (.int 3) s := by with_unfolding_all rfl
  have hseven : run disk 9 9 [] (.eval (callOf sum [.int 3, .int 4]) topLevel) s =
      .ok (.int 7) s := by with_unfolding_all rfl
  have hnone : run disk 9 9 [] (.eval (callOf count [.vec []]) topLevel) s =
      .ok (.int 0) s := by with_unfolding_all rfl
  have hfive : ∃ e, run disk 9 9 [] (.eval (callOf count [.int 5]) topLevel) s = .error e s ∧
      Lisplet.Settled (.error e s : EStateM.Result Failure Store Value) :=
    ⟨_, by with_unfolding_all rfl, by trivial⟩
  obtain ⟨e, hfive, he⟩ := hfive
  obtain ⟨-, hsumApply, -, hsumSwap⟩ := application_agrees disk topLevel s sum hsum
  obtain ⟨-, -, hcountMap, -⟩ := application_agrees disk topLevel s count hcount
  refine ⟨hsum, hcount, ?_, ?_, e, ?_⟩
  · exact (hsumApply happly [.int 1] _ [.int 2] (.inr rfl) _).2 (.of_run hthree trivial)
  · exact (hsumSwap hswap 0 [.int 4]).2.1 _ _ (.of_run hseven trivial)
  · refine (hcountMap hmap _ [.vec [], .int 5, .vec []] (.inr rfl) _).2 (.inr ⟨e, s, ?_, rfl⟩)
    exact ⟨[.vec []], .int 5, [.vec []], [.int 0], s, rfl,
      .cons (.of_run hnone trivial) (.nil s), .of_run hfive he⟩

end Session

end Lisplet
