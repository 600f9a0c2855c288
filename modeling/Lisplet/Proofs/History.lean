import Lisplet.Proofs.Limit

/-!
# Names and the history of their definitions

Which value a name has in a frame is a matter of what was done before: which frames were made inside
which, and what was bound in them.  A `History` is any sequence of these doings, and it says by
itself what a name ought to mean, without a frame being built:

* `History.outer?` is the frame that a frame was made inside;
* `History.bindings` are the bindings that were made, the latest first;
* the nearest frame that binds a name is found by going outwards (`Nearest`).

The frames that are built in the course of a history agree with it frame by frame (`own?_store`,
`outer?_store`), so that a look-up gives the latest binding of the name in the nearest frame that
has one.  To bind one name more is to change the answer at that name only, and only from where the
frame is met before any other that binds the name: that is `Nearest` again, with the frame counted
among those that bind the name (`Store.get?_define_of_nearest`, `Store.get?_define_of_not_nearest`).
-/

set_option autoImplicit false

namespace Lisplet

/-! ## The nearest frame -/

/-- **The nearest frame**, from `f` outwards, that has a property. -/
inductive Nearest (outer : FrameId → Option FrameId) (p : FrameId → Prop) : FrameId → FrameId → Prop
  | here {f : FrameId} (h : p f) : Nearest outer p f f
  | outside {f f' g : FrameId} (hnot : ¬p f) (houter : outer f = some f')
      (h : Nearest outer p f' g) : Nearest outer p f g

namespace Nearest

variable {outer : FrameId → Option FrameId} {p q : FrameId → Prop} {f g k : FrameId}

/-- The nearest frame has the property. -/
theorem holds (h : Nearest outer p f g) : p g := by
  induction h with
  | here h => exact h
  | outside _ _ _ ih => exact ih

theorem congr (hpq : ∀ f, p f ↔ q f) : Nearest outer p f g ↔ Nearest outer q f g := by
  rw [funext fun f ↦ propext (hpq f)]

/-- A frame that is not met does not count. -/
theorem or_iff (hk : ¬Nearest outer (fun f ↦ f = k ∨ p f) f k) :
    Nearest outer (fun f ↦ f = k ∨ p f) f g ↔ Nearest outer p f g := by
  constructor
  · intro h
    induction h with
    | here h =>
      rcases h with rfl | h
      · exact absurd (.here (.inl rfl)) hk
      · exact .here h
    | outside hnot houter _ ih =>
      exact .outside (fun h ↦ hnot (.inr h)) houter (ih fun h ↦ hk (.outside hnot houter h))
  · intro h
    induction h with
    | here h => exact .here (.inr h)
    | @outside f f' g hnot houter _ ih =>
      have hnot' : ¬(f = k ∨ p f) := by
        rintro (rfl | h)
        · exact hk (.here (.inl rfl))
        · exact hnot h
      exact .outside hnot' houter (ih fun h ↦ hk (.outside hnot' houter h))

end Nearest

namespace Store

variable {s : Store} {f g k : FrameId} {name name' : String} {v : Value}

theorem find?_eq_some_iff :
    s.find? f name = some g ↔ Nearest s.outer? (fun f ↦ (s.own? f name).isSome = true) f g := by
  fun_induction s.find? f name with
  | case1 f hown =>
    constructor
    · intro h
      obtain rfl := Option.some.inj h
      exact .here hown
    · intro h
      cases h with
      | here => rfl
      | outside hnot => exact absurd hown hnot
  | case2 f hown f' houter ih =>
    rw [ih]
    constructor
    · exact fun h ↦ .outside hown houter h
    · intro h
      cases h with
      | here h => exact absurd h hown
      | outside _ houter' h =>
        obtain rfl := Option.some.inj (houter.symm.trans houter')
        exact h
  | case3 f hown houter =>
    refine ⟨fun h ↦ (by cases h), fun h ↦ ?_⟩
    cases h with
    | here h => exact absurd h hown
    | outside _ houter' => cases houter.symm.trans houter'

/-- A new frame is inside the one it is made for, if that one is older. -/
theorem outer?_addFrame (s : Store) (outer : Option FrameId) (vars : Dict String Value)
    (g : FrameId) : (s.addFrame outer vars).2.outer? g =
      if g = s.frames.size then outer.filter (· < s.frames.size) else s.outer? g := by
  simp only [outer?, addFrame, Array.getElem?_push]
  by_cases h : g = s.frames.size <;> simp [h]

/-- A name is looked up in the nearest frame that binds it. -/
theorem get?_eq_own? (h : s.find? f name = some g) : s.get? f name = s.own? g name := by
  rw [get?, h, Option.bind_some]

theorem isSome_own?_define (hk : k < s.frames.size) :
    ((s.define k name v).own? g name).isSome = true ↔ g = k ∨ (s.own? g name).isSome = true := by
  rw [own?_define]
  by_cases hg : g = k
  · rw [if_pos ⟨hg, hk, rfl⟩]
    simp [hg]
  · rw [if_neg fun h ↦ hg h.1]
    simp [hg]

theorem find?_define (hk : k < s.frames.size) : (s.define k name v).find? f name = some g ↔
    Nearest s.outer? (fun f ↦ f = k ∨ (s.own? f name).isSome = true) f g := by
  rw [find?_eq_some_iff, funext (outer?_define s k · name v)]
  exact Nearest.congr fun f ↦ isSome_own?_define hk

/-- A binding is seen from where its frame is met before any other that binds the name. -/
theorem get?_define_of_nearest (hk : k < s.frames.size)
    (h : Nearest s.outer? (fun f ↦ f = k ∨ (s.own? f name).isSome = true) f k) :
    (s.define k name v).get? f name = some v := by
  rw [get?_eq_own? ((find?_define hk).2 h), own?_define, if_pos ⟨rfl, hk, rfl⟩]

/-- From anywhere else a name is seen as it was. -/
theorem get?_define_of_not_nearest (hk : k < s.frames.size)
    (h : ¬Nearest s.outer? (fun f ↦ f = k ∨ (s.own? f name).isSome = true) f k) :
    (s.define k name v).get? f name = s.get? f name := by
  have hfind : (s.define k name v).find? f name = s.find? f name := by
    refine Option.ext fun g ↦ ?_
    rw [find?_define hk, Nearest.or_iff h, find?_eq_some_iff]
  rw [get?, get?, hfind]
  cases hg : s.find? f name with
  | none => rfl
  | some g =>
    -- the frame that binds the name is another one, as this one is not met
    have hne : g ≠ k := by
      rintro rfl
      exact h ((Nearest.or_iff h).2 (find?_eq_some_iff.1 hg))
    rw [Option.bind_some, Option.bind_some, own?_define, if_neg fun h ↦ hne h.1]

/-- Every other name is seen as it was. -/
theorem get?_define_of_ne (hne : name' ≠ name) :
    (s.define k name v).get? f name' = s.get? f name' := by
  have hown (g : FrameId) : (s.define k name v).own? g name' = s.own? g name' := by
    rw [own?_define, if_neg fun h ↦ hne h.2.2]
  have hfind : (s.define k name v).find? f name' = s.find? f name' := by
    refine Option.ext fun g ↦ ?_
    rw [find?_eq_some_iff, find?_eq_some_iff, funext (outer?_define s k · name v)]
    exact Nearest.congr fun g ↦ by rw [hown]
  rw [get?, get?, hfind, funext hown]

/-- The store after binding names in one frame, one after the other. -/
def defineAll (s : Store) (f : FrameId) (entries : List (String × Value)) : Store :=
  entries.foldl (fun s e ↦ s.define f e.1 e.2) s

theorem size_frames_defineAll (entries : List (String × Value)) :
    (s.defineAll f entries).frames.size = s.frames.size := by
  induction entries generalizing s with
  | nil => rfl
  | cons e entries ih => exact ih.trans Array.size_modify

theorem outer?_defineAll (entries : List (String × Value)) :
    (s.defineAll f entries).outer? g = s.outer? g := by
  induction entries generalizing s with
  | nil => rfl
  | cons e entries ih => exact ih.trans (outer?_define s f g e.1 e.2)

/-- What a frame binds after names have been bound in one frame: the latest that was given. -/
theorem own?_defineAll (hf : f < s.frames.size) (entries : List (String × Value)) :
    (s.defineAll f entries).own? g name =
      ((entries.map fun e ↦ ((f, e.1), e.2)).reverse.lookup (g, name)).or (s.own? g name) := by
  induction entries generalizing s with
  | nil => rfl
  | cons e entries ih =>
    have hsize : f < (s.define f e.1 e.2).frames.size := by
      rwa [define, Array.size_modify]
    have hcons : s.defineAll f (e :: entries) = (s.define f e.1 e.2).defineAll f entries := rfl
    rw [hcons, ih hsize, own?_define, List.map_cons, List.reverse_cons, List.lookup_append,
      Option.or_assoc]
    congr 1
    by_cases h : (g, name) = (f, e.1)
    · obtain ⟨rfl, rfl⟩ := Prod.mk.inj h
      rw [if_pos ⟨rfl, hf, rfl⟩, List.lookup_cons_self, Option.some_or]
    · rw [if_neg fun h' ↦ h (Prod.ext h'.1 h'.2.2), List.lookup_cons, beq_false_of_ne h]
      rfl

end Store

/-! ## Histories -/

/-- **A history of scopes** in which `n` frames are made, each at the top level or inside an earlier
one, and names are bound in them, one at a time or many at once.  What is to be bound may be any
value, a symbol or not. -/
inductive History : Nat → Type
  | start : History 0
  | frame {n : Nat} (h : History n) (outer : Option (Fin n)) : History (n + 1)
  | define {n : Nat} (h : History n) (f : Fin n) (target v : Value) : History n
  | update {n : Nat} (h : History n) (f : Fin n) (pairs : List (Value × Value)) : History n

namespace History

/-! ### What a history says -/

/-- The name and the value, if what is to be bound is a symbol. -/
def named? (p : Value × Value) : Option (String × Value) :=
  match p.1 with
  | .sym name => some (name, p.2)
  | _ => none

/-- The value that is given last for a name. -/
def given? (pairs : List (Value × Value)) (name : String) : Option Value :=
  (pairs.filterMap named?).reverse.lookup name

/-- The names in front of the first target that is no symbol. -/
def leading : List (Value × Value) → List String
  | (.sym name, _) :: pairs => name :: leading pairs
  | _ => []

/-- The entries that an update comes to before it fails or ends, each with the value that is given
last for it. -/
def entries (pairs : List (Value × Value)) : List (String × Value) :=
  (leading pairs).filterMap fun name ↦ (given? pairs name).map (name, ·)

/-- The bindings that have been made, the latest first. -/
def bindings {n : Nat} : History n → List ((FrameId × String) × Value)
  | start => []
  | frame h _ => h.bindings
  | define h f (.sym name) v => ((f, name), v) :: h.bindings
  | define h _ _ _ => h.bindings
  | update h f pairs => ((entries pairs).map fun e ↦ ((f.val, e.1), e.2)).reverse ++ h.bindings

/-- A name has been bound in a frame. -/
def Binds {n : Nat} (h : History n) (name : String) (f : FrameId) : Prop :=
  (f, name) ∈ h.bindings.map Prod.fst

/-- The value of the latest binding of a name in a frame. -/
def latest? {n : Nat} (h : History n) (f : FrameId) (name : String) : Option Value :=
  h.bindings.lookup (f, name)

/-- The frame that a frame was made inside. -/
def outer? {n : Nat} : History n → FrameId → Option FrameId
  | start, _ => none
  | @frame n h outer, f => if f = n then outer.map Fin.val else h.outer? f
  | define h _ _ _, f => h.outer? f
  | update h _ _, f => h.outer? f

/-! ### What is built -/

/-- The store at the end of a history, with nothing bound at its start. -/
def store {n : Nat} (eng : Engine) (s : Store) : History n → Store
  | start => { s with frames := #[] }
  | frame h outer => ((h.store eng s).addFrame (outer.map Fin.val) .empty).2
  | define h f target v => finalStore (Scope.define eng f target v (h.store eng s))
  | update h f pairs => finalStore (Scope.update eng f pairs (h.store eng s))

/-! ### What is built is what the history says -/

section

variable {n : Nat} (eng : Engine) (s : Store)

theorem isSome_given? {pairs : List (Value × Value)} {name : String} (h : name ∈ leading pairs) :
    ∃ v, given? pairs name = some v := by
  refine Option.isSome_iff_exists.1 (List.lookup_isSome_iff.2 ?_)
  induction pairs with
  | nil => cases h
  | cons p pairs ih =>
    obtain ⟨target, v⟩ := p
    cases target with
    | sym name' =>
      rcases List.mem_cons.1 h with rfl | h
      · exact ⟨(name, v), by simp [named?], beq_self_eq_true name⟩
      · obtain ⟨e, he, hname⟩ := ih h
        refine ⟨e, ?_, hname⟩
        simp only [List.mem_reverse] at he ⊢
        exact List.mem_of_mem_tail he
    | _ => cases h

/-- To go through some pairs is to bind the names in front of the first target that is no symbol. -/
theorem finalStore_forM (f : FrameId) (last : String → Option Value)
    (pairs : List (Value × Value)) (hlast : ∀ name ∈ leading pairs, ∃ v, last name = some v) :
    finalStore ((pairs.forM fun p ↦ match p.1 with
      | .sym name => Scope.define eng f p.1 ((last name).getD p.2)
      | target => Scope.define eng f target p.2 : Eval PUnit) s) =
    s.defineAll f ((leading pairs).filterMap fun name ↦ (last name).map (name, ·)) := by
  induction pairs generalizing s with
  | nil => rfl
  | cons p pairs ih =>
    obtain ⟨target, v⟩ := p
    cases target with
    | sym name =>
      obtain ⟨w, hw⟩ := hlast name List.mem_cons_self
      have hrest := ih (s.define f name w) fun name hname ↦
        hlast name (List.mem_cons_of_mem _ hname)
      rw [leading, List.filterMap_cons, hw]
      refine Eq.trans ?_ hrest
      show finalStore ((Scope.define eng f (.sym name) ((last name).getD v) >>= fun _ ↦
        pairs.forM _ : Eval PUnit) s) = _
      rw [hw]
      rfl
    | _ =>
      show finalStore ((eng.fail _ >>= fun _ ↦ _ : Eval PUnit) s) = s
      simp only [Bind.bind, EStateM.bind, Engine.fail_eq]
      rfl

theorem finalStore_update (f : FrameId) (pairs : List (Value × Value)) :
    finalStore (Scope.update eng f pairs s) = s.defineAll f (entries pairs) := by
  have hlast : (Dict.ofList (pairs.filterMap named?)).get? = given? pairs :=
    funext fun name ↦ Dict.get?_ofList _ name
  rw [entries, ← hlast]
  exact finalStore_forM eng s f _ pairs fun name h ↦ hlast ▸ isSome_given? h

theorem define_of_ne_sym {f : FrameId} {target : Value} (h : ∀ name, target ≠ .sym name)
    (v : Value) : Scope.define eng f target v s =
      .error (eng.failure s.atoms (.definedName target)) s := by
  cases target with
  | sym name => exact absurd rfl (h name)
  | _ => exact eng.fail_eq s _

theorem store_define_of_ne_sym (h : History n) (f : Fin n) {target : Value}
    (htarget : ∀ name, target ≠ .sym name) (v : Value) :
    (h.define f target v).store eng s = h.store eng s :=
  congrArg finalStore (define_of_ne_sym eng (h.store eng s) htarget v)

theorem bindings_define_of_ne_sym (h : History n) (f : Fin n) {target : Value}
    (htarget : ∀ name, target ≠ .sym name) (v : Value) :
    (h.define f target v).bindings = h.bindings := by
  cases target with
  | sym name => exact absurd rfl (htarget name)
  | _ => rfl

theorem store_update (h : History n) (f : Fin n) (pairs : List (Value × Value)) :
    (h.update f pairs).store eng s = (h.store eng s).defineAll f (entries pairs) :=
  finalStore_update eng _ f pairs

theorem size_frames_store (h : History n) : (h.store eng s).frames.size = n := by
  induction h with
  | start => rfl
  | @frame n h outer ih => exact (Array.size_push _).trans (congrArg (· + 1) ih)
  | @define n h f target v ih =>
    rcases target.sym_or_ne with ⟨name, rfl⟩ | htarget
    · exact Array.size_modify.trans ih
    · rwa [store_define_of_ne_sym eng s h f htarget]
  | update h f pairs ih => rw [store_update, Store.size_frames_defineAll, ih]

theorem outer?_store (h : History n) (f : FrameId) :
    (h.store eng s).outer? f = h.outer? f := by
  induction h with
  | start => rfl
  | @frame n h outer ih =>
    refine (Store.outer?_addFrame _ _ _ _).trans ?_
    rw [size_frames_store, ih, outer?]
    cases outer with
    | none => rfl
    | some g => simp [Option.filter, g.isLt]
  | @define n h f target v ih =>
    rcases target.sym_or_ne with ⟨name, rfl⟩ | htarget
    · exact (Store.outer?_define _ _ _ _ _).trans ih
    · rw [store_define_of_ne_sym eng s h f htarget, ih]
      rfl
  | update h f pairs ih =>
    rw [store_update, Store.outer?_defineAll, ih]
    rfl

/-- **A frame binds a name to the value of its latest binding there.** -/
theorem own?_store (h : History n) (f : FrameId) (name : String) :
    (h.store eng s).own? f name = h.latest? f name := by
  induction h with
  | start => rfl
  | @frame n h outer ih =>
    have hown : ((h.frame outer).store eng s).own? f name =
        if f = n then none else (h.store eng s).own? f name := by
      rw [store, Store.own?_addFrame, size_frames_store, Dict.get?_empty]
    have hlatest : (h.frame outer).latest? f name = h.latest? f name := rfl
    rw [hown, hlatest, ← ih]
    by_cases hf : f = n
    · -- the new frame has not been bound in before, because it was not there
      have hnone : (h.store eng s).frames[f]? = none :=
        Array.getElem?_eq_none (Nat.le_of_eq ((size_frames_store eng s h).trans hf.symm))
      rw [if_pos hf, Store.own?, hnone, Option.bind_none]
    · rw [if_neg hf]
  | @define n h k target v ih =>
    rcases target.sym_or_ne with ⟨name', rfl⟩ | htarget
    · have hlatest : (h.define k (.sym name') v).latest? f name =
          if f = k ∧ name = name' then some v else h.latest? f name := by
        rw [latest?, bindings, List.lookup_cons]
        by_cases hk : (f, name) = ((k : FrameId), name')
        · obtain ⟨rfl, rfl⟩ := Prod.mk.inj hk
          rw [beq_self_eq_true, if_pos ⟨rfl, rfl⟩]
        · rw [beq_false_of_ne hk, if_neg fun h ↦ hk (Prod.ext h.1 h.2)]
          rfl
      rw [hlatest, ← ih]
      refine (Store.own?_define _ _ _ _ _ _).trans ?_
      rw [size_frames_store]
      simp [k.isLt]
    · rw [store_define_of_ne_sym eng s h k htarget, ih, latest?, latest?,
        bindings_define_of_ne_sym h k htarget]
  | update h k pairs ih =>
    rw [store_update, Store.own?_defineAll (by rw [size_frames_store]; exact k.isLt), ih, latest?,
      latest?, bindings, List.lookup_append]

theorem isSome_latest?_iff {h : History n} {f : FrameId} {name : String} :
    (h.latest? f name).isSome = true ↔ h.Binds name f := by
  rw [latest?, List.lookup_isSome_iff, Binds, List.mem_map]
  refine exists_congr fun e ↦ and_congr_right fun _ ↦ ?_
  rw [beq_iff_eq, eq_comm]

/-- The nearest frame that binds a name is the one that the history says. -/
theorem find?_store (h : History n) {f g : FrameId} {name : String} :
    (h.store eng s).find? f name = some g ↔ Nearest h.outer? (h.Binds name) f g := by
  rw [Store.find?_eq_some_iff, funext (outer?_store eng s h)]
  refine Nearest.congr fun f ↦ ?_
  rw [own?_store, isSome_latest?_iff]

/-! ### Looking names up -/

/-- **How looking a name up ends** at the end of a history. -/
inductive Looking (h : History n) (f : FrameId) (name : String) : Prop
  | found {g : FrameId} {v : Value} (hnearest : Nearest h.outer? (h.Binds name) f g)
      (hlatest : h.latest? g name = some v) (hfind : (h.store eng s).find? f name = some g)
      (hget : (h.store eng s).get? f name = some v)
      (hlookup : Scope.lookup eng f name (h.store eng s) = .ok v (h.store eng s))
  | unbound (hnone : ∀ g, ¬Nearest h.outer? (h.Binds name) f g)
      (hfind : (h.store eng s).find? f name = none) (hget : (h.store eng s).get? f name = none)
      (hlookup : Scope.lookup eng f name (h.store eng s) =
        .error (.error (.unbound name) ("'" ++ name ++ "' not found")) (h.store eng s))

theorem looking (h : History n) (f : FrameId) (name : String) : Looking eng s h f name := by
  cases hfind : (h.store eng s).find? f name with
  | some g =>
    have hnearest := (find?_store eng s h).1 hfind
    obtain ⟨v, hlatest⟩ := Option.isSome_iff_exists.1 (isSome_latest?_iff.2 hnearest.holds)
    have hget : (h.store eng s).get? f name = some v := by
      rw [Store.get?_eq_own? hfind, own?_store, hlatest]
    refine .found hnearest hlatest hfind hget ?_
    rw [Scope.lookup, get_bind_apply, hget]
    rfl
  | none =>
    have hget : (h.store eng s).get? f name = none := by
      rw [Store.get?, hfind, Option.bind_none]
    refine .unbound (fun g hg ↦ ?_) hfind hget ?_
    · cases hfind.symm.trans ((find?_store eng s h).2 hg)
    · rw [Scope.lookup, get_bind_apply, hget]
      exact eng.fail_eq _ _

/-- **What one more binding changes.**  The name in a frame is seen from where the frame is met before
any other that binds the name, and everything else is seen as before; what is no symbol is not
bound, and changes nothing. -/
inductive Defining (h : History n) (k : Fin n) : Value → Value → Prop
  | bound {name : String} {v : Value}
      (near : ∀ f, Nearest h.outer? (fun g ↦ g = k ∨ h.Binds name g) f k →
        ((h.define k (.sym name) v).store eng s).get? f name = some v)
      (far : ∀ f, ¬Nearest h.outer? (fun g ↦ g = k ∨ h.Binds name g) f k →
        ((h.define k (.sym name) v).store eng s).get? f name = (h.store eng s).get? f name)
      (other : ∀ f name', name' ≠ name →
        ((h.define k (.sym name) v).store eng s).get? f name' = (h.store eng s).get? f name') :
      Defining h k (.sym name) v
  | refused {target v : Value} (htarget : ∀ name, target ≠ .sym name)
      (hfails : Scope.define eng k target v (h.store eng s) =
        .error (eng.failure (h.store eng s).atoms (.definedName target)) (h.store eng s))
      (hstore : (h.define k target v).store eng s = h.store eng s) : Defining h k target v

theorem defining (h : History n) (k : Fin n) (target v : Value) :
    Defining eng s h k target v := by
  rcases target.sym_or_ne with ⟨name, rfl⟩ | htarget
  · have hk : k < (h.store eng s).frames.size := by
      rw [size_frames_store]
      exact k.isLt
    have hnearest {f : FrameId} :
        Nearest h.outer? (fun g ↦ g = k ∨ h.Binds name g) f k ↔
          Nearest (h.store eng s).outer?
            (fun g ↦ g = k ∨ ((h.store eng s).own? g name).isSome = true) f k := by
      rw [funext (outer?_store eng s h)]
      refine Nearest.congr fun g ↦ or_congr_right ?_
      rw [own?_store, isSome_latest?_iff]
    refine .bound (fun f hf ↦ ?_) (fun f hf ↦ ?_) fun f name' hne ↦ ?_
    · exact Store.get?_define_of_nearest hk (hnearest.1 hf)
    · exact Store.get?_define_of_not_nearest hk (mt hnearest.2 hf)
    · exact Store.get?_define_of_ne hne
  · exact .refused htarget (define_of_ne_sym eng _ htarget v)
      (store_define_of_ne_sym eng s h k htarget v)

/-- **Names are looked up in the history of their definitions.**

After any history, looking a name up from a frame gives the value of its latest binding in the
nearest frame that binds it, or fails with the name if there is no such frame.  One more binding of
a symbol changes exactly what is seen of that name from where its frame comes first, and what is no
symbol cannot be bound: that fails, and the store is as it was. -/
theorem lookup_follows_history (h : History n) :
    (∀ (f : Fin n) (name : String), Looking eng s h f name) ∧
      ∀ (k : Fin n) (target v : Value), Defining eng s h k target v :=
  ⟨fun f ↦ looking eng s h f, defining eng s h⟩

end

end History

end Lisplet
