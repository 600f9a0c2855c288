import Lisplet.Proofs.Renaming.Filling
import Lisplet.Proofs.Serials

/-!
# Templates are composed of templates

A list or a vector as a template comes to the list or the vector of what its elements come to as
templates of their own, one after the other (`quasiquote_composes`).  This is about the evaluation
of whole forms: of a single template on the one side, of a template for each element on the other.

Both sides evaluate the same holes in the same order, but they do not make the same labels.  Every
template that is evaluated gets one for its code, so the other side hands out a number before each
element, and the list that is built gets labels in the end.  So the two sides differ by serial
numbers: in step with each other, they go through the same stores up to a renumbering that is
changed at each element, so that it leaves one number out (`Renumbering.skip`).  That it may be
changed there is due to all numbers in the store being below the count (`Store.IsNumbered`), as they
are in every state of a session (`Session.Reachable.isNumbered`).

Three things can part the two sides (`quasiquote_parts_from_elements`).  A hole that is malformed is
noticed before anything is evaluated.  A hole may bind the names anew that the code looks up, which
is ruled out by `Steady`.  And a vector with a marker in front is a hole as an element, but not as a
template of its own; `IsPiece` rules that out, together with the holes for any number of values,
which are no templates of their own at all.
-/

set_option autoImplicit false

namespace Lisplet

/-! ## Leaving a number out -/

namespace Renumbering

variable {R : Renumbering} {m n : Nat}

/-- The renumbering that leaves out the new number that `n` has, and counts on from the next. -/
def skip (R : Renumbering) (n : Nat) : Renumbering where
  serial := bump (R.serial n) ∘ R.serial
  count i := R.count i + 1
  injective := (strictMono_bump _).injective.comp R.injective

theorem strictMono_skip (hR : StrictMono R.serial) : StrictMono (R.skip n).serial :=
  (strictMono_bump _).comp hR

/-- What is numbered already keeps its number. -/
theorem serial_skip (hR : StrictMono R.serial) {i : Nat} (hi : i < n) :
    (R.skip n).serial i = R.serial i :=
  bump_eq_iff.2 (hR hi)

theorem counts_skip (hR : StrictMono R.serial) (h : ∀ k, R.Counts n k) (k : Nat) :
    (R.skip n).Counts n k := by
  intro i hn hk
  obtain ⟨hserial, hcount⟩ := h k i hn hk
  have hle : R.serial n ≤ R.serial i := hR.monotone hn
  refine ⟨?_, congrArg Nat.succ hcount⟩
  show bump (R.serial n) (R.serial i) = R.count i + 1
  rw [bump, if_neg (Nat.not_lt.2 hle), hserial]

/-- **Where one number is handed out on one side only**, the other side goes on with one left
out. -/
theorem store_nextSerial (hR : StrictMono R.serial) {s : Store} (hs : s.IsNumbered) :
    (R.store s).nextSerial.2 = (R.skip s.serials).store s :=
  hs.rename_congr (fun _ hi ↦ (serial_skip hR hi).symm) _

end Renumbering

namespace Template

/-! ## Evaluating templates -/

section

variable {disk : Disk} {scope : FrameId} {s : Store} {l : Option Label} {t : Value}

theorem whole?_of_elements? {items : List Value} (h : elements? t = some items) :
    whole? t = none := by
  by_contra hwhole
  simp [elements?, Option.isSome_iff_ne_none.2 hwhole] at h

theorem items?_of_elements? {items : List Value} (h : elements? t = some items) :
    t.items? = some items :=
  (elements?_eq_items? (whole?_of_elements? h)).symm.trans h

/-- Evaluating a template that is not malformed is filling it, once its code has a label. -/
theorem settles_quasiquote_iff (ht : ¬Malformed t) (hs : Steady disk scope t s.nextSerial.2)
    {r : EStateM.Result Failure Store Value} :
    Settles disk (fun eng ↦ eng.eval scope (.list l [.sym "quasiquote", t])) s r ↔
      Settles disk (fun eng ↦ fill eng scope t) s.nextSerial.2 r := by
  obtain ⟨-, c, hc⟩ | ⟨h, -⟩ := coded_code (Nat.lt_succ_self (sizeOf t)) ⟨s.serials, []⟩
  · have hcode : Settles disk (fun eng ↦ SpecialForm.codeOf eng t) s (.ok c s.nextSerial.2) := by
      rw [settles_codeOf_iff, hc]
      exact settles_pure c
    exact settles_template_iff.trans ((settles_bind_of_ok hcode).trans (fills_of_code hc _ hs r))
  · exact (ht h).elim

/-- A template that is malformed fails, and nothing is evaluated. -/
theorem exists_settles_quasiquote (ht : Malformed t) :
    ∃ marker, Settles disk (fun eng ↦ eng.eval scope (.list l [.sym "quasiquote", t])) s
      (.error (.error (.arity (.marker marker)) (ArityError.message (.marker marker)))
        s.nextSerial.2) := by
  obtain ⟨h, -⟩ | ⟨-, marker, hc⟩ := coded_code (Nat.lt_succ_self (sizeOf t)) ⟨s.serials, []⟩
  · exact (h ht).elim
  · refine ⟨marker, settles_template_iff.2 (settles_bind_of_error (settles_codeOf_iff.2 ?_))⟩
    rw [hc]
    exact settles_of_forall trivial fun eng ↦ rfl

end

/-! ## Elements as templates -/

/-- The form that evaluates a template. -/
def quasiquoteOf (t : Value) : Value := .list none [.sym "quasiquote", t]

/-- An element that means the same among others and by itself: it does not take any number of
values, and it is no vector headed by a marker, which is a hole only among others. -/
structure IsPiece (elem : Value) : Prop where
  marked_many : marked? many elem = none
  marked_one : whole? elem = marked? one elem

variable {elem : Value} {items : List Value} {eng : Engine} {disk : Disk} {scope : FrameId}

theorem IsPiece.spread_eq (h : IsPiece elem) (eng : Engine) (v : Value) :
    spread eng elem v = pure [v] := by
  rw [spread, hole?, h.marked_many]
  rcases marked? one elem with _ | _ | ⟨form, _ | ⟨extra, rest⟩⟩ <;> rfl

/-- As an element or by itself, a template comes to the same. -/
theorem IsPiece.part_eq (h : IsPiece elem) (eng : Engine) (scope : FrameId) :
    part eng scope elem = fill eng scope elem := by
  have hwhole := h.marked_one
  rw [part, hole?, h.marked_many]
  generalize marked? one elem = marked at hwhole
  rcases marked with _ | _ | ⟨form, _ | ⟨extra, rest⟩⟩
  · rfl
  · rfl
  · exact (fill_of_whole eng scope hwhole).symm
  · rfl

theorem IsPiece.malformed_iff (h : IsPiece elem) : MalformedElement elem ↔ Malformed elem := by
  cases hone : marked? one elem with
  | none => exact malformedElement_iff_of_not_marked hone h.marked_many
  | some args =>
    rw [malformed_iff_of_whole? (h.marked_one.trans hone)]
    constructor
    · rintro (⟨rfl | rfl, hargs, hlength⟩ | ⟨hnone, -, -⟩)
      · exact Option.some.inj (hargs.symm.trans hone) ▸ hlength
      · simp [h.marked_many] at hargs
      · simp [hone] at hnone
    · exact .hole (.inl rfl) hone

/-! ### Labels -/

/-- The label of a list that is made one element after the other. -/
def lastLabel : Nat → Eval (Option Label)
  | 0 => return none
  | n + 1 => do
    discard (lastLabel n)
    return some (← Eval.newLabel)

theorem lastLabel_apply (n : Nat) (s : Store) :
    ∃ l, lastLabel n s = .ok l { s with serials := s.serials + n } := by
  induction n with
  | zero => exact ⟨none, rfl⟩
  | succ n ih =>
    obtain ⟨l, hl⟩ := ih
    simp only [lastLabel, discard_eq_bind, Bind.bind, EStateM.bind, hl]
    exact ⟨_, rfl⟩

/-- What elements contribute that contribute one value each. -/
theorem fillItems_of_pieces (hitems : ∀ elem ∈ items, IsPiece elem) :
    fillItems eng scope items = do
      let vs ← items.mapM (part eng scope)
      return (← lastLabel items.length, vs) := by
  induction items with
  | nil => simp [fillItems, lastLabel]
  | cons elem rest ih =>
    obtain ⟨helem, hrest⟩ := List.forall_mem_cons.1 hitems
    simp [fillItems_cons, ih hrest, helem.spread_eq, lastLabel, discard_eq_bind]

/-! ## In step -/

/-- **Two stores are in step** if the second one, when it has handed out one number more, is the
first one renumbered.  The numbers below `k`, which both of them started with, are the same. -/
structure InStep (k : Nat) (R : Renumbering) (a b : Store) : Prop where
  numbered : a.IsNumbered
  le : k ≤ a.serials
  mono : StrictMono R.serial
  fixed : ∀ i < k, R.serial i = i
  counts : ∀ n, R.Counts a.serials n
  next : b.nextSerial.2 = R.store a

/-- The elements ahead are pieces, none of which is malformed or has numbers from `k` on, and the
names in their code stand for what is meant whenever one of them is next. -/
structure Ahead (disk : Disk) (scope : FrameId) (k : Nat) (items : List Value) (a : Store) :
    Prop where
  pieces : ∀ elem ∈ items, IsPiece elem
  wellFormed : ∀ elem ∈ items, ¬Malformed elem
  below : ∀ elem ∈ items, elem.Below k
  named : ∀ s', Visits disk scope items a s' → Named s' scope

variable {R : Renumbering} {a a₁ b : Store} {k : Nat} {v : Value}

/-- When a first number has been handed out, the store is in step with what it was. -/
theorem inStep_nextSerial {s : Store} (hs : s.IsNumbered) :
    InStep s.serials ⟨id, id, fun _ _ h ↦ h⟩ s.nextSerial.2 s where
  numbered := ⟨fun fr hfr e he ↦ (hs.bound fr hfr e he).mono (Nat.le_succ _),
    fun v hv ↦ (hs.stored v hv).mono (Nat.le_succ _)⟩
  le := Nat.le_succ _
  mono := strictMono_id
  fixed _ _ := rfl
  counts _ _ _ _ := ⟨rfl, rfl⟩
  next := (Store.rename_id _).symm

/-- Apart from the counts, the stores are the same up to the renumbering. -/
theorem InStep.rename_eq (h : InStep k R a b) : a.rename R.serial b.serials = b := by
  calc a.rename R.serial b.serials
      = { R.store a with serials := b.serials } := rfl
    _ = { b.nextSerial.2 with serials := b.serials } := by rw [h.next]
    _ = b := rfl

/-- An element as a template of its own comes to what it contributes, renumbered. -/
theorem InStep.settles_quasiquoteOf_iff (h : InStep k R a b)
    (hahead : Ahead disk scope k (elem :: items) a) {q : EStateM.Result Failure Store Value} :
    Settles disk (fun eng ↦ eng.eval scope (quasiquoteOf elem)) b q ↔
      ∃ r, Settles disk (fun eng ↦ part eng scope elem) a r ∧
        q = R.ending (Value.rename R.serial) r := by
  have hpiece := hahead.pieces elem List.mem_cons_self
  have hfixed := (hahead.below elem List.mem_cons_self).rename_eq h.fixed
  have hsteady : Steady disk scope elem b.nextSerial.2 := by
    refine ⟨fun _ ↦ ?_, fun inner hinner s' hvisits ↦ ?_⟩
    · rw [h.next]
      exact (hahead.named a (.here elem items a)).store.vec
    have hhole : hole? elem = none := by
      rw [hole?, hpiece.marked_many, ← hpiece.marked_one, whole?_of_elements? hinner]
    have hmap : inner.map (Value.rename R.serial) = inner := by
      have helements := elements?_rename R.serial elem
      rw [hfixed, hinner] at helements
      exact (Option.some.inj helements).symm
    rw [h.next, ← hmap] at hvisits
    obtain ⟨s₁, rfl, hinside⟩ := hvisits.of_store h.counts
    exact (hahead.named s₁ (.inside hhole hinner hinside)).store
  have htracks (steps room : Nat) : R.Tracks (Value.rename R.serial)
      (part (.granted disk steps room) scope elem)
      (fill (.granted disk steps room) scope elem) := by
    have htracks := tracks_part_granted R disk scope elem steps room
    rw [hpiece.part_eq]
    rwa [hfixed, hpiece.part_eq] at htracks
  refine (settles_quasiquote_iff (hahead.wellFormed elem List.mem_cons_self) hsteady).trans ?_
  rw [h.next]
  constructor
  · exact Renumbering.exists_of_settles_store htracks (growing_part (growing_fill elem)) h.counts
  · rintro ⟨r, hr, rfl⟩
    exact Renumbering.settles_of_tracks htracks hr (h.counts _)

/-- When an element has contributed, those behind it are ahead. -/
theorem Ahead.behind (hahead : Ahead disk scope k (elem :: items) a)
    (hpart : Settles disk (fun eng ↦ part eng scope elem) a (.ok v a₁)) :
    Ahead disk scope k items a₁ where
  pieces e he := hahead.pieces e (List.mem_cons_of_mem _ he)
  wellFormed e he := hahead.wellFormed e (List.mem_cons_of_mem _ he)
  below e he := hahead.below e (List.mem_cons_of_mem _ he)
  named s' hvisits := hahead.named s' (.behind hpart hvisits)

/-- What an element contributes leaves the stores in step. -/
theorem InStep.of_settles_part (h : InStep k R a b) (helem : elem.Below k)
    (hpart : Settles disk (fun eng ↦ part eng scope elem) a (.ok v a₁)) :
    InStep k (R.skip a₁.serials) a₁ (R.store a₁) ∧ a.serials ≤ a₁.serials ∧
      v.Below a₁.serials := by
  have htracks (R : Renumbering) (hR : ∀ i < a.serials, R.serial i = i) (steps room : Nat) :
      R.Tracks (Value.rename R.serial) (part (.granted disk steps room) scope elem)
        (part (.granted disk steps room) scope elem) := by
    have htracks := tracks_part_granted R disk scope elem steps room
    rwa [(helem.mono h.le).rename_eq hR] at htracks
  obtain ⟨-, n, hn⟩ := hpart
  have hrun : part (.granted disk n n) scope elem a = .ok v a₁ :=
    hn n n (Nat.le_refl n) (Nat.le_refl n)
  have hends := ends_numbered h.numbered fun R hR ↦ htracks R hR n n
  have hle := (htracks ⟨id, id, fun _ _ h ↦ h⟩ (fun _ _ ↦ rfl) n n a).1
  rw [hrun] at hends hle
  obtain ⟨hnumbered, hv⟩ := hends
  refine ⟨⟨hnumbered, Nat.le_trans h.le hle, Renumbering.strictMono_skip h.mono, fun i hi ↦ ?_,
    ?_, Renumbering.store_nextSerial h.mono hnumbered⟩, hle, hv⟩
  · have hi₁ : i < a₁.serials := Nat.lt_of_lt_of_le hi (Nat.le_trans h.le hle)
    exact (Renumbering.serial_skip h.mono hi₁).trans (h.fixed i hi)
  · exact Renumbering.counts_skip h.mono fun n ↦ (h.counts n).right hle

/-! ### One element after the other -/

theorem growing_parts (items : List Value) :
    Growing disk fun eng ↦ items.mapM (part eng scope) :=
  .mapM (fun elem ↦ growing_part (growing_fill elem)) items

/-- **Elements as templates of their own, one after the other, come to what they contribute**,
renumbered. -/
theorem InStep.exists_renumbering (h : InStep k R a b) (hahead : Ahead disk scope k items a)
    {r : EStateM.Result Failure Store (List Value)}
    (hr : Settles disk (fun eng ↦ items.mapM (part eng scope)) a r) :
    ∃ R' : Renumbering, StrictMono R'.serial ∧ (∀ i < a.serials, R'.serial i = R.serial i) ∧
      Settles disk (fun eng ↦ items.mapM fun elem ↦ eng.eval scope (quasiquoteOf elem)) b
        (R'.ending (List.map (Value.rename R'.serial)) r) := by
  induction items generalizing R a b r with
  | nil =>
    obtain ⟨-, rfl⟩ := settles_const_iff.1 hr
    refine ⟨⟨R.serial, fun _ ↦ b.serials, R.injective⟩, h.mono, fun _ _ ↦ rfl, ?_⟩
    exact settles_const_iff.2 ⟨trivial, congrArg (EStateM.Result.ok []) h.rename_eq.symm⟩
  | cons elem rest ih =>
    simp only [List.mapM_cons] at hr ⊢
    obtain ⟨v, a₁, hpart, hr⟩ | ⟨e, a₁, hpart, rfl⟩ :=
      (settles_bind_iff (growing_part (growing_fill elem))).1 hr
    · have hq := (h.settles_quasiquoteOf_iff hahead).2 ⟨_, hpart, rfl⟩
      obtain ⟨hstep, hle, hv⟩ := h.of_settles_part (hahead.below elem List.mem_cons_self) hpart
      -- what is behind is compared with one number left out, which nothing so far has
      obtain ⟨p, hp⟩ := exists_settles_of_bind (growing_parts rest) hr
      obtain ⟨R', hR', hagree, hqs⟩ := ih hstep (hahead.behind hpart) hp
      have hagree' : ∀ i < a₁.serials, R'.serial i = R.serial i :=
        fun i hi ↦ (hagree i hi).trans (Renumbering.serial_skip h.mono hi)
      refine ⟨R', hR', fun i hi ↦ hagree' i (Nat.lt_of_lt_of_le hi hle), ?_⟩
      refine (settles_bind_of_ok hq).2 ?_
      cases p with
      | ok vs a₂ =>
        obtain ⟨-, rfl⟩ :=
          settles_const_iff.1 ((settles_bind_of_ok (f := fun _ vs ↦ pure (v :: vs)) hp).1 hr)
        refine (settles_bind_of_ok hqs).2 ?_
        rw [← hv.rename_congr hagree']
        exact settles_pure _
      | error e a₂ =>
        obtain rfl := hr.unique (settles_bind_of_error hp)
        exact settles_bind_of_error hqs
    · have hq := (h.settles_quasiquoteOf_iff hahead).2 ⟨_, hpart, rfl⟩
      exact ⟨R, h.mono, fun _ _ ↦ rfl, settles_bind_of_error hq⟩

/-- If the elements as templates of their own come to something, then they contribute something. -/
theorem InStep.exists_of_settles (h : InStep k R a b) (hahead : Ahead disk scope k items a)
    {q : EStateM.Result Failure Store (List Value)}
    (hq : Settles disk (fun eng ↦ items.mapM fun elem ↦ eng.eval scope (quasiquoteOf elem)) b q) :
    ∃ r, Settles disk (fun eng ↦ items.mapM (part eng scope)) a r := by
  induction items generalizing R a b q with
  | nil => exact ⟨_, settles_pure []⟩
  | cons elem rest ih =>
    simp only [List.mapM_cons] at hq ⊢
    obtain ⟨w, hw⟩ := exists_settles_of_bind (.eval scope _) hq
    obtain ⟨r, hpart, rfl⟩ := (h.settles_quasiquoteOf_iff hahead).1 hw
    cases r with
    | error e a₁ => exact ⟨_, settles_bind_of_error hpart⟩
    | ok v a₁ =>
      obtain ⟨hstep, -, -⟩ := h.of_settles_part (hahead.below elem List.mem_cons_self) hpart
      obtain ⟨q, hqs⟩ := exists_settles_of_bind (.mapM (fun elem ↦ .eval scope _) rest)
        ((settles_bind_of_ok hw).1 hq)
      obtain ⟨r, hparts⟩ := ih hstep (hahead.behind hpart) hqs
      cases r with
      | error e a₂ => exact ⟨_, (settles_bind_of_ok hpart).2 (settles_bind_of_error hparts)⟩
      | ok vs a₂ =>
        exact ⟨_, (settles_bind_of_ok hpart).2 ((settles_bind_of_ok hparts).2 (settles_pure _))⟩

/-! ### The template as a whole -/

/-- The list with this label, or the vector, that a template is, of other elements. -/
def rebuild (t : Value) (l : Option Label) (vs : List Value) : Value :=
  match t.bare with
  | .list _ _ => .list l vs
  | _ => .vec vs

theorem fill_of_elements? {t : Value} (eng : Engine) (scope : FrameId)
    (h : elements? t = some items) :
    fill eng scope t = do
      let filled ← fillItems eng scope items
      return rebuild t filled.1 filled.2 := by
  have hwhole := whole?_of_elements? h
  replace h := items?_of_elements? h
  rw [Value.items?] at h
  cases hbare : t.bare with
  | list l _ =>
    simp only [hbare] at h
    simp only [fill_of_list _ _ (by simp [hwhole]) hbare, rebuild, hbare, Option.some.inj h]
  | vec _ =>
    simp only [hbare] at h
    simp only [fill_of_vec _ _ hbare, rebuild, hbare, Option.some.inj h]
  | _ => simp [hbare] at h

/-- **A template has come to the same as its elements**, one after the other: to the list or the
vector of the same values, or to the same failure, and to the same store; all of it up to a
renumbering and to the count. -/
inductive Composed (t : Value) (ρ : Nat → Nat) :
    EStateM.Result Failure Store Value → EStateM.Result Failure Store (List Value) → Prop
  | ok (l : Option Label) (vs : List Value) (s : Store) (count : Nat) :
      Composed t ρ (.ok (rebuild t l vs) s) (.ok (vs.map (Value.rename ρ)) (s.rename ρ count))
  | error (e : Failure) (s : Store) (count : Nat) :
      Composed t ρ (.error e s) (.error (e.rename ρ) (s.rename ρ count))

/-- A template of pieces is filled by what they contribute. -/
theorem settles_fill_of_pieces {t : Value} (h : elements? t = some items)
    (hitems : ∀ elem ∈ items, IsPiece elem) {r : EStateM.Result Failure Store (List Value)}
    (hr : Settles disk (fun eng ↦ items.mapM (part eng scope)) a r) :
    ∃ r', Settles disk (fun eng ↦ fill eng scope t) a r' ∧
      ∀ R : Renumbering,
        Composed t R.serial r' (R.ending (List.map (Value.rename R.serial)) r) := by
  simp only [fill_of_elements? _ _ h, fillItems_of_pieces hitems, bind_assoc, pure_bind]
  cases r with
  | error e a₁ => exact ⟨_, settles_bind_of_error hr, fun R ↦ .error e a₁ _⟩
  | ok vs a₁ =>
    obtain ⟨l, hl⟩ := lastLabel_apply items.length a₁
    have hlast : Settles disk
        (fun _ ↦ do
          let l ← lastLabel items.length
          return rebuild t l vs) a₁
        (.ok (rebuild t l vs) { a₁ with serials := a₁.serials + items.length }) := by
      refine settles_const_iff.2 ⟨trivial, ?_⟩
      simp only [Bind.bind, EStateM.bind, hl]
      rfl
    exact ⟨_, (settles_bind_of_ok hr).2 hlast, fun R ↦ .ok l vs _ _⟩

theorem exists_settles_parts {t : Value} (h : elements? t = some items)
    (hitems : ∀ elem ∈ items, IsPiece elem) {r : EStateM.Result Failure Store Value}
    (hr : Settles disk (fun eng ↦ fill eng scope t) a r) :
    ∃ r, Settles disk (fun eng ↦ items.mapM (part eng scope)) a r := by
  simp only [fill_of_elements? _ _ h, fillItems_of_pieces hitems, bind_assoc, pure_bind] at hr
  exact exists_settles_of_bind (growing_parts items) hr

/-- **Templates are composed of templates.**  Take a list that is no hole as a whole, or a vector,
and let its elements be pieces.

It is malformed exactly if one of its elements is, and then it fails before anything is evaluated.
Otherwise, if the names in its code stand for what is meant whenever an element is next to
contribute, it comes to something exactly if its elements do, as templates of their own and one
after the other; and what it comes to is the list or the vector of the same values, or the same
failure, with the same effects.  Only serial numbers that are handed out on the way may differ. -/
theorem quasiquote_composes (disk : Disk) (scope : FrameId) (l : Option Label) (t : Value)
    (items : List Value) (s : Store) (h : elements? t = some items)
    (hitems : ∀ elem ∈ items, IsPiece elem) (hs : s.IsNumbered) (ht : t.Below s.serials) :
    (Malformed t ↔ ∃ elem ∈ items, Malformed elem) ∧
      (Malformed t → ∃ marker, Evaluates disk (.eval (.list l [.sym "quasiquote", t]) scope) s
        (.error (.error (.arity (.marker marker)) (ArityError.message (.marker marker)))
          s.nextSerial.2)) ∧
      (¬Malformed t → Steady disk scope t s.nextSerial.2 →
        ((∃ r, Evaluates disk (.eval (.list l [.sym "quasiquote", t]) scope) s r) ↔
          ∃ q, Settles disk (fun eng ↦ items.mapM fun e ↦ eng.eval scope (quasiquoteOf e)) s q) ∧
        ∀ r q, Evaluates disk (.eval (.list l [.sym "quasiquote", t]) scope) s r →
          Settles disk (fun eng ↦ items.mapM fun e ↦ eng.eval scope (quasiquoteOf e)) s q →
          ∃ ρ : Nat → Nat, StrictMono ρ ∧ (∀ i < s.serials, ρ i = i) ∧ Composed t ρ r q) := by
  have hmalformed : Malformed t ↔ ∃ elem ∈ items, Malformed elem :=
    (malformed_iff_of_elements? h).trans
      (exists_congr fun elem ↦ and_congr_right fun helem ↦ (hitems elem helem).malformed_iff)
  refine ⟨hmalformed, exists_settles_quasiquote, fun hwell hsteady ↦ ?_⟩
  have hahead : Ahead disk scope s.serials items s.nextSerial.2 :=
    { pieces := hitems
      wellFormed := fun elem helem hbad ↦ hwell (hmalformed.2 ⟨elem, helem, hbad⟩)
      below := fun elem helem ↦ ht.items (items?_of_elements? h) helem
      named := hsteady.named items h }
  have hstep := inStep_nextSerial hs
  have hfill {r : EStateM.Result Failure Store Value} :=
    settles_quasiquote_iff (l := l) (r := r) hwell hsteady
  -- the two sides are compared by what the elements contribute, which both of them come down to
  have hcomposed {p : EStateM.Result Failure Store (List Value)}
      (hp : Settles disk (fun eng ↦ items.mapM (part eng scope)) s.nextSerial.2 p) :
      ∃ r q, Evaluates disk (.eval (.list l [.sym "quasiquote", t]) scope) s r ∧
        Settles disk (fun eng ↦ items.mapM fun e ↦ eng.eval scope (quasiquoteOf e)) s q ∧
        ∃ ρ : Nat → Nat, StrictMono ρ ∧ (∀ i < s.serials, ρ i = i) ∧ Composed t ρ r q := by
    obtain ⟨r, hr, hrelated⟩ := settles_fill_of_pieces h hitems hp
    obtain ⟨R, hR, hagree, hq⟩ := hstep.exists_renumbering hahead hp
    exact ⟨r, _, hfill.2 hr, hq, R.serial, hR,
      fun i hi ↦ hagree i (Nat.lt_of_lt_of_le hi hstep.le), hrelated R⟩
  refine ⟨⟨?_, ?_⟩, ?_⟩
  · rintro ⟨r, hr⟩
    obtain ⟨p, hp⟩ := exists_settles_parts h hitems (hfill.1 hr)
    obtain ⟨-, q, -, hq, -⟩ := hcomposed hp
    exact ⟨q, hq⟩
  · rintro ⟨q, hq⟩
    obtain ⟨p, hp⟩ := hstep.exists_of_settles hahead hq
    obtain ⟨r, -, hr, -⟩ := hcomposed hp
    exact ⟨r, hr⟩
  · intro r q hr hq
    obtain ⟨p, hp⟩ := exists_settles_parts h hitems (hfill.1 hr)
    obtain ⟨r', q', hr', hq', hrelated⟩ := hcomposed hp
    rwa [(hfill.1 hr).unique (hfill.1 hr'), hq.unique hq']

/-- A list of a hole and a name has the value of the one and the other. -/
theorem quasiquote_composes_two :
    let disk : Disk := fun _ ↦ none
    let s := (({} : Store).addFrame none
      ⟨[Builtin.cons, .concat, .vec].map fun op ↦ (op.name, .builtin 0 op)⟩).2
    let items := [.list none [.sym "unquote", .int 1], .sym "a"]
    let t := Value.list none items
    elements? t = some items ∧ (∀ elem ∈ items, IsPiece elem) ∧ s.IsNumbered ∧
      t.Below s.serials ∧ ¬Malformed t ∧ Steady disk 0 t s.nextSerial.2 ∧
      ∃ q, Settles disk (fun eng ↦ items.mapM fun e ↦ eng.eval 0 (quasiquoteOf e)) s q ∧
        ∃ ρ : Nat → Nat, StrictMono ρ ∧ (∀ i < s.serials, ρ i = i) ∧
          Composed t ρ (.ok (.list (some ⟨2, []⟩) [.int 1, .sym "a"]) { s with serials := 3 })
            q := by
  intro disk s items t
  have hitems : ∀ elem ∈ items, IsPiece elem := by
    simpa [items] using ⟨⟨rfl, rfl⟩, ⟨rfl, rfl⟩⟩
  have hhole : hole? (.list none [.sym "unquote", .int 1]) = some (.one (.int 1)) := rfl
  have hbuiltin (op : Builtin) : (Value.builtin 0 op).Below s.serials :=
    Value.below_of_forall_rename (fun ρ ↦ by simp) _
  have hs : s.IsNumbered := by
    refine ⟨fun fr hfr ↦ ?_, by simp [s, Store.addFrame]⟩
    obtain rfl := List.mem_singleton.1 (Array.mem_toList_iff.2 hfr)
    simp [hbuiltin]
  have ht : t.Below s.serials := Value.below_of_forall_rename (fun ρ ↦ by simp [t, items]) _
  have hwell : ¬Malformed t := by
    have helements : elements? t = some items := rfl
    rw [malformed_iff_of_elements? helements]
    simpa [items] using ⟨not_malformedElement_of_hole? hhole,
      (malformedElement_iff_of_not_marked rfl rfl).not.2 (not_malformed_of_items? rfl)⟩
  have hresolves {op : Builtin} (hown : s.nextSerial.2.own? 0 op.name = some (.builtin 0 op)) :
      s.nextSerial.2.Resolves 0 op := ⟨.builtin 0 op, 0, Store.get?_of_own? hown, rfl⟩
  have hnamed : Named s.nextSerial.2 0 := ⟨hresolves rfl, hresolves rfl, hresolves rfl⟩
  have hsteady : Steady disk 0 t s.nextSerial.2 := by
    refine ⟨fun _ ↦ hnamed.vec, fun items' hitems' s' hvisits ↦ ?_⟩
    obtain rfl : [.list none [.sym "unquote", .int 1], .sym "a"] = items' :=
      Option.some.inj hitems'
    -- the first element does nothing to the store, and behind the second one there is none
    have hfirst : Settles disk (fun eng ↦ part eng 0 (.list none [.sym "unquote", .int 1]))
        s.nextSerial.2 (.ok (.int 1) s.nextSerial.2) := by
      simp only [part, hhole]
      exact settles_itself fun eng ↦ rfl
    suffices h : s' = s.nextSerial.2 from h ▸ hnamed
    cases hvisits with
    | here => rfl
    | inside hnone => simp [hhole] at hnone
    | behind hv hvisits =>
      obtain ⟨-, rfl⟩ := EStateM.Result.ok.inj (hv.unique hfirst)
      cases hvisits with
      | here => rfl
      | inside _ hnone => simp [elements?, whole?, Value.bare, Value.items?] at hnone
      | behind _ hvisits => cases hvisits
  have hrun : run disk 9 9 [] (.eval (quasiquoteOf t) 0) s =
      .ok (.list (some ⟨2, []⟩) [.int 1, .sym "a"]) { s with serials := 3 } := by
    with_unfolding_all rfl
  obtain ⟨-, -, hcomposed⟩ := quasiquote_composes disk 0 none t items s rfl hitems hs ht
  obtain ⟨hiff, hcomposed⟩ := hcomposed hwell hsteady
  obtain ⟨q, hq⟩ := hiff.1 ⟨_, .of_run hrun trivial⟩
  exact ⟨rfl, hitems, hs, ht, hwell, hsteady, q, hq, hcomposed _ q (.of_run hrun trivial) hq⟩

/-- **What parts a template from its elements**, where `cons`, `concat` and `vec` are what they
should be.  A marker without a form is noticed before a name is found to be unbound.  A vector with
a marker in front is a hole only as an element.  And a hole can bind `cons` anew, which the code for
the next element calls. -/
theorem quasiquote_parts_from_elements :
    let disk : Disk := fun _ ↦ none
    let s := (({} : Store).addFrame none
      ⟨[Builtin.cons, .concat, .vec].map fun op ↦ (op.name, .builtin 0 op)⟩).2
    let unbound : List Value :=
      [.list none [.sym "unquote", .sym "x"], .list none [.sym "unquote"]]
    let vector : List Value := [.vec [.sym "unquote", .int 1]]
    let anew : List Value :=
      [.list none [.sym "unquote", .list none [.sym "def!", .sym "cons", .int 5]], .int 1]
    let whole (items : List Value) (r : EStateM.Result Failure Store Value) : Prop :=
      Evaluates disk (.eval (quasiquoteOf (.list none items)) 0) s r
    let each (items : List Value) (q : EStateM.Result Failure Store (List Value)) : Prop :=
      Settles disk (fun eng ↦ items.mapM fun e ↦ eng.eval 0 (quasiquoteOf e)) s q
    Named s 0 ∧
      (∃ message s', whole unbound (.error (.error (.arity (.marker "unquote")) message) s')) ∧
      (∃ message s', each unbound (.error (.error (.unbound "x") message) s')) ∧
      (∃ l s', whole vector (.ok (.list l [.int 1]) s')) ∧
      (∃ s', each vector (.ok [.vec [.sym "unquote", .int 1]] s')) ∧
      (∃ message s',
        whole anew (.error (.error (.notFunction (.sym "cons") (.int 5)) message) s')) ∧
      ∃ s', each anew (.ok [.int 5, .int 1] s') := by
  intro disk s unbound vector anew whole each
  have hwhole {items : List Value} {r : EStateM.Result Failure Store Value} (hr : Settled r)
      (h : run disk 9 9 [] (.eval (quasiquoteOf (.list none items)) 0) s = r) : whole items r :=
    .of_run h hr
  have heach {items : List Value} {q : EStateM.Result Failure Store (List Value)} (hq : Settled q)
      (h : (items.mapM fun e ↦ (Engine.granted disk 9 9).eval 0 (quasiquoteOf e)) s = q) :
      each items q :=
    (Growing.mapM (fun e ↦ .eval 0 (quasiquoteOf e)) items).settles h hq
  have hresolves {op : Builtin} (hown : s.own? 0 op.name = some (.builtin 0 op)) :
      s.Resolves 0 op := ⟨.builtin 0 op, 0, Store.get?_of_own? hown, rfl⟩
  refine ⟨⟨hresolves rfl, hresolves rfl, hresolves rfl⟩, ?_, ?_, ?_, ?_, ?_, ?_⟩
  · exact ⟨_, _, hwhole trivial (by with_unfolding_all rfl)⟩
  · exact ⟨_, _, heach trivial (by with_unfolding_all rfl)⟩
  · exact ⟨_, _, hwhole trivial (by with_unfolding_all rfl)⟩
  · exact ⟨_, heach trivial (by with_unfolding_all rfl)⟩
  · exact ⟨_, _, hwhole trivial (by with_unfolding_all rfl)⟩
  · exact ⟨_, heach trivial (by with_unfolding_all rfl)⟩

end Template

end Lisplet
