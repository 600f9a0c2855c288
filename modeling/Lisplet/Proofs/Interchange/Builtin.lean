import Lisplet.Builtin.Kind
import Lisplet.Builtin.Sequence
import Lisplet.Builtin.Table
import Lisplet.Proofs.Interchange

/-!
# Answers to arguments that are alike

What a built-in function answers that needs nothing but its arguments agrees for arguments that are
alike (`Value.Alike`).  Each function asks for its arguments one after the other, and so the lemma
for each is made of those for what it asks (`Agree.one`, `Agree.items`, `Agree.entries`, ...) in the
same order.

Tests are lenient if they tell apart only what is not alike (`Builtin.Kind.IsLenient`).  Adding to a
collection is the one function here that also has to be told vectors from lists.
-/

set_option autoImplicit false

namespace Lisplet

open Value (Alike IsMade)

/-! ## Arguments -/

namespace Agree

variable {heap : Heap} {macros : Nat → Bool} {op : Builtin} {α β : Type} {R : α → β → Prop}
  {vs ws : List Value} {v w : Value}

theorem refuse_arity (e e' : ArityError) :
    Agree heap R (Builtin.refuse (.arity e)) (Builtin.refuse (.arity e')) :=
  .error (.error rfl (iff_of_true ⟨0, rfl⟩ ⟨0, rfl⟩))

section

variable {P : Value → Value → Prop}

theorem one (h : List.Forall₂ P vs ws) :
    Agree heap P (Builtin.one op vs) (Builtin.one op ws) := by
  rcases h with _ | ⟨hvw, _ | ⟨_, _⟩⟩
  · exact refuse_arity _ _
  · exact .ok hvw
  · exact refuse_arity _ _

theorem two (h : List.Forall₂ P vs ws) :
    Agree heap (fun p q ↦ P p.1 q.1 ∧ P p.2 q.2) (Builtin.two op vs) (Builtin.two op ws) := by
  rcases h with _ | ⟨hvw, _ | ⟨hvw', _ | ⟨_, _⟩⟩⟩
  · exact refuse_arity _ _
  · exact refuse_arity _ _
  · exact .ok ⟨hvw, hvw'⟩
  · exact refuse_arity _ _

/-- A test under metadata agrees on values that it cannot tell apart. -/
theorem test {holds : Value → Bool} (h : List.Forall₂ P vs ws)
    (hholds : ∀ v w, P v w → holds v.bare = holds w.bare) :
    Agree heap (· = ·) (Builtin.Kind.test op holds vs) (Builtin.Kind.test op holds ws) :=
  bind (one h) fun v w hvw ↦ .ok (by rw [hholds v w hvw])

end

theorem hasMessage_type_iff {e e' : TypeError} {v w : Value} (h : Alike macros v w)
    (he : ∀ room, (e.message heap room).isSome = (v.print heap .readable room).isSome)
    (he' : ∀ room, (e'.message heap room).isSome = (w.print heap .readable room).isSome) :
    (EvalError.type e).HasMessage heap ↔ (EvalError.type e').HasMessage heap := by
  have hv : (EvalError.type e).HasMessage heap ↔ v.Prints heap :=
    exists_congr fun room ↦ by rw [← he]; rfl
  have hw : (EvalError.type e').HasMessage heap ↔ w.Prints heap :=
    exists_congr fun room ↦ by rw [← he']; rfl
  rw [hv, hw, h.prints_iff]

theorem unwanted {wanted : Wanted} (h : Alike macros v w) :
    Agree heap R (Builtin.unwanted op wanted v) (Builtin.unwanted op wanted w) :=
  .error (.error rfl (hasMessage_type_iff h (fun _ ↦ Option.isSome_map) fun _ ↦ Option.isSome_map))

theorem items (h : Alike macros v w) :
    Agree heap (List.Forall₂ (Alike macros)) (Builtin.items op v) (Builtin.items op w) := by
  have hitems := h.rel_items?
  rw [Builtin.items, Builtin.items]
  generalize v.items? = xs at hitems ⊢
  generalize w.items? = ys at hitems ⊢
  cases hitems with
  | none => exact unwanted h
  | some hxy => exact .ok hxy

theorem itemsOrNil (h : Alike macros v w) :
    Agree heap (List.Forall₂ (Alike macros)) (Builtin.itemsOrNil op v) (Builtin.itemsOrNil op w) := by
  by_cases hv : v = .nil
  · rw [hv, h.eq_nil_iff.1 hv]
    exact .ok .nil
  · have hw : w ≠ .nil := mt h.eq_nil_iff.2 hv
    rw [Builtin.itemsOrNil.eq_2 op v hv, Builtin.itemsOrNil.eq_2 op w hw]
    exact items h

theorem entries_cases (op : Builtin) (v : Value) :
    (∃ l d, v.bare = .map l d ∧ Builtin.entries op v = .ok d) ∨
      (∀ l d, v.bare ≠ .map l d) ∧ Builtin.entries op v = Builtin.unwanted op .map v.bare := by
  rw [Builtin.entries]
  split
  · rename_i l d hbare
    exact .inl ⟨l, d, hbare, rfl⟩
  · rename_i hmap
    exact .inr ⟨hmap, rfl⟩

/-- Maps that are alike have entries that make maps that are alike. -/
theorem entries (h : Alike macros v w) :
    Agree heap (fun d d' ↦ Alike macros (.map none d) (.map none d')) (Builtin.entries op v)
      (Builtin.entries op w) := by
  obtain ⟨l, d, hv, hdv⟩ | ⟨hv, huv⟩ := entries_cases op v
  · obtain ⟨l', d', hw, hdw⟩ | ⟨hw, -⟩ := entries_cases op w
    · have hbare := h.bare
      rw [hv, hw] at hbare
      rw [hdv, hdw]
      exact .ok (hbare.relabel none none)
    · obtain ⟨l', d', hmap, -⟩ :=
        Value.map_of_canonical (h.canonical.symm.trans (Value.canonical_of_map hv))
      exact absurd hmap (hw l' d')
  · obtain ⟨l', d', hw, -⟩ | ⟨-, huw⟩ := entries_cases op w
    · obtain ⟨l, d, hmap, -⟩ :=
        Value.map_of_canonical (h.canonical.trans (Value.canonical_of_map hw))
      exact absurd hmap (hv l d)
    · rw [huv, huw]
      exact unwanted h.bare

theorem key (h : Alike macros v w) :
    Agree heap (· = ·) (Builtin.key op v) (Builtin.key op w) := by
  rw [Builtin.key, Builtin.key, ← h.key?_eq]
  cases v.key? with
  | some k => exact .ok rfl
  | none =>
    exact .error (.error rfl
      (hasMessage_type_iff h (fun _ ↦ Option.isSome_map) fun _ ↦ Option.isSome_map))

end Agree

/-! ## Tests -/

namespace Builtin.Kind

/-- A test that tells sequences apart by their length alone, functions by whether they are macros,
and no map from another one. -/
structure IsLenient (holds : Value → Bool) : Prop where
  seq : ∃ b : Nat → Bool, ∀ l vs, holds (.list l vs) = b vs.length ∧ holds (.vec vs) = b vs.length
  map : ∀ l d l' d', holds (.map l d) = holds (.map l' d')
  fn : ∀ c c' : Closure Value, c.isMacro = c'.isMacro → holds (.fn c) = holds (.fn c')

variable {macros : Nat → Bool} {holds : Value → Bool} {v w : Value}

theorem IsLenient.holds_of_items? (h : IsLenient holds) :
    ∃ b : Nat → Bool, ∀ (v : Value) (vs : List Value), v.items? = some vs →
      holds v.bare = b vs.length := by
  obtain ⟨b, hb⟩ := h.seq
  refine ⟨b, fun v vs hv ↦ ?_⟩
  obtain ⟨l, hbare⟩ | hbare := Value.bare_of_items? hv
  · rw [hbare, (hb l vs).1]
  · rw [hbare, (hb none vs).2]

/-- A lenient test does not tell values apart that are alike. -/
theorem IsLenient.holds_eq (hl : IsLenient holds) (h : Alike macros v w) :
    holds v.bare = holds w.bare := by
  cases h.matched with
  | leaf hbare _ _ => rw [hbare]
  | seq hv hw hxy =>
    obtain ⟨b, hb⟩ := hl.holds_of_items?
    rw [hb v _ hv, hb w _ hw, hxy.length_eq]
  | map hv hw _ => rw [hv, hw, hl.map]
  | fn hv hw _ hflag => rw [hv, hw, hl.fn _ _ hflag]

/-- A test that no collection and no function passes is lenient. -/
theorem isLenient_of_eq_false (h : ∀ v, takesMetadata v = true → holds v = false) :
    IsLenient holds where
  seq := ⟨fun _ ↦ false, fun _ _ ↦ ⟨h _ rfl, h _ rfl⟩⟩
  map _ _ _ _ := (h _ rfl).trans (h _ rfl).symm
  fn _ _ _ := (h _ rfl).trans (h _ rfl).symm

theorem isLenient_isSequential : IsLenient isSequential where
  seq := ⟨fun _ ↦ true, fun _ _ ↦ ⟨rfl, rfl⟩⟩
  map _ _ _ _ := rfl
  fn _ _ _ := rfl

theorem isLenient_isEmpty : IsLenient Sequence.isEmpty where
  seq := ⟨fun n ↦ n == 0, fun _ vs ↦ by cases vs <;> exact ⟨rfl, rfl⟩⟩
  map _ _ _ _ := rfl
  fn _ _ _ := rfl

theorem isLenient_isMap : IsLenient isMap where
  seq := ⟨fun _ ↦ false, fun _ _ ↦ ⟨rfl, rfl⟩⟩
  map _ _ _ _ := rfl
  fn _ _ _ := rfl

theorem isLenient_isFn : IsLenient isFn where
  seq := ⟨fun _ ↦ false, fun _ _ ↦ ⟨rfl, rfl⟩⟩
  map _ _ _ _ := rfl
  fn _ _ h := congrArg not h

theorem isLenient_isMacro : IsLenient isMacro where
  seq := ⟨fun _ ↦ false, fun _ _ ↦ ⟨rfl, rfl⟩⟩
  map _ _ _ _ := rfl
  fn _ _ h := h

end Builtin.Kind

/-! ## What the functions answer -/

namespace Agree

open Builtin.Kind (IsLenient)

variable {heap : Heap} {macros : Nat → Bool} {op : Builtin} {vs ws : List Value} {v w : Value}

theorem conj_of_not_sequence {c : Value} {es : List Value} (h : c.items? = none) :
    Builtin.Sequence.conj (c :: es) = Builtin.unwanted .conj .sequence c.bare := by
  rw [Builtin.Sequence.conj]
  split
  · rename_i hbare
    rw [Value.items?, hbare] at h
    cases h
  · rename_i hbare
    rw [Value.items?, hbare] at h
    cases h
  · rfl

/-- A value that holds nothing and is no function is alike to itself. -/
theorem alike_leaf (h : v.parts = []) (hv : v.IsMade macros) : Alike macros v v :=
  .refl (.of_parts_eq_nil hv h)

/-- Lists whose elements are related have related elements at each place. -/
theorem rel_getElem? {α β : Type} {R : α → β → Prop} {as : List α} {bs : List β}
    (h : List.Forall₂ R as bs) (i : Nat) : Option.Rel R as[i]? bs[i]? := by
  induction h generalizing i with
  | nil => exact .none
  | cons hab _ ih =>
    cases i with
    | zero => exact .some hab
    | succ i => exact ih i

/-- Adding elements to collections that are alike gives collections that are alike, if both are
vectors or none is. -/
theorem conj {c c' : Value} (hc : Alike macros c c')
    (hvec : Builtin.Kind.isVector c.bare = Builtin.Kind.isVector c'.bare)
    (h : List.Forall₂ (Alike macros) vs ws) :
    Agree heap (Alike macros) (Builtin.Sequence.conj (c :: vs)) (Builtin.Sequence.conj (c' :: ws)) := by
  have hitems := hc.rel_items?
  cases hv : c.items? with
  | none =>
    cases hw : c'.items? with
    | none =>
      rw [conj_of_not_sequence hv, conj_of_not_sequence hw]
      exact unwanted hc.bare
    | some ys => rw [hv, hw] at hitems; cases hitems
  | some xs =>
    cases hw : c'.items? with
    | none => rw [hv, hw] at hitems; cases hitems
    | some ys =>
      rw [hv, hw] at hitems
      obtain ⟨hxy⟩ := hitems
      rw [Builtin.Sequence.conj, Builtin.Sequence.conj]
      obtain ⟨l, hbare⟩ | hbare := Value.bare_of_items? hv
      · obtain ⟨l', hbare'⟩ | hbare' := Value.bare_of_items? hw
        · rw [hbare, hbare']
          exact .ok (.list (List.rel_append (List.rel_reverse h) hxy))
        · rw [hbare, hbare'] at hvec
          cases hvec
      · obtain ⟨l', hbare'⟩ | hbare' := Value.bare_of_items? hw
        · rw [hbare, hbare'] at hvec
          cases hvec
        · rw [hbare, hbare']
          exact .ok (.vec (List.rel_append hxy h))

section

variable (h : List.Forall₂ (Alike macros) vs ws)
include h

theorem lenient {holds : Value → Bool} (hl : IsLenient holds) :
    Agree heap (Alike macros) (Builtin.Kind.test op holds vs) (Builtin.Kind.test op holds ws) :=
  bind (one h) fun _ _ hvw ↦ .ok (by rw [hl.holds_eq hvw]; exact alike_leaf rfl trivial)

/-! ### Sequences -/

theorem vec :
    Agree heap (Alike macros) (Builtin.Sequence.vec vs) (Builtin.Sequence.vec ws) :=
  bind (one h) fun _ _ hvw ↦ bind (items hvw) fun _ _ hxy ↦ .ok (.vec hxy)

theorem count :
    Agree heap (Alike macros) (Builtin.Sequence.count vs) (Builtin.Sequence.count ws) :=
  bind (one h) fun _ _ hvw ↦ bind (itemsOrNil hvw) fun _ _ hxy ↦
    .ok (by rw [hxy.length_eq]; exact alike_leaf rfl trivial)

theorem cons :
    Agree heap (Alike macros) (Builtin.Sequence.cons vs) (Builtin.Sequence.cons ws) :=
  bind (two h) fun _ _ hpq ↦ bind (itemsOrNil hpq.2) fun _ _ hxy ↦ .ok (.list (.cons hpq.1 hxy))

theorem concat :
    Agree heap (Alike macros) (Builtin.Sequence.concat vs) (Builtin.Sequence.concat ws) :=
  bind (mapM h fun _ _ ↦ itemsOrNil) fun _ _ hxys ↦ .ok (.list (List.rel_flatten hxys))

theorem first :
    Agree heap (Alike macros) (Builtin.Sequence.first vs) (Builtin.Sequence.first ws) := by
  refine bind (one h) fun v w hvw ↦ bind (itemsOrNil hvw) fun xs ys hxy ↦ .ok ?_
  cases hxy with
  | nil => exact alike_leaf rfl trivial
  | cons hhead _ => exact hhead

theorem rest :
    Agree heap (Alike macros) (Builtin.Sequence.rest vs) (Builtin.Sequence.rest ws) := by
  refine bind (one h) fun v w hvw ↦ bind (itemsOrNil hvw) fun xs ys hxy ↦ .ok (.list ?_)
  cases hxy with
  | nil => exact .nil
  | cons _ htail => exact htail

theorem nth :
    Agree heap (Alike macros) (Builtin.Sequence.nth vs) (Builtin.Sequence.nth ws) := by
  refine bind (two h) fun ⟨v, i⟩ ⟨w, j⟩ ⟨hvw, hij⟩ ↦ bind (items hvw) fun xs ys hxy ↦ ?_
  dsimp only at hij ⊢
  by_cases hi : ∃ n, i = .int n
  · obtain ⟨n, rfl⟩ := hi
    obtain rfl : j = .int n := hij.eq_of_bare_eq rfl rfl
    dsimp only
    by_cases hn : n < 0
    · rw [if_pos hn, if_pos hn]
      exact .error (.thrown _ _)
    · rw [if_neg hn, if_neg hn]
      have hget := rel_getElem? hxy n.toNat
      generalize xs[n.toNat]? = u at hget ⊢
      generalize ys[n.toNat]? = u' at hget ⊢
      cases hget with
      | none => exact .error (.thrown _ _)
      | some hu => exact .ok hu
  · have hj : ¬ ∃ n, j = .int n := by
      rintro ⟨n, rfl⟩
      exact hi ⟨n, hij.symm.eq_of_bare_eq rfl rfl⟩
    split
    · exact absurd ⟨_, rfl⟩ hi
    · split
      · exact absurd ⟨_, rfl⟩ hj
      · exact unwanted hij

theorem seq :
    Agree heap (Alike macros) (Builtin.Sequence.seq vs) (Builtin.Sequence.seq ws) := by
  refine bind (one h) fun v w hvw ↦ ?_
  have hlisted (xs ys : List Value) (hxy : List.Forall₂ (Alike macros) xs ys) :
      Agree heap (Alike macros) (.ok (if xs.isEmpty then .nil else .list none xs))
        (.ok (if ys.isEmpty then .nil else .list none ys)) := by
    cases hxy with
    | nil => exact .ok (alike_leaf rfl trivial)
    | cons hhead htail => exact .ok (.list (.cons hhead htail))
  have hbare := hvw.bare
  dsimp only
  by_cases hnil : v.bare = .nil
  · rw [hnil, hbare.eq_nil_iff.1 hnil]
    exact hlisted [] [] .nil
  by_cases hstr : ∃ text, v.bare = .str text
  · obtain ⟨text, htext⟩ := hstr
    rw [htext] at hbare ⊢
    rw [hbare.eq_of_bare_eq rfl rfl]
    refine hlisted _ _ (List.forall₂_same.2 fun u hu ↦ ?_)
    obtain ⟨c, -, rfl⟩ := List.mem_map.1 hu
    exact alike_leaf rfl trivial
  · have hnil' : w.bare ≠ .nil := mt hbare.eq_nil_iff.2 hnil
    have hstr' : ¬ ∃ text, w.bare = .str text := by
      rintro ⟨text, htext⟩
      rw [htext] at hbare
      exact hstr ⟨text, hbare.symm.eq_of_bare_eq rfl rfl⟩
    split
    · contradiction
    · exact absurd ⟨_, ‹_›⟩ hstr
    · split
      · contradiction
      · exact absurd ⟨_, ‹_›⟩ hstr'
      · exact bind (items hbare) hlisted

/-! ### Maps -/

/-- Taken two by two, arguments are alike in pairs. -/
theorem pairs? :
    Option.Rel (List.Forall₂ fun p q ↦ Alike macros p.1 q.1 ∧ Alike macros p.2 q.2)
      (Lisplet.pairs? vs) (Lisplet.pairs? ws) := by
  fun_induction Lisplet.pairs? vs generalizing ws with
  | case1 =>
    cases h
    exact .some .nil
  | case2 a =>
    obtain _ | ⟨_, _ | _⟩ := h
    exact .none
  | case3 a b rest ih =>
    obtain _ | ⟨ha, _ | ⟨hb, hrest⟩⟩ := h
    have hpairs := ih hrest
    rw [Lisplet.pairs?]
    generalize Lisplet.pairs? rest = ps at hpairs ⊢
    generalize Lisplet.pairs? _ = qs at hpairs ⊢
    cases hpairs with
    | none => exact .none
    | some hpq => exact .some (.cons ⟨ha, hb⟩ hpq)

theorem extend {d d' : Dict Key Value} (hd : Alike macros (.map none d) (.map none d')) :
    Agree heap (Alike macros) (Builtin.Table.extend op d vs) (Builtin.Table.extend op d' ws) := by
  have hpairs := pairs? h
  rw [Builtin.Table.extend, Builtin.Table.extend]
  generalize Lisplet.pairs? vs = ps at hpairs ⊢
  generalize Lisplet.pairs? ws = qs at hpairs ⊢
  cases hpairs with
  | none => exact refuse_arity _ _
  | some hpq =>
    refine bind (mapM hpq fun p q hpq ↦ ?_) fun ps qs hpsqs ↦ .ok (hd.insertAll hpsqs)
    exact bind (key hpq.1) fun k k' hk ↦ .ok ⟨hk, hpq.2⟩

theorem hashMap :
    Agree heap (Alike macros) (Builtin.Table.hashMap vs) (Builtin.Table.hashMap ws) :=
  extend h .empty

theorem get : Agree heap (Alike macros) (Builtin.Table.get vs) (Builtin.Table.get ws) := by
  refine bind (two h) fun ⟨m, k⟩ ⟨m', k'⟩ ⟨hm, hk⟩ ↦ ?_
  dsimp only at hm hk ⊢
  by_cases hnil : m = .nil
  · rw [hnil, hm.eq_nil_iff.1 hnil]
    exact .ok (alike_leaf rfl trivial)
  · have hnil' : m' ≠ .nil := mt hm.eq_nil_iff.2 hnil
    split
    · exact absurd (Prod.mk.inj ‹_›).1 hnil
    · obtain ⟨rfl, rfl⟩ := Prod.mk.inj ‹_›
      refine bind (entries hm) fun d d' hd ↦ .ok ?_
      rw [hk.key?_eq]
      cases k'.key? with
      | none => exact alike_leaf rfl trivial
      | some key =>
        have hget := hd.rel_get? key
        rw [Option.bind_some, Option.bind_some]
        generalize d.get? key = u at hget ⊢
        generalize d'.get? key = u' at hget ⊢
        cases hget with
        | none => exact alike_leaf rfl trivial
        | some hu => exact hu

theorem contains :
    Agree heap (Alike macros) (Builtin.Table.contains vs) (Builtin.Table.contains ws) := by
  refine bind (two h) fun p q hpq ↦ bind (entries hpq.1) fun d d' hd ↦ .ok ?_
  rw [hpq.2.key?_eq, hd.contains]
  exact alike_leaf rfl trivial

theorem assoc :
    Agree heap (Alike macros) (Builtin.Table.assoc vs) (Builtin.Table.assoc ws) := by
  cases h with
  | nil => exact refuse_arity _ _
  | cons hm hrest => exact bind (entries hm) fun d d' hd ↦ extend hrest hd

theorem filterMap_key?_eq : vs.filterMap Value.key? = ws.filterMap Value.key? := by
  induction h with
  | nil => rfl
  | cons hvw _ ih => rw [List.filterMap_cons, List.filterMap_cons, hvw.key?_eq, ih]

theorem dissoc :
    Agree heap (Alike macros) (Builtin.Table.dissoc vs) (Builtin.Table.dissoc ws) := by
  cases h with
  | nil => exact refuse_arity _ _
  | cons hm hks =>
    refine bind (entries hm) fun d d' hd ↦ .ok ?_
    rw [filterMap_key?_eq hks]
    exact hd.eraseAll _

end

end Agree

end Lisplet
