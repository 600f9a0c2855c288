import Lisplet.Builtin.Arithmetic
import Lisplet.Builtin.Sequence
import Lisplet.Builtin.Table
import Lisplet.Proofs.Law.Engine

/-!
# Built-in functions that need only their arguments

Given good arguments they give good values, and what they throw is good.  What makes a new value
either puts good values into a collection or makes a number, which arithmetic checks; the one number
that nothing checks is the number of elements of a collection, and a law has to answer for that
itself (`Law.ok_count`).
-/

set_option autoImplicit false

namespace Lisplet.Law

open Builtin

variable {L : Law} {s : Store} {α : Type} {op : Builtin} {args : List Value} {v : Value}

theorem yields_refuse {P : α → Prop} (e : EvalError) : L.Yields s P (refuse e) := trivial

/-! ## Arguments -/

theorem yields_one : L.Yields s (fun v ↦ v ∈ args) (one op args) := by
  rw [one.eq_def]
  split
  · exact List.mem_singleton.2 rfl
  · exact yields_refuse _

theorem yields_two : L.Yields s (fun p ↦ p.1 ∈ args ∧ p.2 ∈ args) (two op args) := by
  rw [two.eq_def]
  split
  · simp [Yields]
  · exact yields_refuse _

theorem yields_items : L.Yields s (fun vs ↦ v.items? = some vs) (items op v) := by
  rw [items]
  split
  · assumption
  · exact yields_refuse _

theorem yields_itemsOrNil :
    L.Yields s (fun vs ↦ vs = [] ∨ v.items? = some vs) (itemsOrNil op v) := by
  rw [itemsOrNil.eq_def]
  split
  · exact .inl rfl
  · exact yields_items.imp fun _ h ↦ .inr h

theorem yields_entries : L.Yields s (fun d ↦ ∃ l, v.bare = .map l d) (entries op v) := by
  rw [entries]
  split
  · rename_i l d heq
    exact ⟨l, heq⟩
  · exact yields_refuse _

theorem yields_key : L.Yields s (fun k ↦ v.key? = some k) (key op v) := by
  rw [key]
  split
  · assumption
  · exact yields_refuse _

theorem yields_text : L.Yields s (fun _ ↦ True) (text op v) := by
  rw [text.eq_def]
  split
  · trivial
  · exact yields_refuse _

theorem yields_cell : L.Yields s (fun _ ↦ True) (cell op v) := by
  rw [cell.eq_def]
  split
  · trivial
  · exact yields_refuse _

theorem Good.bare (h : L.Good s v) : L.Good s v.bare := Value.All.bare h

theorem Good.items {vs : List Value} (h : L.Good s v) (hv : v.items? = some vs) :
    ∀ w ∈ vs, L.Good s w :=
  fun _ ↦ Value.All.items h hv

theorem Good.itemsOrNil {vs : List Value} (h : L.Good s v) (hv : vs = [] ∨ v.items? = some vs) :
    ∀ w ∈ vs, L.Good s w := by
  rcases hv with rfl | hv
  · exact fun w hw ↦ by simp at hw
  · exact h.items hv

theorem Good.entry {l : Option Label} {d : Dict Key Value} (h : L.Good s v)
    (hv : v.bare = .map l d) : ∀ e ∈ d.entries, L.Good s (.ofKey e.1) ∧ L.Good s e.2 := by
  have hb : L.Good s v.bare := h.bare
  rw [hv] at hb
  exact fun _ ↦ Value.All.entry hb

/-! ## Tests and metadata -/

theorem yields_test {holds : Value → Bool} : L.Yields s (L.Good s) (Kind.test op holds args) :=
  .bind yields_one fun _ _ ↦ good_bool _

theorem yields_isAtom : L.Yields s (L.Good s) (Kind.isAtom args) := by
  refine .bind yields_one fun v _ ↦ ?_
  split
  · exact good_bool true
  · exact good_bool false

section

variable (hargs : ∀ v ∈ args, L.Good s v)
include hargs

theorem yields_metadata : L.Yields s (L.Good s) (Kind.metadata args) := by
  refine .bind yields_one fun v hv ↦ ?_
  split
  · exact (hargs _ hv).inside (List.mem_cons_of_mem _ List.mem_cons_self)
  · exact good_nil

theorem yields_withMeta : L.Yields s (L.Good s) (Kind.withMeta args) := by
  refine .bind yields_two fun p hp ↦ ?_
  obtain ⟨v, data⟩ := p
  dsimp only
  split
  · rename_i ht
    exact .withMeta (L.ok_withMeta data ht) (hargs v hp.1).bare (hargs data hp.2)
  · exact yields_refuse _

end

/-! ## Arithmetic -/

theorem yields_operands : L.Yields s (fun _ ↦ True) (Arithmetic.operands op args) := by
  refine .bind yields_two fun p _ ↦ ?_
  split
  · trivial
  · exact yields_refuse _

/-- **A checked number is good, whatever it was computed from.** -/
theorem yields_checked (n : Int) : L.Yields s (L.Good s) (Arithmetic.checked op n) := by
  rw [Arithmetic.checked]
  split
  · rename_i h
    exact good_leaf h rfl
  · exact good_str _

theorem yields_operate {f : Int → Int → Int} :
    L.Yields s (L.Good s) (Arithmetic.operate op f args) :=
  .bind yields_operands fun _ _ ↦ yields_checked _

theorem yields_divide : L.Yields s (L.Good s) (Arithmetic.divide args) := by
  refine .bind yields_operands fun p _ ↦ ?_
  dsimp only
  split
  · exact good_str _
  · exact yields_checked _

theorem yields_compare {holds : Int → Int → Bool} :
    L.Yields s (L.Good s) (Arithmetic.compare op holds args) :=
  .bind yields_operands fun _ _ ↦ good_bool _

/-! ## Sequences -/

/-- The number of elements is good if the collection is one that evaluation may come to. -/
theorem yields_count (hfits : ∀ v ∈ args, L.fits v) :
    L.Yields s (L.Good s) (Sequence.count args) := by
  refine .bind yields_one fun v hv ↦ .bind yields_itemsOrNil fun vs hvs ↦ ?_
  rcases hvs with rfl | hvs
  · exact good_leaf (show Integer.InRange 0 by decide) rfl
  · exact .of_parts_eq_nil (L.ok_count (hfits v hv) hvs) rfl

section

variable (hargs : ∀ v ∈ args, L.Good s v)
include hargs

theorem yields_vec : L.Yields s (L.Good s) (Sequence.vec args) :=
  .bind yields_one fun v hv ↦ .bind yields_items fun _ hvs ↦ good_vec ((hargs v hv).items hvs)

theorem yields_cons : L.Yields s (L.Good s) (Sequence.cons args) := by
  refine .bind yields_two fun p hp ↦ .bind yields_itemsOrNil fun vs hvs ↦ ?_
  have htail : ∀ w ∈ vs, L.Good s w := (hargs p.2 hp.2).itemsOrNil hvs
  exact good_list none (List.forall_mem_cons.2 ⟨hargs p.1 hp.1, htail⟩)

theorem yields_concat : L.Yields s (L.Good s) (Sequence.concat args) := by
  have hparts : L.Yields s (fun parts ↦ ∀ vs ∈ parts, ∀ w ∈ vs, L.Good s w)
      (args.mapM (itemsOrNil .concat)) :=
    .mapM fun v hv ↦ yields_itemsOrNil.imp fun vs hvs ↦ (hargs v hv).itemsOrNil hvs
  refine .bind hparts fun parts h ↦ good_list none fun w hw ↦ ?_
  obtain ⟨vs, hvs, hw⟩ := List.mem_flatten.1 hw
  exact h vs hvs w hw

theorem yields_first : L.Yields s (L.Good s) (Sequence.first args) := by
  refine .bind yields_one fun v hv ↦ .bind yields_itemsOrNil fun vs hvs ↦ ?_
  have hitems : ∀ w ∈ vs, L.Good s w := (hargs v hv).itemsOrNil hvs
  cases vs with
  | nil => exact good_nil
  | cons w ws => exact hitems w List.mem_cons_self

theorem yields_rest : L.Yields s (L.Good s) (Sequence.rest args) := by
  refine .bind yields_one fun v hv ↦ .bind yields_itemsOrNil fun vs hvs ↦ ?_
  have hitems : ∀ w ∈ vs, L.Good s w := (hargs v hv).itemsOrNil hvs
  exact good_list none fun w hw ↦ hitems w (List.mem_of_mem_tail hw)

theorem yields_nth : L.Yields s (L.Good s) (Sequence.nth args) := by
  refine .bind yields_two fun p hp ↦ .bind yields_items fun vs hvs ↦ ?_
  have hitems : ∀ w ∈ vs, L.Good s w := (hargs p.1 hp.1).items hvs
  split
  · split
    · rename_i heq
      split at heq
      · simp at heq
      · exact hitems _ (List.mem_of_getElem? heq)
    · exact good_str _
  · exact yields_refuse _

theorem yields_conj : L.Yields s (L.Good s) (Sequence.conj args) := by
  rw [Sequence.conj.eq_def]
  split
  · exact yields_refuse _
  · rename_i collection elems
    obtain ⟨hcoll, helems⟩ := List.forall_mem_cons.1 hargs
    split
    · rename_i vs heq
      have hvs : ∀ w ∈ vs, L.Good s w := fun w hw ↦ (heq ▸ hcoll.bare).inside hw
      exact good_vec (List.forall_mem_append.2 ⟨hvs, helems⟩)
    · rename_i vs heq
      have hvs : ∀ w ∈ vs, L.Good s w := fun w hw ↦ (heq ▸ hcoll.bare).inside hw
      refine good_list none (List.forall_mem_append.2 ⟨fun w hw ↦ ?_, hvs⟩)
      exact helems w (List.mem_reverse.1 hw)
    · exact yields_refuse _

theorem yields_seq : L.Yields s (L.Good s) (Sequence.seq args) := by
  refine .bind yields_one fun v hv ↦ ?_
  have hlist : ∀ vs : List Value, (∀ w ∈ vs, L.Good s w) →
      L.Yields s (L.Good s) (.ok (if vs.isEmpty then .nil else .list none vs)) := by
    intro vs hvs
    show L.Good s _
    split
    · exact good_nil
    · exact good_list none hvs
  dsimp only
  split
  · exact hlist [] fun w hw ↦ by simp at hw
  · refine hlist _ fun w hw ↦ ?_
    obtain ⟨c, -, rfl⟩ := List.mem_map.1 hw
    exact good_str _
  · exact .bind yields_items fun vs hvs ↦ hlist vs ((hargs v hv).bare.items hvs)

end

/-! ## Maps -/

/-- Good keys and good values make a good map. -/
theorem yields_extend {d : Dict Key Value}
    (hd : ∀ e ∈ d.entries, L.Good s (.ofKey e.1) ∧ L.Good s e.2)
    (hargs : ∀ v ∈ args, L.Good s v) : L.Yields s (L.Good s) (Table.extend op d args) := by
  rw [Table.extend]
  split
  · exact yields_refuse _
  · rename_i pairs hpairs
    have hkeyed : L.Yields s
        (fun keyed ↦ ∀ e ∈ keyed, L.Good s (.ofKey e.1) ∧ L.Good s e.2)
        (pairs.mapM fun p ↦ return (← key op p.1, p.2)) := by
      refine .mapM fun p hp ↦ .bind yields_key fun k hk ↦ ?_
      obtain ⟨h₁, h₂⟩ := mem_of_mem_pairs? hpairs hp
      exact ⟨Value.All.key (hargs p.1 h₁) hk, hargs p.2 h₂⟩
    refine .bind hkeyed fun keyed hkeyed ↦ good_map none fun e he ↦ ?_
    rcases Dict.mem_entries_insertAll he with he | he
    · exact hkeyed e he
    · exact hd e he

section

variable (hargs : ∀ v ∈ args, L.Good s v)
include hargs

theorem yields_hashMap : L.Yields s (L.Good s) (Table.hashMap args) :=
  yields_extend (fun e he ↦ by simp [Dict.empty] at he) hargs

theorem yields_get : L.Yields s (L.Good s) (Table.get args) := by
  refine .bind yields_two fun p hp ↦ ?_
  split
  · exact good_nil
  · rename_i m k _
    refine .bind yields_entries fun d ⟨l, hd⟩ ↦ ?_
    have hentries : ∀ e ∈ d.entries, L.Good s (.ofKey e.1) ∧ L.Good s e.2 :=
      (hargs m hp.1).entry hd
    cases hv : k.key?.bind d.get? with
    | none => exact good_nil
    | some v =>
      obtain ⟨key, -, hv⟩ := Option.bind_eq_some_iff.1 hv
      exact (hentries _ (Dict.mem_entries_of_get? hv)).2

theorem yields_assoc : L.Yields s (L.Good s) (Table.assoc args) := by
  rw [Table.assoc.eq_def]
  split
  · exact yields_refuse _
  · obtain ⟨hm, hrest⟩ := List.forall_mem_cons.1 hargs
    exact .bind yields_entries fun d ⟨_, hd⟩ ↦ yields_extend (hm.entry hd) hrest

theorem yields_dissoc : L.Yields s (L.Good s) (Table.dissoc args) := by
  rw [Table.dissoc.eq_def]
  split
  · exact yields_refuse _
  · rename_i m ks
    obtain ⟨hm, -⟩ := List.forall_mem_cons.1 hargs
    refine .bind yields_entries fun d ⟨l, hd⟩ ↦ good_map none fun e he ↦ ?_
    exact hm.entry hd e (Dict.mem_entries_eraseAll he)

theorem yields_keys : L.Yields s (L.Good s) (Table.keys args) := by
  refine .bind yields_one fun v hv ↦ .bind yields_entries fun d ⟨l, hd⟩ ↦ ?_
  refine good_list none fun w hw ↦ ?_
  obtain ⟨k, hk, rfl⟩ := List.mem_map.1 hw
  obtain ⟨e, he, rfl⟩ := List.mem_map.1 hk
  exact ((hargs v hv).entry hd e he).1

theorem yields_vals : L.Yields s (L.Good s) (Table.vals args) := by
  refine .bind yields_one fun v hv ↦ .bind yields_entries fun d ⟨l, hd⟩ ↦ ?_
  refine good_list none fun w hw ↦ ?_
  obtain ⟨e, he, rfl⟩ := List.mem_map.1 hw
  exact ((hargs v hv).entry hd e he).2

end

theorem yields_contains : L.Yields s (L.Good s) (Table.contains args) :=
  .bind yields_two fun _ _ ↦ .bind yields_entries fun _ _ ↦ good_bool _

end Lisplet.Law
