import Lisplet.Proofs.Equality
import Lisplet.Proofs.Exposure

/-!
# Values that are alike

Two values are *alike* (`Value.Alike`) if they have one canonical form and are made as the language
makes values (`Value.IsMade`).  Among such values being alike is being equal.

All that follows from it follows from one case analysis (`Value.Alike.matched`).  Values that are
alike are both sequences of values that are alike, or both maps that have such values under the same
keys, or are one and the same as long as one looks under their metadata; functions alone may differ,
in what does not show.  So maps that are alike stay alike through assignments and erasures, and of
values that are alike both can be printed or none: they hold the same atoms, and it is atoms that
may lead back to themselves (`Value.Alike.prints_iff`).
-/

set_option autoImplicit false

namespace Lisplet

namespace Value

/-- A sequence is a list or a vector, under its metadata. -/
theorem bare_of_items? {v : Value} {vs : List Value} (h : v.items? = some vs) :
    (∃ l, v.bare = list l vs) ∨ v.bare = vec vs := by
  rw [items?] at h
  split at h
  · rename_i l items hbare
    obtain rfl := Option.some.inj h
    exact .inl ⟨l, hbare⟩
  · rename_i items hbare
    obtain rfl := Option.some.inj h
    exact .inr hbare
  · cases h

/-! ## Alike values -/

/-- A value is as the language makes it, apart from what is inside it: the keys of a map are
distinct, and metadata is on a collection or a function.  Which numbers stand for macros and which
for other functions is given, since no two functions share a number. -/
def IsMade (macros : Nat → Bool) : Value → Prop
  | map _ d => d.keys.Nodup
  | fn c => c.isMacro = macros c.serial
  | withMeta v _ => Builtin.Kind.takesMetadata v = true
  | _ => True

variable {macros : Nat → Bool} {v w : Value} {xs ys : List Value} {l l' : Option Label}
  {d d' : Dict Key Value}

theorem IsMade.hasDistinctKeys (h : v.IsMade macros) : v.HasDistinctKeys := by
  cases v with
  | map l d => exact h
  | _ => trivial

theorem all_hasDistinctKeys (h : v.All (IsMade macros)) : v.All HasDistinctKeys :=
  h.mono fun _ ↦ IsMade.hasDistinctKeys

/-- What is under metadata could take some. -/
theorem takesMetadata_bare_of_ne (hv : v.All (IsMade macros)) (hne : v.bare ≠ v) :
    Builtin.Kind.takesMetadata v.bare = true := by
  cases v with
  | withMeta u data =>
    have hu : Builtin.Kind.takesMetadata u = true := hv.here
    cases u with
    | withMeta => cases hu
    | _ => exact hu
  | _ => exact absurd rfl hne

/-- The two values are made as the language makes them, and have one canonical form. -/
structure Alike (macros : Nat → Bool) (v w : Value) : Prop where
  left : v.All (IsMade macros)
  right : w.All (IsMade macros)
  canonical : v.canonical = w.canonical

/-- How two values are alike. -/
inductive Matched (macros : Nat → Bool) (v w : Value) : Prop
  /-- Under metadata they are the same, and no collection. -/
  | leaf (hbare : v.bare = w.bare) (hitems : v.items? = none) (hmap : ∀ l d, v.bare ≠ map l d)
  | seq {xs ys : List Value} (hv : v.items? = some xs) (hw : w.items? = some ys)
    (h : List.Forall₂ (Alike macros) xs ys)
  | map {l l' : Option Label} {d d' : Dict Key Value} (hv : v.bare = .map l d)
    (hw : w.bare = .map l' d') (h : Alike macros (.map none d) (.map none d'))
  | fn {c c' : Closure Value} (hv : v.bare = .fn c) (hw : w.bare = .fn c')
    (hserial : c.serial = c'.serial) (hflag : c.isMacro = c'.isMacro)

theorem canonical_map_eq_iff : (map l d).canonical = (map l' d').canonical ↔
    ∀ k, (d.get? k).map Value.canonical = (d'.get? k).map Value.canonical := by
  rw [canonical_of_map (v := map l d) rfl, canonical_of_map (v := map l' d') rfl,
    Canonical.map.injEq, funext_iff]

namespace Alike

theorem refl (h : v.All (IsMade macros)) : Alike macros v v := ⟨h, h, rfl⟩

theorem symm (h : Alike macros v w) : Alike macros w v := ⟨h.right, h.left, h.canonical.symm⟩

theorem trans {u : Value} (huv : Alike macros u v) (hvw : Alike macros v w) : Alike macros u w :=
  ⟨huv.left, hvw.right, huv.canonical.trans hvw.canonical⟩

theorem of_equal (hv : v.All (IsMade macros)) (hw : w.All (IsMade macros)) (h : v.Equal w) :
    Alike macros v w :=
  ⟨hv, hw, (equal_iff (all_hasDistinctKeys hv) (all_hasDistinctKeys hw)).1 h⟩

theorem equal (h : Alike macros v w) : v.Equal w :=
  (equal_iff (all_hasDistinctKeys h.left) (all_hasDistinctKeys h.right)).2 h.canonical

theorem bare (h : Alike macros v w) : Alike macros v.bare w.bare :=
  ⟨h.left.bare, h.right.bare, by rw [canonical_bare, canonical_bare, h.canonical]⟩

/-- Sequences are alike if their elements are. -/
theorem of_items? (h : List.Forall₂ (Alike macros) xs ys) (hv : v.items? = some xs)
    (hw : w.items? = some ys) (hvmade : v.All (IsMade macros)) (hwmade : w.All (IsMade macros)) :
    Alike macros v w := by
  refine ⟨hvmade, hwmade, ?_⟩
  rw [canonical_of_items? hv, canonical_of_items? hw,
    map_canonical_eq_iff.2 (h.imp fun _ _ ↦ Alike.canonical)]

theorem all_left (h : List.Forall₂ (Alike macros) xs ys) : ∀ x ∈ xs, x.All (IsMade macros) := by
  induction h with
  | nil => simp
  | cons hxy _ ih => exact List.forall_mem_cons.2 ⟨hxy.left, ih⟩

theorem all_right (h : List.Forall₂ (Alike macros) xs ys) : ∀ y ∈ ys, y.All (IsMade macros) := by
  induction h with
  | nil => simp
  | cons hxy _ ih => exact List.forall_mem_cons.2 ⟨hxy.right, ih⟩

theorem list (h : List.Forall₂ (Alike macros) xs ys) : Alike macros (.list l xs) (.list l' ys) :=
  of_items? h rfl rfl (.list trivial (all_left h)) (.list trivial (all_right h))

theorem vec (h : List.Forall₂ (Alike macros) xs ys) : Alike macros (.vec xs) (.vec ys) :=
  of_items? h rfl rfl (.vec trivial (all_left h)) (.vec trivial (all_right h))

/-- The elements of sequences that are alike are alike. -/
theorem items (h : Alike macros v w) (hv : v.items? = some xs) (hw : w.items? = some ys) :
    List.Forall₂ (Alike macros) xs ys := by
  have hxy : xs.map Value.canonical = ys.map Value.canonical := by
    have hcanonical := h.canonical
    rwa [canonical_of_items? hv, canonical_of_items? hw, Canonical.seq.injEq] at hcanonical
  rw [map_canonical_eq_iff, List.forall₂_iff_zip] at hxy
  rw [List.forall₂_iff_zip]
  refine ⟨hxy.1, fun hp ↦ ?_⟩
  obtain ⟨hx, hy⟩ := List.of_mem_zip hp
  exact ⟨h.left.items hv hx, h.right.items hw hy, hxy.2 hp⟩

/-- **What it is for values to be alike.** -/
theorem matched (h : Alike macros v w) : Matched macros v w := by
  have hv := v.bare_ne_withMeta
  have hw := w.bare_ne_withMeta
  have hbare := h.bare
  cases hvb : v.bare with
  | list l xs | vec xs =>
    have hxs : v.items? = some xs := by rw [items?, hvb]
    obtain ⟨ys, hys, -⟩ := items?_of_canonical (h.canonical.symm.trans (canonical_of_items? hxs))
    exact .seq hxs hys (h.items hxs hys)
  | map l d =>
    obtain ⟨l', d', hwb, -⟩ := map_of_canonical (h.canonical.symm.trans (canonical_of_map hvb))
    rw [hvb, hwb] at hbare
    have hcanonical := canonical_map_eq_iff.1 hbare.canonical
    refine .map hvb hwb ⟨.map hbare.left.here fun _ ↦ hbare.left.entry,
      .map hbare.right.here fun _ ↦ hbare.right.entry, canonical_map_eq_iff.2 hcanonical⟩
  | fn c =>
    cases hwb : w.bare with
    | fn c' =>
      rw [hvb, hwb] at hbare
      have hserial : c.serial = c'.serial := by simpa [Value.canonical] using hbare.canonical
      have hflag : c.isMacro = macros c.serial := hbare.left.here
      have hflag' : c'.isMacro = macros c'.serial := hbare.right.here
      exact .fn hvb hwb hserial (by rw [hflag, hflag', hserial])
    | withMeta u data => exact absurd hwb (hw u data)
    | _ => simpa [hvb, hwb, Value.canonical] using hbare.canonical
  | withMeta u data => exact absurd hvb (hv u data)
  | _ =>
    have hwb : w.bare = v.bare := by
      rw [hvb]
      cases hwb : w.bare with
      | withMeta u data => exact absurd hwb (hw u data)
      | _ =>
        have hcanonical := hbare.canonical
        simp_all [Value.canonical]
    exact .leaf hwb.symm (by rw [items?, hvb]) (by simp [hvb])

/-- Of values that are alike both are sequences, with elements that are alike, or none is. -/
theorem rel_items? (h : Alike macros v w) :
    Option.Rel (List.Forall₂ (Alike macros)) v.items? w.items? := by
  cases h.matched with
  | leaf hbare hitems _ =>
    rw [← w.items?_bare, ← hbare, v.items?_bare, hitems]
    exact .none
  | seq hv hw hxy =>
    rw [hv, hw]
    exact .some hxy
  | map hv hw _ =>
    rw [← v.items?_bare, ← w.items?_bare, hv, hw]
    exact .none
  | fn hv hw _ _ =>
    rw [← v.items?_bare, ← w.items?_bare, hv, hw]
    exact .none

/-- A value that cannot take metadata is alike to nothing but itself. -/
theorem eq_of_bare_eq (h : Alike macros v w) (hvb : v.bare = v)
    (hv : Builtin.Kind.takesMetadata v = false) : w = v := by
  have hbare : w.bare = v := by
    cases h.matched with
    | leaf hbare _ _ => rw [← hbare, hvb]
    | seq hxs _ _ =>
      rw [items?, hvb] at hxs
      cases v <;> cases hxs <;> cases hv
    | map hb _ _ | fn hb _ _ _ =>
      rw [hvb] at hb
      rw [hb] at hv
      cases hv
  by_contra hne
  have htakes := takesMetadata_bare_of_ne h.right fun hwb ↦ hne (hwb.symm.trans hbare)
  rw [hbare, hv] at htakes
  cases htakes

theorem eq_nil_iff (h : Alike macros v w) : v = nil ↔ w = nil :=
  ⟨fun hv ↦ (h.eq_of_bare_eq (by rw [hv]; rfl) (by rw [hv]; rfl)).trans hv,
    fun hw ↦ (h.symm.eq_of_bare_eq (by rw [hw]; rfl) (by rw [hw]; rfl)).trans hw⟩

theorem key?_eq (h : Alike macros v w) : v.key? = w.key? := by
  have hnone {u : Value} {zs : List Value} (hu : u.items? = some zs) : u.key? = none := by
    rw [items?] at hu
    split at hu
    · rename_i heq; rw [key?, heq]
    · rename_i heq; rw [key?, heq]
    · cases hu
  cases h.matched with
  | leaf hbare _ _ => rw [← v.key?_bare, hbare, w.key?_bare]
  | seq hv hw _ => rw [hnone hv, hnone hw]
  | map hv hw _ => rw [key?, key?, hv, hw]
  | fn hv hw _ _ => rw [key?, key?, hv, hw]

/-! ### Maps -/

/-- A key has values that are alike in maps that are alike, or none in either. -/
theorem rel_get? (h : Alike macros (.map l d) (.map l' d')) (k : Key) :
    Option.Rel (Alike macros) (d.get? k) (d'.get? k) := by
  have hk := canonical_map_eq_iff.1 h.canonical k
  cases hu : d.get? k with
  | none =>
    rw [hu, Option.map_none] at hk
    rw [Option.map_eq_none_iff.1 hk.symm]
    exact .none
  | some u =>
    rw [hu, Option.map_some] at hk
    obtain ⟨u', hu', hcanonical⟩ := Option.map_eq_some_iff.1 hk.symm
    rw [hu']
    exact .some ⟨(h.left.entry (Dict.mem_entries_of_get? hu)).2,
      (h.right.entry (Dict.mem_entries_of_get? hu')).2, hcanonical.symm⟩

/-- Each entry of a map has its counterpart in a map that is alike. -/
theorem exists_entry (h : Alike macros (.map l d) (.map l' d')) {e : Key × Value}
    (he : e ∈ d.entries) : ∃ u, (e.1, u) ∈ d'.entries ∧ Alike macros e.2 u := by
  have hget := h.rel_get? e.1
  rw [Dict.get?_of_mem_entries (v := e.2) h.left.here he] at hget
  cases hu : d'.get? e.1 with
  | none => rw [hu] at hget; cases hget
  | some u =>
    rw [hu] at hget
    obtain ⟨halike⟩ := hget
    exact ⟨u, Dict.mem_entries_of_get? hu, halike⟩

theorem contains (h : Alike macros (.map l d) (.map l' d')) : d.contains = d'.contains := by
  funext k
  have hk := congrArg Option.isSome (canonical_map_eq_iff.1 h.canonical k)
  rwa [Option.isSome_map, Option.isSome_map] at hk

theorem relabel (h : Alike macros (.map l d) (.map l' d')) (m m' : Option Label) :
    Alike macros (.map m d) (.map m' d') :=
  ⟨.map h.left.here fun _ ↦ h.left.entry, .map h.right.here fun _ ↦ h.right.entry,
    canonical_map_eq_iff.2 (canonical_map_eq_iff.1 h.canonical)⟩

theorem empty : Alike macros (.map l .empty) (.map l' .empty) := by
  have hempty (m : Option Label) : (Value.map m .empty).All (IsMade macros) :=
    .map List.nodup_nil fun e he ↦ absurd he List.not_mem_nil
  exact ⟨hempty l, hempty l', canonical_map_eq_iff.2 fun _ ↦ rfl⟩

theorem all_insert {k : Key} {u : Value} (hd : (Value.map l d).All (IsMade macros))
    (hu : u.All (IsMade macros)) : (Value.map l (d.insert k u)).All (IsMade macros) := by
  refine .map (Dict.nodup_keys_insert hd.here k u) fun e he ↦ ?_
  rcases Dict.mem_entries_insert he with rfl | he
  · exact ⟨by cases k <;> exact .of_parts_eq_nil trivial rfl, hu⟩
  · exact hd.entry he

theorem insert (h : Alike macros (.map l d) (.map l' d')) (k : Key) {u u' : Value}
    (hu : Alike macros u u') : Alike macros (.map l (d.insert k u)) (.map l' (d'.insert k u')) := by
  refine ⟨all_insert h.left hu.left, all_insert h.right hu.right,
    canonical_map_eq_iff.2 fun k' ↦ ?_⟩
  rw [Dict.get?_insert, Dict.get?_insert]
  split
  · rw [Option.map_some, Option.map_some, hu.canonical]
  · exact canonical_map_eq_iff.1 h.canonical k'

/-- Assigning values that are alike to the same keys keeps maps alike. -/
theorem insertAll {ps qs : List (Key × Value)} (h : Alike macros (.map l d) (.map l' d'))
    (hpq : List.Forall₂ (fun p q ↦ p.1 = q.1 ∧ Alike macros p.2 q.2) ps qs) :
    Alike macros (.map l (d.insertAll ps)) (.map l' (d'.insertAll qs)) := by
  induction hpq generalizing d d' with
  | nil => exact h
  | @cons p q ps qs hpq _ ih =>
    rw [Dict.insertAll, Dict.insertAll, List.foldl_cons, List.foldl_cons, hpq.1]
    exact ih (h.insert q.1 hpq.2)

theorem eraseAll (h : Alike macros (.map l d) (.map l' d')) (ks : List Key) :
    Alike macros (.map l (ks.foldl Dict.erase d)) (.map l' (ks.foldl Dict.erase d')) := by
  induction ks generalizing d d' with
  | nil => exact h
  | cons k ks ih =>
    have herase {m : Option Label} {e : Dict Key Value} (he : (Value.map m e).All (IsMade macros)) :
        (Value.map m (e.erase k)).All (IsMade macros) :=
      .map (Dict.nodup_keys_erase he.here k) fun p hp ↦ he.entry (List.mem_filter.1 hp).1
    refine ih ⟨herase h.left, herase h.right, canonical_map_eq_iff.2 fun k' ↦ ?_⟩
    by_cases hk : k' = k
    · rw [hk, Dict.get?_erase_self, Dict.get?_erase_self]
    · rw [Dict.get?_erase_of_ne hk, Dict.get?_erase_of_ne hk]
      exact canonical_map_eq_iff.1 h.canonical k'

/-! ### Printing -/

/-- **Of values that are alike, both can be printed or none.** -/
theorem prints_iff {heap : Heap} {v w : Value} (h : Alike macros v w) :
    v.Prints heap ↔ w.Prints heap := by
  cases h.matched with
  | leaf hbare _ _ => rw [← prints_bare v, hbare, prints_bare w]
  | @seq xs ys hv hw hxy =>
    rw [prints_of_items? hv, prints_of_items? hw]
    have hiff : List.Forall₂ (fun x y ↦ x.Prints heap ↔ y.Prints heap) xs ys := by
      rw [List.forall₂_iff_zip] at hxy ⊢
      refine ⟨hxy.1, fun {x y} hp ↦ ?_⟩
      have hlt : sizeOf x < sizeOf v :=
        Nat.lt_of_lt_of_le (List.sizeOf_lt_of_mem (List.of_mem_zip hp).1)
          (Nat.le_of_lt (sizeOf_lt_of_items? hv))
      exact prints_iff (hxy.2 hp)
    clear hv hw hxy
    induction hiff with
    | nil => simp
    | cons hxy _ ih =>
      rw [List.forall_mem_cons, List.forall_mem_cons]
      exact and_congr hxy ih
  | @map l l' d d' hv hw hd =>
    have hlt {e : Key × Value} (he : e ∈ d.entries) : sizeOf e.2 < sizeOf v := by
      have hle := v.sizeOf_bare_le
      have hlt := sizeOf_lt_of_mem_entries he
      rw [hv, map.sizeOf_spec] at hle
      omega
    rw [prints_of_map hv, prints_of_map hw]
    constructor
    · intro hall e he
      obtain ⟨u, hu, halike⟩ := hd.symm.exists_entry he
      have := hlt hu
      exact (prints_iff halike.symm).1 (hall _ hu)
    · intro hall e he
      obtain ⟨u, hu, halike⟩ := hd.exists_entry he
      have := hlt he
      exact (prints_iff halike).2 (hall _ hu)
  | fn hv hw _ _ =>
    rw [← prints_bare v, ← prints_bare w, hv, hw]
    exact iff_of_true ⟨1, rfl⟩ ⟨1, rfl⟩
termination_by sizeOf v

end Alike

end Value

end Lisplet
