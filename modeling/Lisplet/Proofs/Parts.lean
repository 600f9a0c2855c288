import Lisplet.Value

/-!
# What values hold

A value can hold others: a collection its elements, a closure its parameters and its body, a wrapper
the value under it and the metadata.  `Value.parts` lists what a value holds directly, and
`Value.All p` says that `p` is true of a value and of everything inside it, however deep.  The
content of an atom is not inside the atom: it is in the store, and can change.

Nearly every operation of the language takes values apart or puts values together, so what is needed
of `All` is how it goes through the views of a value (`bare`, `items?`, `key?`) and through
dictionaries.
-/

set_option autoImplicit false

namespace Lisplet

/-! ## Entries of a dictionary -/

namespace Dict

variable {κ α : Type} [DecidableEq κ]

/-- What an assignment leaves in a dictionary was there or was assigned. -/
theorem mem_entries_insert {d : Dict κ α} {k : κ} {v : α} {e : κ × α}
    (h : e ∈ (d.insert k v).entries) : e = (k, v) ∨ e ∈ d.entries := by
  rw [insert] at h
  split at h
  · obtain ⟨e', he', rfl⟩ := List.mem_map.1 h
    split
    · exact .inl rfl
    · exact .inr he'
  · rcases List.mem_append.1 h with h | h
    · exact .inr h
    · exact .inl (List.mem_singleton.1 h)

theorem mem_entries_insertAll {d : Dict κ α} {pairs : List (κ × α)} {e : κ × α}
    (h : e ∈ (d.insertAll pairs).entries) : e ∈ pairs ∨ e ∈ d.entries := by
  induction pairs generalizing d with
  | nil => exact .inr h
  | cons p pairs ih =>
    rcases ih h with h | h
    · exact .inl (List.mem_cons_of_mem _ h)
    · rcases mem_entries_insert h with rfl | h
      · exact .inl List.mem_cons_self
      · exact .inr h

theorem mem_of_mem_entries_ofList {pairs : List (κ × α)} {e : κ × α}
    (h : e ∈ (ofList pairs).entries) : e ∈ pairs :=
  (mem_entries_insertAll h).resolve_right List.not_mem_nil

theorem nodup_keys_insertAll {d : Dict κ α} (hd : d.keys.Nodup) (pairs : List (κ × α)) :
    (d.insertAll pairs).keys.Nodup := by
  induction pairs generalizing d with
  | nil => exact hd
  | cons p pairs ih => exact ih (nodup_keys_insert hd p.1 p.2)

theorem nodup_keys_ofList (pairs : List (κ × α)) : (ofList pairs).keys.Nodup :=
  nodup_keys_insertAll (by simp [keys, empty]) pairs

theorem insertAll_of_nodup {d : Dict κ α} {pairs : List (κ × α)}
    (h : (d.keys ++ pairs.map Prod.fst).Nodup) : d.insertAll pairs = ⟨d.entries ++ pairs⟩ := by
  induction pairs generalizing d with
  | nil =>
    rw [List.append_nil]
    rfl
  | cons p pairs ih =>
    have hp : p.1 ∉ d.keys := fun hp ↦
      (List.nodup_append.1 h).2.2 _ hp _ List.mem_cons_self rfl
    have hinsert : d.insert p.1 p.2 = ⟨d.entries ++ [p]⟩ := by
      rw [insert, if_neg (mt contains_eq_true_iff.1 hp)]
    rw [insertAll, List.foldl_cons, ← insertAll, hinsert, ih, List.append_assoc,
      List.singleton_append]
    simpa [keys] using h

/-- Pairs of which no two have one key are the entries of the dictionary that they make. -/
theorem ofList_of_nodup {pairs : List (κ × α)} (h : (pairs.map Prod.fst).Nodup) :
    ofList pairs = ⟨pairs⟩ :=
  insertAll_of_nodup (d := empty) h

/-- After many assignments a key has the value that it was given last. -/
theorem get?_insertAll (d : Dict κ α) (pairs : List (κ × α)) (k : κ) :
    (d.insertAll pairs).get? k = (pairs.reverse.lookup k).or (d.get? k) := by
  induction pairs generalizing d with
  | nil => rfl
  | cons p pairs ih =>
    obtain ⟨k', v⟩ := p
    have hcons : d.insertAll ((k', v) :: pairs) = (d.insert k' v).insertAll pairs := rfl
    rw [hcons, ih, get?_insert, List.reverse_cons, List.lookup_append, Option.or_assoc]
    by_cases hk : k = k'
    · simp [hk]
    · have hb : (k == k') = false := beq_false_of_ne hk
      simp [hk, hb, List.lookup_cons]

theorem get?_ofList (pairs : List (κ × α)) (k : κ) :
    (ofList pairs).get? k = pairs.reverse.lookup k := by
  rw [ofList, get?_insertAll, get?_empty, Option.or_none]

/-- The keys of a dictionary of pairs are those that stand in a pair. -/
theorem mem_keys_ofList {pairs : List (κ × α)} {k : κ} :
    k ∈ (ofList pairs).keys ↔ k ∈ pairs.map Prod.fst := by
  rw [← contains_eq_true_iff, contains, get?_ofList, List.lookup_isSome_iff, List.mem_map]
  refine exists_congr fun e ↦ and_congr List.mem_reverse ?_
  rw [beq_iff_eq, eq_comm]

/-- The last pair that has a key is the one that counts. -/
theorem get?_ofList_append {before after : List (κ × α)} {k : κ} (v : α)
    (h : k ∉ after.map Prod.fst) : (ofList (before ++ (k, v) :: after)).get? k = some v := by
  have hnone : after.reverse.lookup k = none := by
    rw [← Option.not_isSome_iff_eq_none, List.lookup_isSome_iff]
    rintro ⟨e, he, hk⟩
    exact h (beq_iff_eq.1 hk ▸ List.mem_map_of_mem (List.mem_reverse.1 he))
  rw [get?_ofList, List.reverse_append, List.reverse_cons, List.append_assoc, List.lookup_append,
    hnone, Option.none_or, List.singleton_append, List.lookup_cons_self]

theorem mem_entries_eraseAll {d : Dict κ α} {ks : List κ} {e : κ × α}
    (h : e ∈ (ks.foldl erase d).entries) : e ∈ d.entries := by
  induction ks generalizing d with
  | nil => exact h
  | cons k ks ih => exact (List.mem_filter.1 (ih h)).1

/-- What stands in a dictionary in which no key stands twice is the value of its key. -/
theorem get?_of_mem_entries {d : Dict κ α} {k : κ} {v : α} (hd : d.keys.Nodup)
    (h : (k, v) ∈ d.entries) : d.get? k = some v := by
  obtain ⟨es⟩ := d
  induction es with
  | nil => cases h
  | cons e es ih =>
    obtain ⟨hnot, hes⟩ := List.nodup_cons.1 hd
    rw [get?, List.lookup_cons]
    rcases List.mem_cons.1 h with rfl | htail
    · rw [beq_self_eq_true]
    · have hne : (k == e.1) = false :=
        beq_false_of_ne fun heq ↦ hnot (heq ▸ List.mem_map_of_mem (f := Prod.fst) htail)
      rw [hne]
      exact ih hes htail

theorem mem_entries_of_get? {d : Dict κ α} {k : κ} {v : α} (h : d.get? k = some v) :
    (k, v) ∈ d.entries := by
  obtain ⟨es⟩ := d
  rw [get?] at h
  induction es with
  | nil => simp at h
  | cons e es ih =>
    rw [List.lookup_cons] at h
    split at h
    · rename_i hk
      obtain rfl := beq_iff_eq.1 hk
      obtain rfl := Option.some.inj h
      exact List.mem_cons_self
    · exact List.mem_cons_of_mem _ (ih h)

end Dict

/-! ## Parts -/

/-- The names that a function gives to its arguments. -/
def Params.names (p : Params) : List String := p.formals ++ p.rest.toList

namespace Value

/-- A value is a symbol or is none. -/
theorem sym_or_ne (v : Value) : (∃ name, v = sym name) ∨ ∀ name, v ≠ sym name := by
  cases v with
  | sym name => exact .inl ⟨name, rfl⟩
  | _ => exact .inr fun _ ↦ Value.noConfusion

/-- The values that a value holds directly. -/
def parts : Value → List Value
  | list _ items | vec items => items
  | map _ d => d.entries.flatMap fun e ↦ [ofKey e.1, e.2]
  | fn c => c.body :: c.params.names.map sym
  | withMeta v data => [v, data]
  | _ => []

/-- A property of a value and of everything inside it. -/
inductive All (p : Value → Prop) : Value → Prop
  | intro {v : Value} (here : p v) (inside : ∀ w ∈ v.parts, All p w) : All p v

variable {p q : Value → Prop} {v w : Value}

namespace All

theorem here (h : v.All p) : p v := by
  obtain ⟨h, -⟩ := h
  exact h

theorem inside (h : v.All p) (hw : w ∈ v.parts) : w.All p := by
  obtain ⟨-, h⟩ := h
  exact h w hw

theorem mono (hpq : ∀ v, p v → q v) (h : v.All p) : v.All q := by
  induction h with
  | intro here _ ih => exact .intro (hpq _ here) ih

/-- A value that holds nothing has to have the property itself. -/
theorem of_parts_eq_nil (hp : p v) (h : v.parts = []) : v.All p :=
  .intro hp fun w hw ↦ by simp [h] at hw

/-! ### Putting values together -/

theorem list {l : Option Label} {vs : List Value} (hp : p (.list l vs)) (h : ∀ v ∈ vs, v.All p) :
    (Value.list l vs).All p :=
  .intro hp h

theorem vec {vs : List Value} (hp : p (.vec vs)) (h : ∀ v ∈ vs, v.All p) :
    (Value.vec vs).All p :=
  .intro hp h

theorem map {l : Option Label} {d : Dict Key Value} (hp : p (.map l d))
    (h : ∀ e ∈ d.entries, (ofKey e.1).All p ∧ e.2.All p) : (Value.map l d).All p := by
  refine .intro hp fun w hw ↦ ?_
  obtain ⟨e, he, hw⟩ := List.mem_flatMap.1 hw
  rcases List.mem_cons.1 hw with rfl | hw
  · exact (h e he).1
  · exact List.mem_singleton.1 hw ▸ (h e he).2

theorem withMeta {data : Value} (hp : p (.withMeta v data)) (hv : v.All p) (hd : data.All p) :
    (Value.withMeta v data).All p := by
  refine .intro hp fun w hw ↦ ?_
  rcases List.mem_cons.1 hw with rfl | hw
  · exact hv
  · exact List.mem_singleton.1 hw ▸ hd

/-! ### Taking values apart -/

theorem bare (h : v.All p) : v.bare.All p := by
  fun_induction Value.bare v with
  | case1 v data ih => exact ih (h.inside List.mem_cons_self)
  | case2 v _ => exact h

theorem items {vs : List Value} (h : v.All p) (hv : v.items? = some vs) (hw : w ∈ vs) :
    w.All p := by
  rw [items?] at hv
  split at hv
  · rename_i heq
    obtain rfl := Option.some.inj hv
    exact (heq ▸ h.bare).inside hw
  · rename_i heq
    obtain rfl := Option.some.inj hv
    exact (heq ▸ h.bare).inside hw
  · simp at hv

theorem entry {l : Option Label} {d : Dict Key Value} {e : Key × Value}
    (h : (Value.map l d).All p) (he : e ∈ d.entries) : (ofKey e.1).All p ∧ e.2.All p := by
  constructor
  · exact h.inside (List.mem_flatMap.2 ⟨e, he, List.mem_cons_self⟩)
  · exact h.inside (List.mem_flatMap.2 ⟨e, he, List.mem_cons_of_mem _ List.mem_cons_self⟩)

theorem body {c : Closure Value} (h : (Value.fn c).All p) : c.body.All p :=
  h.inside List.mem_cons_self

theorem key {k : Key} (h : v.All p) (hk : v.key? = some k) : (ofKey k).All p := by
  rw [key?] at hk
  split at hk
  · rename_i heq
    obtain rfl := Option.some.inj hk
    have hb := h.bare
    rwa [heq] at hb
  · rename_i heq
    obtain rfl := Option.some.inj hk
    have hb := h.bare
    rwa [heq] at hb
  · simp at hk

end All

/-! ### Properties of all values -/

theorem sizeOf_lt_of_mem_entries {d : Dict Key Value} {e : Key × Value} (h : e ∈ d.entries) :
    sizeOf e.2 < sizeOf d := by
  have he : sizeOf e < sizeOf d.entries := List.sizeOf_lt_of_mem h
  obtain ⟨k, v⟩ := e
  obtain ⟨es⟩ := d
  simp only [Prod.mk.sizeOf_spec, Dict.mk.sizeOf_spec] at he ⊢
  omega

theorem sizeOf_body_lt (c : Closure Value) : sizeOf c.body < sizeOf c := by
  obtain ⟨serial, params, body, scope, isMacro⟩ := c
  simp only [Closure.mk.sizeOf_spec]
  omega

/-- What is true of every value is true of everything inside a value. -/
theorem all_of_forall (hp : ∀ v, p v) (v : Value) : v.All p := by
  cases v with
  | nil | bool | int | str | sym | kw | builtin | atom => exact .of_parts_eq_nil (hp _) rfl
  | list _ items => exact .list (hp _) fun w _ ↦ all_of_forall hp w
  | vec items => exact .vec (hp _) fun w _ ↦ all_of_forall hp w
  | map _ d =>
    refine .map (hp _) fun e _ ↦ ⟨?_, all_of_forall hp e.2⟩
    cases e.1 <;> exact .of_parts_eq_nil (hp _) rfl
  | fn c =>
    refine .intro (hp _) fun w hw ↦ ?_
    rcases List.mem_cons.1 hw with hw | hw
    · exact hw ▸ all_of_forall hp c.body
    · obtain ⟨name, -, rfl⟩ := List.mem_map.1 hw
      exact .of_parts_eq_nil (hp _) rfl
  | withMeta v data => exact .withMeta (hp _) (all_of_forall hp v) (all_of_forall hp data)
termination_by sizeOf v
decreasing_by
  · have hlt := List.sizeOf_lt_of_mem ‹w ∈ items›
    simp only [list.sizeOf_spec]
    omega
  · have hlt := List.sizeOf_lt_of_mem ‹w ∈ items›
    simp only [vec.sizeOf_spec]
    omega
  · have hlt := sizeOf_lt_of_mem_entries ‹e ∈ d.entries›
    simp only [map.sizeOf_spec]
    omega
  · have hlt := sizeOf_body_lt c
    simp only [fn.sizeOf_spec]
    omega
  all_goals
    simp only [withMeta.sizeOf_spec]
    omega

end Value

end Lisplet
