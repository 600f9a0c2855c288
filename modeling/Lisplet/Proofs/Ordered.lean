import Lisplet.Proofs.Equality

/-!
# Finite maps in insertion order

What a map of the language is meant to be: a list of entries of which no two have one key
(`Ordered`).  An assignment looks for its key from the front; it replaces the value where the key
stands, and appends an entry where the list ends.  A deletion takes out the one entry of its key.

Dictionaries, which are what maps of the language hold, do the same on whole lists: an assignment
maps over the entries or appends to them, and an erasure filters them.  On entries with distinct
keys it comes to the same (`Ordered.toDict_assign`, `Ordered.toDict_delete`).
-/

set_option autoImplicit false

namespace Lisplet

variable {κ α : Type}

/-- **A finite map in insertion order**: entries, first assigned first, with distinct keys. -/
structure Ordered (κ α : Type) where
  entries : List (κ × α)
  nodup : (entries.map Prod.fst).Nodup

namespace Ordered

/-! ## Entries -/

section

variable [DecidableEq κ] {k : κ} {v : α} {es : List (κ × α)}

/-- The entries after an assignment: at the place of the key, or at the end. -/
def assigned (k : κ) (v : α) : List (κ × α) → List (κ × α)
  | [] => [(k, v)]
  | e :: es => if e.1 = k then (k, v) :: es else e :: assigned k v es

/-- The entries without that of a key. -/
def deleted (k : κ) : List (κ × α) → List (κ × α)
  | [] => []
  | e :: es => if e.1 = k then es else e :: deleted k es

theorem keys_assigned_of_mem (h : k ∈ es.map Prod.fst) :
    (assigned k v es).map Prod.fst = es.map Prod.fst := by
  induction es with
  | nil => simp at h
  | cons e es ih =>
    rw [assigned]
    split
    · rename_i he
      rw [List.map_cons, List.map_cons, he]
    · rename_i he
      rw [List.map_cons, List.map_cons, ih]
      exact (List.mem_cons.1 h).resolve_left (Ne.symm he)

theorem assigned_of_not_mem (h : k ∉ es.map Prod.fst) : assigned k v es = es ++ [(k, v)] := by
  induction es with
  | nil => rfl
  | cons e es ih =>
    rw [List.map_cons, List.mem_cons, not_or] at h
    rw [assigned, if_neg (Ne.symm h.1), ih h.2, List.cons_append]

/-- Where the key stands once, nothing else is replaced. -/
theorem assigned_of_mem (h : (es.map Prod.fst).Nodup) (hk : k ∈ es.map Prod.fst) :
    assigned k v es = es.map fun e ↦ if e.1 = k then (k, v) else e := by
  induction es with
  | nil => simp at hk
  | cons e es ih =>
    obtain ⟨hnot, hes⟩ := List.nodup_cons.1 h
    rw [assigned, List.map_cons]
    split
    · rename_i he
      have hrest : (es.map fun e ↦ if e.1 = k then (k, v) else e) = es := by
        refine (List.map_congr_left fun e' he' ↦ if_neg fun heq ↦ ?_).trans (List.map_id' es)
        exact hnot (he.trans heq.symm ▸ List.mem_map_of_mem he')
      rw [hrest]
    · rename_i he
      rw [ih hes ((List.mem_cons.1 hk).resolve_left (Ne.symm he))]

theorem nodup_assigned (h : (es.map Prod.fst).Nodup) : ((assigned k v es).map Prod.fst).Nodup := by
  by_cases hk : k ∈ es.map Prod.fst
  · rwa [keys_assigned_of_mem hk]
  · rw [assigned_of_not_mem hk, List.map_append, List.nodup_append]
    refine ⟨h, by simp, fun a ha b hb ↦ ?_⟩
    obtain rfl := List.mem_singleton.1 hb
    exact fun hab ↦ hk (hab ▸ ha)

/-- Where the key stands at most once, no more than one entry is taken out. -/
theorem deleted_eq_filter (h : (es.map Prod.fst).Nodup) :
    deleted k es = es.filter fun e ↦ e.1 ≠ k := by
  induction es with
  | nil => rfl
  | cons e es ih =>
    obtain ⟨hnot, hes⟩ := List.nodup_cons.1 h
    rw [deleted]
    split
    · rename_i he
      rw [List.filter_cons_of_neg (by simpa using he), eq_comm, List.filter_eq_self]
      intro e' he'
      have hne : e'.1 ≠ k := fun heq ↦ hnot (he.trans heq.symm ▸ List.mem_map_of_mem he')
      simpa using hne
    · rename_i he
      rw [List.filter_cons_of_pos (by simpa using he), ih hes]

theorem deleted_sublist : (deleted k es).Sublist es := by
  induction es with
  | nil => exact .slnil
  | cons e es ih =>
    rw [deleted]
    split
    · exact List.sublist_cons_self e es
    · exact ih.cons_cons e

end

/-! ## Maps -/

/-- The map without entries. -/
def empty : Ordered κ α := ⟨[], List.nodup_nil⟩

section

variable [DecidableEq κ] (o : Ordered κ α) (k : κ) (v : α)

/-- The value of a key. -/
def lookup : Option α := o.entries.lookup k

/-- Assigns a value to a key. -/
def assign : Ordered κ α := ⟨assigned k v o.entries, nodup_assigned o.nodup⟩

/-- Takes out the entry of a key. -/
def delete : Ordered κ α :=
  ⟨deleted k o.entries, o.nodup.sublist (deleted_sublist.map Prod.fst)⟩

/-- Assigns many values, one after the other. -/
def assignAll (ps : List (κ × α)) : Ordered κ α := ps.foldl (fun o p ↦ o.assign p.1 p.2) o

/-- Takes out the entries of some keys, one after the other. -/
def deleteAll (ks : List κ) : Ordered κ α := ks.foldl delete o

end

/-! ## Dictionaries -/

/-- The dictionary with the same entries. -/
def toDict (o : Ordered κ α) : Dict κ α := ⟨o.entries⟩

variable [DecidableEq κ] (o : Ordered κ α)

/-- To a dictionary with distinct keys a value is assigned in the place of its key. -/
theorem toDict_assign (k : κ) (v : α) : (o.assign k v).toDict = o.toDict.insert k v := by
  rw [Dict.insert]
  split
  · rename_i hk
    exact congrArg Dict.mk (assigned_of_mem o.nodup (Dict.contains_eq_true_iff.1 hk))
  · rename_i hk
    exact congrArg Dict.mk (assigned_of_not_mem fun hmem ↦ hk (Dict.contains_eq_true_iff.2 hmem))

/-- From a dictionary with distinct keys no more than one entry is erased. -/
theorem toDict_delete (k : κ) : (o.delete k).toDict = o.toDict.erase k :=
  congrArg Dict.mk (deleted_eq_filter o.nodup)

theorem toDict_assignAll (ps : List (κ × α)) :
    (o.assignAll ps).toDict = o.toDict.insertAll ps := by
  induction ps generalizing o with
  | nil => rfl
  | cons p ps ih =>
    rw [assignAll, List.foldl_cons, ← assignAll, ih, toDict_assign]
    rfl

theorem toDict_deleteAll (ks : List κ) : (o.deleteAll ks).toDict = ks.foldl Dict.erase o.toDict := by
  induction ks generalizing o with
  | nil => rfl
  | cons k ks ih => rw [deleteAll, List.foldl_cons, ← deleteAll, ih, toDict_delete, List.foldl_cons]

/-- The value of a key is the one that stands with it. -/
theorem lookup_eq_some_iff {k : κ} {v : α} : o.lookup k = some v ↔ (k, v) ∈ o.entries :=
  ⟨fun h ↦ Dict.mem_entries_of_get? (d := o.toDict) h, fun h ↦
    Dict.get?_of_mem_entries (d := o.toDict) o.nodup h⟩

end Ordered

end Lisplet
