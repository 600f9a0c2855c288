/-!
# Dictionaries in insertion order

A dictionary is a list of entries in which no key stands twice.  Assigning a present key replaces
its value in place; assigning an absent one appends an entry; erasing keeps the order of the rest,
so that a key that is erased and assigned again moves to the end.  Maps of the language and the
bindings of a frame are both dictionaries.

An assignment is seen at its key and nowhere else (`get?_insert`).  That no key stands twice is an
invariant of the operations (`nodup_keys_insert`, `nodup_keys_erase`), not of the type: values
contain dictionaries of values, and the type of values could not be built over a dictionary that
carries a proof about its entries.
-/

set_option autoImplicit false

namespace Lisplet

/-- Entries in the order in which their keys were first assigned. -/
structure Dict (κ α : Type) where
  /-- The entries, first assigned first. -/
  entries : List (κ × α)
  deriving Repr, Inhabited

namespace Dict

variable {κ α : Type}

/-- No entries. -/
def empty : Dict κ α := ⟨[]⟩

/-- The keys, in order. -/
def keys (d : Dict κ α) : List κ := d.entries.map Prod.fst

/-- The values, in the order of their keys. -/
def values (d : Dict κ α) : List α := d.entries.map Prod.snd

/-- The number of entries. -/
def size (d : Dict κ α) : Nat := d.entries.length

variable [DecidableEq κ]

/-- The value of a key. -/
def get? (d : Dict κ α) (k : κ) : Option α := d.entries.lookup k

/-- Whether a key has a value. -/
def contains (d : Dict κ α) (k : κ) : Bool := (d.get? k).isSome

/-- Assigns a value to a key: in place if the key is present, at the end if it is not. -/
def insert (d : Dict κ α) (k : κ) (v : α) : Dict κ α :=
  if d.contains k then ⟨d.entries.map fun e ↦ if e.1 = k then (k, v) else e⟩
  else ⟨d.entries ++ [(k, v)]⟩

/-- Removes a key and its value. -/
def erase (d : Dict κ α) (k : κ) : Dict κ α := ⟨d.entries.filter fun e ↦ e.1 ≠ k⟩

/-- Assigns many pairs from left to right. -/
def insertAll (d : Dict κ α) (pairs : List (κ × α)) : Dict κ α :=
  pairs.foldl (fun d e ↦ d.insert e.1 e.2) d

/-- The dictionary of a list of pairs: a repeated key keeps its first place and its last value. -/
def ofList (pairs : List (κ × α)) : Dict κ α := empty.insertAll pairs

/-! ## How the operations show in the entries -/

@[simp] theorem contains_eq_true_iff {d : Dict κ α} {k : κ} :
    d.contains k = true ↔ k ∈ d.keys := by
  rw [contains, get?, List.lookup_isSome_iff, keys, List.mem_map]
  exact exists_congr fun e ↦ and_congr_right fun _ ↦ by rw [beq_iff_eq, eq_comm]

/-- An assignment to a present key keeps all keys in place. -/
theorem keys_insert_of_mem {d : Dict κ α} {k : κ} {v : α} (h : k ∈ d.keys) :
    (d.insert k v).keys = d.keys := by
  rw [insert, if_pos (contains_eq_true_iff.2 h), keys, keys, List.map_map]
  refine List.map_congr_left fun e _ ↦ ?_
  by_cases he : e.1 = k <;> simp [he]

/-- An assignment to an absent key appends it. -/
theorem keys_insert_of_not_mem {d : Dict κ α} {k : κ} {v : α} (h : k ∉ d.keys) :
    (d.insert k v).keys = d.keys ++ [k] := by
  rw [insert, if_neg (mt contains_eq_true_iff.1 h)]
  simp [keys]

theorem nodup_keys_insert {d : Dict κ α} (hd : d.keys.Nodup) (k : κ) (v : α) :
    (d.insert k v).keys.Nodup := by
  by_cases h : k ∈ d.keys
  · rwa [keys_insert_of_mem h]
  · rw [keys_insert_of_not_mem h]
    simp only [List.nodup_append, hd, true_and, List.nodup_cons, List.not_mem_nil,
      not_false_eq_true, List.nodup_nil, List.mem_singleton, forall_eq]
    exact fun a ha hak ↦ h (hak ▸ ha)

theorem keys_erase (d : Dict κ α) (k : κ) : (d.erase k).keys = d.keys.filter (· ≠ k) := by
  simp [erase, keys, List.filter_map, Function.comp_def]

theorem nodup_keys_erase {d : Dict κ α} (hd : d.keys.Nodup) (k : κ) :
    (d.erase k).keys.Nodup := by
  rw [keys_erase]
  exact hd.filter _

/-! ## How the operations show in look-ups -/

@[simp] theorem get?_empty (k : κ) : (empty : Dict κ α).get? k = none := rfl

/-- Replacing the value of a key keeps every other look-up. -/
theorem lookup_replace (es : List (κ × α)) (k k' : κ) (v : α) :
    (es.map fun e ↦ if e.1 = k then (k, v) else e).lookup k' =
      if k' = k then (es.lookup k).map fun _ ↦ v else es.lookup k' := by
  induction es with
  | nil => simp
  | cons e es ih =>
    rw [List.map_cons, List.lookup_cons, List.lookup_cons, List.lookup_cons, ih]
    by_cases hk : k' = k
    · subst hk
      by_cases he : e.1 = k'
      · simp [he]
      · have hb : (k' == e.1) = false := beq_false_of_ne (Ne.symm he)
        simp [he, hb]
    · by_cases he : e.1 = k
      · have hb : (k' == k) = false := beq_false_of_ne hk
        simp [he, hk, hb]
      · simp [he, hk]

/-- **An assignment is seen at its key and nowhere else.** -/
theorem get?_insert (d : Dict κ α) (k k' : κ) (v : α) :
    (d.insert k v).get? k' = if k' = k then some v else d.get? k' := by
  rw [insert]
  split
  case isTrue h =>
    obtain ⟨w, hw⟩ := Option.isSome_iff_exists.1 h
    rw [get?, lookup_replace, ← get?, hw]
    rfl
  case isFalse h =>
    rw [contains, Bool.not_eq_true, Option.isSome_eq_false_iff, Option.isNone_iff_eq_none] at h
    rw [get?, List.lookup_append, ← get?]
    by_cases hk : k' = k
    · subst hk
      simp [h]
    · have hb : (k' == k) = false := by simpa using hk
      simp [hk, List.lookup_cons, hb]

/-- An erased key has no value. -/
@[simp] theorem get?_erase_self (d : Dict κ α) (k : κ) : (d.erase k).get? k = none := by
  have h : k ∉ (d.erase k).keys := by simp [keys_erase]
  rwa [← contains_eq_true_iff, contains, Bool.not_eq_true, Option.isSome_eq_false_iff,
    Option.isNone_iff_eq_none] at h

/-- Erasing a key affects no other. -/
theorem get?_erase_of_ne {k k' : κ} (h : k' ≠ k) (d : Dict κ α) :
    (d.erase k).get? k' = d.get? k' := by
  obtain ⟨es⟩ := d
  simp only [erase, get?]
  induction es with
  | nil => rfl
  | cons e es ih =>
    rw [List.filter_cons, List.lookup_cons]
    by_cases he : e.1 = k
    · have hb : (k' == e.1) = false := beq_false_of_ne (he ▸ h)
      rw [if_neg (by simp [he]), hb, ih]
    · rw [if_pos (by simp [he]), List.lookup_cons, ih]

end Dict

end Lisplet
