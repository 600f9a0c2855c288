import Lisplet.Proofs.Grammar
import Lisplet.Proofs.Holes
import Mathlib.Data.List.Basic

/-!
# Renaming serial numbers

A closure has a serial number, and so has the label of a list or a map.  What matters about these is
only which of them are the same.  To say so, everything that holds values is given new numbers for
old ones (`Value.rename`, `Store.rename`, `Failure.rename`), and whatever is computed with is shown
to come out the same, with the new numbers in it.

This part is about what needs neither the store nor an engine.  The numbers have to stay different
where they are compared: by equality, which compares closures, and by diagnostics, which look for a
label among those around it.  Everything else holds for whatever new numbers.
-/

set_option autoImplicit false

namespace Lisplet

/-! ## Dictionaries -/

namespace Dict

variable {κ α β : Type}

/-- A dictionary with a function applied to every value. -/
def map (f : α → β) (d : Dict κ α) : Dict κ β := ⟨d.entries.map fun e ↦ (e.1, f e.2)⟩

variable {f : α → β} {d : Dict κ α}

theorem entries_map : (d.map f).entries = d.entries.map fun e ↦ (e.1, f e.2) := rfl

@[simp] theorem keys_map : (d.map f).keys = d.keys := by
  rw [keys, keys, map, List.map_map]
  rfl

@[simp] theorem values_map : (d.map f).values = d.values.map f := by
  rw [values, values, map, List.map_map, List.map_map]
  rfl

@[simp] theorem size_map : (d.map f).size = d.size := List.length_map _

variable [DecidableEq κ]

@[simp] theorem get?_map (k : κ) : (d.map f).get? k = (d.get? k).map f := by
  obtain ⟨es⟩ := d
  simp only [get?, map]
  induction es with
  | nil => rfl
  | cons e es ih =>
    rw [List.map_cons, List.lookup_cons, List.lookup_cons, ih]
    split <;> rfl

@[simp] theorem contains_map : (d.map f).contains = d.contains := by
  funext k
  rw [contains, contains, get?_map, Option.isSome_map]

theorem map_insert (k : κ) (v : α) : (d.insert k v).map f = (d.map f).insert k (f v) := by
  rw [insert, insert, contains_map]
  split
  · simp only [map, List.map_map, mk.injEq]
    refine List.map_congr_left fun e _ ↦ ?_
    by_cases he : e.1 = k <;> simp [he]
  · simp only [map, List.map_append, List.map_cons, List.map_nil]

theorem map_insertAll (pairs : List (κ × α)) :
    (d.insertAll pairs).map f = (d.map f).insertAll (pairs.map fun p ↦ (p.1, f p.2)) := by
  induction pairs generalizing d with
  | nil => rfl
  | cons p pairs ih =>
    rw [List.map_cons, insertAll, insertAll, List.foldl_cons, List.foldl_cons, ← map_insert]
    exact ih

theorem map_ofList (pairs : List (κ × α)) :
    (ofList pairs).map f = ofList (pairs.map fun p ↦ (p.1, f p.2)) :=
  map_insertAll pairs

theorem map_erase (k : κ) : (d.erase k).map f = (d.map f).erase k := by
  simp only [map, erase, List.filter_map]
  rfl

theorem map_eraseAll (ks : List κ) : (ks.foldl erase d).map f = ks.foldl erase (d.map f) := by
  induction ks generalizing d with
  | nil => rfl
  | cons k ks ih => rw [List.foldl_cons, List.foldl_cons, ih, map_erase]

end Dict

/-! ## Values -/

variable (ρ : Nat → Nat)

/-- A label with a new serial number. -/
def Label.rename (l : Label) : Label := { l with serial := ρ l.serial }

namespace Value

/-- **A value with new serial numbers for old ones**, in labels and in closures, however deep. -/
def rename : Value → Value
  | list l items => list (l.map (Label.rename ρ)) (items.map rename)
  | vec items => vec (items.map rename)
  | map l d => map (l.map (Label.rename ρ)) ⟨d.entries.map fun e ↦ (e.1, rename e.2)⟩
  | fn c => fn { c with serial := ρ c.serial, body := rename c.body }
  | withMeta v data => withMeta (rename v) (rename data)
  | v => v
termination_by v => sizeOf v
decreasing_by
  · have hlt := List.sizeOf_lt_of_mem ‹_ ∈ items›
    simp only [list.sizeOf_spec]
    omega
  · have hlt := List.sizeOf_lt_of_mem ‹_ ∈ items›
    simp only [vec.sizeOf_spec]
    omega
  · have hlt := sizeOf_lt_of_mem_entries ‹_ ∈ d.entries›
    simp only [map.sizeOf_spec]
    omega
  · have hlt := sizeOf_body_lt c
    simp only [fn.sizeOf_spec]
    omega
  all_goals
    simp only [withMeta.sizeOf_spec]
    omega

end Value

/-- A closure with new serial numbers. -/
def Closure.rename (c : Closure Value) : Closure Value :=
  { c with serial := ρ c.serial, body := c.body.rename ρ }

@[simp] theorem Closure.serial_rename (c : Closure Value) : (c.rename ρ).serial = ρ c.serial := rfl

@[simp] theorem Closure.params_rename (c : Closure Value) : (c.rename ρ).params = c.params := rfl

@[simp] theorem Closure.body_rename (c : Closure Value) :
    (c.rename ρ).body = c.body.rename ρ := rfl

@[simp] theorem Closure.scope_rename (c : Closure Value) : (c.rename ρ).scope = c.scope := rfl

@[simp] theorem Closure.isMacro_rename (c : Closure Value) :
    (c.rename ρ).isMacro = c.isMacro := rfl

/-- The contents of atoms with new serial numbers. -/
def Heap.rename (h : Heap) : Heap := Array.map (Value.rename ρ) h

namespace Value

/-- What becomes of a value, by its kind; the lemmas for each kind are its cases. -/
theorem rename_eq (v : Value) : v.rename ρ =
    match v with
    | list l items => list (l.map (Label.rename ρ)) (items.map (Value.rename ρ))
    | vec items => vec (items.map (Value.rename ρ))
    | map l d => map (l.map (Label.rename ρ)) (d.map (Value.rename ρ))
    | fn c => fn (c.rename ρ)
    | withMeta v data => withMeta (v.rename ρ) (data.rename ρ)
    | v => v := by
  rw [rename.eq_def]
  cases v <;> rfl

@[simp] theorem rename_nil : nil.rename ρ = nil := rename_eq ρ nil

@[simp] theorem rename_bool (b : Bool) : (bool b).rename ρ = bool b := rename_eq ρ (bool b)

@[simp] theorem rename_int (n : Int) : (int n).rename ρ = int n := rename_eq ρ (int n)

@[simp] theorem rename_str (text : String) : (str text).rename ρ = str text :=
  rename_eq ρ (str text)

@[simp] theorem rename_sym (name : String) : (sym name).rename ρ = sym name :=
  rename_eq ρ (sym name)

@[simp] theorem rename_kw (name : String) : (kw name).rename ρ = kw name :=
  rename_eq ρ (kw name)

@[simp] theorem rename_builtin (home : FrameId) (op : Builtin) :
    (builtin home op).rename ρ = builtin home op :=
  rename_eq ρ (builtin home op)

@[simp] theorem rename_atom (a : AtomId) : (atom a).rename ρ = atom a := rename_eq ρ (atom a)

@[simp] theorem rename_list (l : Option Label) (items : List Value) :
    (list l items).rename ρ = list (l.map (Label.rename ρ)) (items.map (Value.rename ρ)) :=
  rename_eq ρ (list l items)

@[simp] theorem rename_vec (items : List Value) :
    (vec items).rename ρ = vec (items.map (Value.rename ρ)) :=
  rename_eq ρ (vec items)

@[simp] theorem rename_map (l : Option Label) (d : Dict Key Value) :
    (map l d).rename ρ = map (l.map (Label.rename ρ)) (d.map (Value.rename ρ)) :=
  rename_eq ρ (map l d)

@[simp] theorem rename_fn (c : Closure Value) : (fn c).rename ρ = fn (c.rename ρ) :=
  rename_eq ρ (fn c)

@[simp] theorem rename_withMeta (v data : Value) :
    (withMeta v data).rename ρ = withMeta (v.rename ρ) (data.rename ρ) :=
  rename_eq ρ (withMeta v data)

@[simp] theorem rename_ofKey (k : Key) : (ofKey k).rename ρ = ofKey k := by
  cases k <;> simp [ofKey]

@[simp] theorem rename_keyword (name : String) : (keyword name).rename ρ = keyword name := by
  rw [keyword]
  split <;> simp

end Value

@[simp] theorem Heap.content_rename (h : Heap) (a : AtomId) :
    (h.rename ρ).content a = (h.content a).rename ρ := by
  rw [Heap.content, Heap.content, Heap.rename, Array.getElem?_map]
  cases h[a]? <;> simp

/-! ## Views -/

namespace Value

variable (v : Value)

@[simp] theorem bare_rename : (v.rename ρ).bare = v.bare.rename ρ := by
  fun_induction bare v with
  | case1 v data ih => simpa using ih
  | case2 v h => cases v <;> simp [bare] at h ⊢

@[simp] theorem isTruthy_rename : (v.rename ρ).isTruthy = v.isTruthy := by
  cases v <;> simp [isTruthy]

@[simp] theorem items?_rename : (v.rename ρ).items? = v.items?.map (List.map (Value.rename ρ)) := by
  rw [items?, items?, bare_rename]
  cases v.bare <;> simp

@[simp] theorem key?_rename : (v.rename ρ).key? = v.key? := by
  rw [key?, key?, bare_rename]
  cases v.bare <;> simp

end Value

/-- Lists taken two by two. -/
theorem pairs?_map {α β : Type} (f : α → β) (xs : List α) :
    pairs? (xs.map f) = (pairs? xs).map (List.map (Prod.map f f)) := by
  fun_induction pairs? xs with
  | case1 | case2 => rfl
  | case3 a b rest ih =>
    rw [List.map_cons, List.map_cons, pairs?, ih]
    cases pairs? rest <;> rfl

/-- A test of the elements of a list to which a function has been applied. -/
theorem allM_map {α β : Type} {f : α → β} {p : β → Option Bool} (xs : List α) :
    (xs.map f).allM p = xs.allM (p ∘ f) := by
  induction xs with
  | nil => rfl
  | cons x xs ih =>
    rw [List.map_cons, List.allM, List.allM, ih]
    rfl

/-! ## Texts -/

namespace Value

variable (heap : Heap)

/-- Serial numbers are not printed. -/
@[simp] theorem print_rename (style : PrintStyle) (room : Nat) (v : Value) :
    (v.rename ρ).print (heap.rename ρ) style room = v.print heap style room := by
  induction room generalizing v with
  | zero => rfl
  | succ room ih =>
    cases v with
    | list l items | vec items => simp [print, List.mapM_map, Function.comp_def, ih]
    | map l d => simp [print, Dict.map, List.mapM_map, Function.comp_def, ih]
    | atom a => simp [print, ih]
    | withMeta v data => simp [print, ih]
    | fn c => simp [print, Closure.rename]
    | _ => simp [print]

@[simp] theorem printAll_rename (style : PrintStyle) (room : Nat) (sep : String)
    (vs : List Value) : printAll (heap.rename ρ) style room sep (vs.map (Value.rename ρ)) =
      printAll heap style room sep vs := by
  simp [printAll, List.mapM_map, Function.comp_def]

variable {ρ} (hρ : Function.Injective ρ)
include hρ

theorem label_rename_injective : Function.Injective (Label.rename ρ) := by
  rintro ⟨m, p⟩ ⟨n, q⟩ h
  obtain ⟨hserial, hplace⟩ := Label.mk.inj h
  exact Label.mk.injEq .. ▸ ⟨hρ hserial, hplace⟩

/-- **Diagnostics do not depend on the serial numbers**, if these stay different. -/
theorem inspectWithin_rename (room : Nat) (around : List Label) (v : Value) :
    (v.rename ρ).inspectWithin (heap.rename ρ) room (around.map (Label.rename ρ)) =
      v.inspectWithin heap room around := by
  have haround (l : Option Label) (around : List Label) :
      (l.map (Label.rename ρ)).any (around.map (Label.rename ρ)).contains =
        l.any around.contains := by
    cases l with
    | none => rfl
    | some l =>
      rw [Option.map_some, Option.any_some, Option.any_some, Bool.eq_iff_iff, List.contains_iff_mem,
        List.contains_iff_mem, List.mem_map_of_injective (label_rename_injective hρ)]
  induction room generalizing around v with
  | zero => rfl
  | succ room ih =>
    have ihinside (l : Option Label) (v : Value) :
        (v.rename ρ).inspectWithin (heap.rename ρ) room
            ((l.map (Label.rename ρ)).toList ++ around.map (Label.rename ρ)) =
          v.inspectWithin heap room (l.toList ++ around) := by
      rw [Option.toList_map, ← List.map_append]
      exact ih _ v
    cases v with
    | list l items =>
      simp [inspectWithin, haround, List.mapM_map, Function.comp_def, ihinside]
    | vec items => simp [inspectWithin, List.mapM_map, Function.comp_def, ih]
    | map l d =>
      simp [inspectWithin, haround, Dict.map, List.mapM_map, Function.comp_def, ihinside]
    | atom a => simp [inspectWithin, ih]
    | withMeta v data => simp [inspectWithin, ih]
    | fn c => simp [inspectWithin, Closure.rename]
    | _ => simp [inspectWithin]

theorem describe_rename (room : Nat) (v : Value) :
    (v.rename ρ).describe (heap.rename ρ) room = v.describe heap room := by
  have hinspect := inspectWithin_rename heap hρ room [] v
  rw [List.map_nil] at hinspect
  cases v <;> simp [describe, inspect] at hinspect ⊢ <;> exact hinspect

/-! ## Equality -/

theorem sameLeaf_rename (v w : Value) : (v.rename ρ).sameLeaf (w.rename ρ) = v.sameLeaf w := by
  have hserial (m n : Nat) : (ρ m == ρ n) = (m == n) := by
    rw [Bool.eq_iff_iff, beq_iff_eq, beq_iff_eq, hρ.eq_iff]
  cases v with
  | fn c => cases w <;> simp [sameLeaf, hserial]
  | _ => cases w <;> simp [sameLeaf]

/-- **Equality does not depend on the serial numbers**, if these stay different. -/
theorem equal?_rename (room : Nat) (v w : Value) :
    (v.rename ρ).equal? room (w.rename ρ) = v.equal? room w := by
  induction room generalizing v w with
  | zero => rfl
  | succ room ih =>
    rw [equal?, equal?, items?_rename, items?_rename, bare_rename, bare_rename]
    cases v.items? with
    | some xs =>
      cases w.items? with
      | some ys => simp [List.zip_map, allM_map, Function.comp_def, ih]
      | none => rfl
    | none =>
      cases w.items? with
      | some ys => rfl
      | none =>
        have hleaf := sameLeaf_rename hρ v.bare w.bare
        cases hv : v.bare with
        | map l d =>
          cases hw : w.bare with
          | map l' d' =>
            simp only [rename_map, Option.map_none, Dict.size_map, Dict.keys_map,
              Dict.contains_map, Dict.entries_map, allM_map, Dict.get?_map]
            refine congrArg (ite _ · _) (congrArg (List.allM · d.entries) (funext fun e ↦ ?_))
            dsimp only [Function.comp]
            cases d'.get? e.1 with
            | some w => exact ih e.2 w
            | none => rfl
          | _ => simp [sameLeaf]
        | _ =>
          rw [hv] at hleaf
          simpa using hleaf

end Value

end Lisplet
