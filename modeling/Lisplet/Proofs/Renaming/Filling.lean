import Lisplet.Proofs.Filling
import Lisplet.Proofs.Renaming.Run

/-!
# Templates with new serial numbers

A template has the same holes when it has new serial numbers, and filling it does the same
(`tracks_fill`).  So it goes through the same stores on the way, renumbered (`Visits.of_store`), and
where the names in its code stand for what is meant in one numbering, they do in the other.
-/

set_option autoImplicit false

namespace Lisplet.Template

/-! ## Holes -/

section

variable (ρ : Nat → Nat)

/-- A hole with new serial numbers in its form. -/
def Hole.rename : Hole → Hole
  | .one form => .one (form.rename ρ)
  | .many form => .many (form.rename ρ)

@[simp] theorem Hole.form_rename (hole : Hole) : (hole.rename ρ).form = hole.form.rename ρ := by
  cases hole <;> rfl

@[simp] theorem marked?_rename (marker : String) (form : Value) :
    marked? marker (form.rename ρ) = (marked? marker form).map (List.map (Value.rename ρ)) := by
  rw [marked?, marked?, Value.items?_rename]
  rcases form.items? with _ | _ | ⟨head, args⟩
  · rfl
  · rfl
  · cases head with
    | sym head => by_cases hhead : head = marker <;> simp [hhead]
    | _ => simp

@[simp] theorem whole?_rename (t : Value) :
    whole? (t.rename ρ) = (whole? t).map (List.map (Value.rename ρ)) := by
  rw [whole?, whole?, Value.bare_rename]
  cases t.bare <;> simp

@[simp] theorem elements?_rename (t : Value) :
    elements? (t.rename ρ) = (elements? t).map (List.map (Value.rename ρ)) := by
  rw [elements?, elements?, whole?_rename, Option.isSome_map, Value.items?_rename]
  split <;> rfl

@[simp] theorem hole?_rename (elem : Value) :
    hole? (elem.rename ρ) = (hole? elem).map (Hole.rename ρ) := by
  rw [hole?, hole?, marked?_rename, marked?_rename]
  rcases marked? one elem with _ | _ | ⟨form, _ | ⟨extra, rest⟩⟩
  · rcases marked? many elem with _ | _ | ⟨form, _ | ⟨extra, rest⟩⟩ <;> rfl
  · rfl
  · rfl
  · rfl

end

/-! ## Filling -/

section

variable {R : Renumbering} {eng : Engine} (scope : FrameId)

theorem tracks_spread (eng : Engine) (elem v : Value) :
    R.Tracks (List.map (Value.rename R.serial)) (spread eng elem v)
      (spread eng (elem.rename R.serial) (v.rename R.serial)) := by
  rw [spread, spread, hole?_rename]
  rcases hole? elem with _ | _ | _
  · exact .pure [v]
  · exact .pure [v]
  · exact .lift eng (.itemsOrNil _ v)

variable (h : R.Blind eng)
include h

theorem tracks_part {elem : Value}
    (hfill : R.Tracks (Value.rename R.serial) (fill eng scope elem)
      (fill eng scope (elem.rename R.serial))) :
    R.Tracks (Value.rename R.serial) (part eng scope elem)
      (part eng scope (elem.rename R.serial)) := by
  rw [part, part, hole?_rename]
  cases hole? elem with
  | none => exact hfill
  | some hole =>
    simp only [Option.map_some, Hole.form_rename]
    exact h.eval scope hole.form

theorem tracks_fillItems {items : List Value}
    (hfill : ∀ elem ∈ items, R.Tracks (Value.rename R.serial) (fill eng scope elem)
      (fill eng scope (elem.rename R.serial))) :
    R.Tracks (Prod.map (Option.map (Label.rename R.serial)) (List.map (Value.rename R.serial)))
      (fillItems eng scope items) (fillItems eng scope (items.map (Value.rename R.serial))) := by
  induction items with
  | nil =>
    rw [List.map_nil, fillItems]
    exact .pure (none, [])
  | cons elem rest ih =>
    obtain ⟨helem, hrest⟩ := List.forall_mem_cons.1 hfill
    rw [List.map_cons, fillItems_cons, fillItems_cons]
    refine .bind (tracks_part scope h helem) fun v ↦ .bind (ih hrest) fun filled ↦ ?_
    refine .bind (tracks_spread eng elem v) fun vs ↦ .bind .newLabel fun l ↦ ?_
    exact .pure_of_eq (by simp)

/-- **Filling a template does the same with new serial numbers.** -/
theorem tracks_fill (t : Value) : R.Tracks (Value.rename R.serial) (fill eng scope t)
    (fill eng scope (t.rename R.serial)) := by
  induction t using Value.items_induction with
  | h t ih =>
    by_cases hwhole : ∃ form, whole? t = some [form]
    · obtain ⟨form, hwhole⟩ := hwhole
      have hrename : whole? (t.rename R.serial) = some [form.rename R.serial] := by
        rw [whole?_rename, hwhole]
        rfl
      rw [fill_of_whole _ _ hwhole, fill_of_whole _ _ hrename]
      exact h.eval scope form
    have hrename : ∀ form, whole? (t.rename R.serial) ≠ some [form] := by
      intro form hform
      rw [whole?_rename] at hform
      obtain ⟨args, hargs, hmap⟩ := Option.map_eq_some_iff.1 hform
      obtain ⟨arg, rfl, -⟩ := List.map_eq_singleton_iff.1 hmap
      exact hwhole ⟨arg, hargs⟩
    cases hbare : t.bare with
    | list l items =>
      have hlist : (t.rename R.serial).bare = .list (l.map (Label.rename R.serial))
          (items.map (Value.rename R.serial)) := by
        rw [Value.bare_rename, hbare, Value.rename_list]
      rw [fill_of_list _ _ (not_exists.1 hwhole) hbare, fill_of_list _ _ hrename hlist]
      refine .bind (tracks_fillItems scope h (ih items ?_)) fun filled ↦ .pure_of_eq (by simp)
      rw [Value.items?, hbare]
    | vec items =>
      have hvec : (t.rename R.serial).bare = .vec (items.map (Value.rename R.serial)) := by
        rw [Value.bare_rename, hbare, Value.rename_vec]
      rw [fill_of_vec _ _ hbare, fill_of_vec _ _ hvec]
      refine .bind (tracks_fillItems scope h (ih items ?_)) fun filled ↦ .pure_of_eq (by simp)
      rw [Value.items?, hbare]
    | _ =>
      have hitems : t.items? = none := by rw [Value.items?, hbare]
      have hnone : (t.rename R.serial).items? = none := by
        rw [Value.items?_rename, hitems]
        rfl
      rw [fill_of_items? _ _ hitems, fill_of_items? _ _ hnone]
      exact .pure t

end

/-! ## The stores on the way -/

section

variable {R : Renumbering} {disk : Disk} {scope : FrameId}

theorem Named.store {s : Store} (h : Named s scope) : Named (R.store s) scope := by
  have hresolves {op : Builtin} (hop : s.Resolves scope op) : (R.store s).Resolves scope op := by
    obtain ⟨v, home, hget, hv⟩ := hop
    refine ⟨v.rename R.serial, home, ?_, by rw [Value.bare_rename, hv, Value.rename_builtin]⟩
    rw [Renumbering.store, Store.get?_rename, hget, Option.map_some]
  exact ⟨hresolves h.cons, hresolves h.concat, hresolves h.vec⟩

/-- The value of an element is the same with new serial numbers, whatever is granted. -/
theorem tracks_part_granted (R : Renumbering) (disk : Disk) (scope : FrameId) (elem : Value)
    (steps room : Nat) :
    R.Tracks (Value.rename R.serial) (part (.granted disk steps room) scope elem)
      (part (.granted disk steps room) scope (elem.rename R.serial)) :=
  have h := Renumbering.blind_granted disk steps room
  tracks_part scope h (tracks_fill scope h elem)

/-- What is visited from a renumbered store is what is visited from the store, renumbered. -/
theorem Visits.of_store {items : List Value} {s s' : Store} (hcounts : ∀ n, R.Counts s.serials n)
    (h : Visits disk scope (items.map (Value.rename R.serial)) (R.store s) s') :
    ∃ s₁, s' = R.store s₁ ∧ Visits disk scope items s s₁ := by
  generalize hitems : items.map (Value.rename R.serial) = items' at h
  generalize hs : R.store s = t at h
  induction h generalizing items s with
  | here =>
    obtain ⟨elem, rest, rfl, -, -⟩ := List.map_eq_cons_iff.1 hitems
    exact ⟨s, hs.symm, .here elem rest s⟩
  | inside hhole helems _ ih =>
    obtain ⟨elem, rest, rfl, rfl, -⟩ := List.map_eq_cons_iff.1 hitems
    rw [hole?_rename, Option.map_eq_none_iff] at hhole
    rw [elements?_rename] at helems
    obtain ⟨inner, hinner, hmap⟩ := Option.map_eq_some_iff.1 helems
    obtain ⟨s₁, rfl, h⟩ := ih hcounts hmap hs
    exact ⟨s₁, rfl, .inside hhole hinner h⟩
  | behind helem _ ih =>
    obtain ⟨elem, rest, rfl, rfl, hrest⟩ := List.map_eq_cons_iff.1 hitems
    obtain rfl := hs
    have htracks := tracks_part_granted R disk scope elem
    obtain ⟨r, hr, heq⟩ := Renumbering.exists_of_settles_store htracks
      (growing_part (growing_fill elem)) hcounts helem
    cases r with
    | ok v s₁ =>
      obtain ⟨-, rfl⟩ := EStateM.Result.ok.inj heq
      have hle := Renumbering.serials_le_of_tracks
        (y := fun eng ↦ part eng scope (elem.rename R.serial)) htracks hr
      obtain ⟨s₂, rfl, h⟩ := ih (fun n ↦ (hcounts n).right hle) hrest rfl
      exact ⟨s₂, rfl, .behind hr h⟩
    | error e s₁ => simp [Renumbering.ending] at heq

end

end Lisplet.Template
