import Mathlib.Data.Finite.Prod
import Mathlib.Data.Fintype.EquivFin
import Mathlib.Logic.Relation
import Mathlib.Order.WellFounded
import Lisplet.Proofs.Room
import Lisplet.Proofs.Session

/-!
# When printing ends

Printing goes from a value to the values that show in its text: the elements of a sequence, the
values of a map, what is under metadata and the content of an atom (`Value.shown`).  Metadata and
what is inside a function do not show.

Either style prints a value in some room exactly if no way down from it is that long
(`Value.print_eq_none_iff`), so the one reason for which printing can fail is that the value nests
too deeply.  There are ways down of any length only if the value *exposes* an atom whose content
exposes the same atom again.  For there are finitely many atoms, and if none of those that a value
exposes comes back to itself then an induction along their contents reaches them all
(`Value.wellFounded_follows`); away from atoms a value is larger than what shows in it.
-/

set_option autoImplicit false

namespace Lisplet

namespace Value

variable {heap : Heap} {v w : Value} {ws : List Value} {a b : AtomId} {m n : Nat}

/-! ## Values that can be printed -/

/-- There is room in which the value prints. -/
def Prints (heap : Heap) (v : Value) : Prop := ∃ room, (v.print heap .readable room).isSome = true

/-- The values that show in the text of a value, one level down. -/
def shown (heap : Heap) : Value → List Value
  | list _ items | vec items => items
  | map _ d => d.values
  | atom a => [heap.content a]
  | withMeta v _ => [v]
  | _ => []

/-- A value prints one level above what shows in it. -/
theorem isSome_print_succ_iff {style : PrintStyle} (room : Nat) (v : Value) :
    (v.print heap style (room + 1)).isSome = true ↔
      ∀ w ∈ v.shown heap, (w.print heap style room).isSome = true := by
  rw [print.eq_def]
  cases v with
  | list l items | vec items =>
    rw [Option.isSome_map]
    exact ⟨isSome_of_isSome_mapM, isSome_mapM⟩
  | map l d =>
    rw [Option.isSome_map, shown, Dict.values, List.forall_mem_map]
    constructor
    · exact fun hsome e he ↦ by simpa using isSome_of_isSome_mapM hsome e he
    · exact fun hsome ↦ isSome_mapM fun e he ↦ by simpa using hsome e he
  | _ => simp [shown]

theorem isSome_print_of_le (hmn : m ≤ n) (h : (v.print heap .readable m).isSome = true) :
    (v.print heap .readable n).isSome = true := by
  obtain ⟨text, htext⟩ := Option.isSome_iff_exists.1 h
  exact Option.isSome_of_eq_some (print_within hmn v text htext)

/-- Values that can be printed can be printed in one and the same room. -/
theorem exists_room_of_forall_prints (h : ∀ w ∈ ws, w.Prints heap) :
    ∃ room, ∀ w ∈ ws, (w.print heap .readable room).isSome = true := by
  induction ws with
  | nil => exact ⟨0, by simp⟩
  | cons w ws ih =>
    obtain ⟨⟨m, hm⟩, hws⟩ := List.forall_mem_cons.1 h
    obtain ⟨n, hn⟩ := ih hws
    refine ⟨max m n, List.forall_mem_cons.2 ⟨?_, fun u hu ↦ ?_⟩⟩
    · exact isSome_print_of_le (Nat.le_max_left m n) hm
    · exact isSome_print_of_le (Nat.le_max_right m n) (hn u hu)

/-- **A value can be printed exactly if all that shows in it can.** -/
theorem prints_iff_shown : v.Prints heap ↔ ∀ w ∈ v.shown heap, w.Prints heap := by
  constructor
  · rintro ⟨room, hroom⟩ w hw
    exact ⟨room, (isSome_print_succ_iff room v).1 (isSome_print_of_le room.le_succ hroom) w hw⟩
  · intro hshown
    obtain ⟨room, hroom⟩ := exists_room_of_forall_prints hshown
    exact ⟨room + 1, (isSome_print_succ_iff room v).2 hroom⟩

/-- A value prints as it does under metadata, in some more room. -/
theorem exists_print_bare_iff {style : PrintStyle} {text : String} (v : Value) :
    (∃ room, v.bare.print heap style room = some text) ↔
      ∃ room, v.print heap style room = some text := by
  fun_induction bare v with
  | case1 v data ih =>
    rw [ih]
    constructor
    · rintro ⟨room, h⟩
      exact ⟨room + 1, by rwa [print]⟩
    · rintro ⟨room, h⟩
      cases room with
      | zero => cases h
      | succ room => exact ⟨room, by rwa [print] at h⟩
  | case2 => rfl

theorem prints_bare (v : Value) : v.bare.Prints heap ↔ v.Prints heap := by
  fun_induction bare v with
  | case1 v data ih =>
    rw [ih, prints_iff_shown (v := withMeta v data), shown, List.forall_mem_singleton]
  | case2 => rfl

theorem prints_of_items? (h : v.items? = some ws) : v.Prints heap ↔ ∀ w ∈ ws, w.Prints heap := by
  rw [← prints_bare v, prints_iff_shown]
  rw [items?] at h
  split at h
  · rename_i heq
    rw [heq, shown, Option.some.inj h]
  · rename_i heq
    rw [heq, shown, Option.some.inj h]
  · cases h

theorem prints_of_map {l : Option Label} {d : Dict Key Value} (h : v.bare = map l d) :
    v.Prints heap ↔ ∀ e ∈ d.entries, e.2.Prints heap := by
  rw [← prints_bare v, h, prints_iff_shown, shown, Dict.values, List.forall_mem_map]

/-! ## Ways down -/

/-- There is a way down from the value that is so long. -/
def Descends (heap : Heap) : Nat → Value → Prop
  | 0, _ => True
  | n + 1, v => ∃ w ∈ v.shown heap, Descends heap n w

theorem Descends.pred (h : v.Descends heap (n + 1)) : Descends heap n v := by
  induction n generalizing v with
  | zero => trivial
  | succ n ih =>
    obtain ⟨w, hw, h⟩ := h
    exact ⟨w, hw, ih h⟩

/-- A way down from what shows in a value is one from the value. -/
theorem Descends.of_mem_shown (hw : w ∈ v.shown heap) (h : Descends heap n w) :
    Descends heap n v :=
  pred ⟨w, hw, h⟩

/-- **A value has a text in some room exactly if its ways down are all shorter.** -/
theorem isSome_print_iff (style : PrintStyle) (room : Nat) (v : Value) :
    (v.print heap style room).isSome = true ↔ ¬ Descends heap room v := by
  induction room generalizing v with
  | zero => exact iff_of_false Bool.false_ne_true (not_not_intro trivial)
  | succ room ih =>
    rw [isSome_print_succ_iff, Descends, not_exists]
    exact forall_congr' fun w ↦ by rw [not_and, ih w]

theorem print_eq_none_iff (style : PrintStyle) (room : Nat) (v : Value) :
    v.print heap style room = none ↔ Descends heap room v := by
  rw [← not_iff_not, ← isSome_print_iff style, Option.isSome_iff_ne_none]

theorem prints_iff_exists : v.Prints heap ↔ ∃ n, ¬ Descends heap n v :=
  exists_congr fun n ↦ isSome_print_iff .readable n v

/-- A value that prints in some room has one text in either style, whatever more room there is. -/
theorem exists_text_iff {style : PrintStyle} :
    (∃ text enough, ∀ room, enough ≤ room → v.print heap style room = some text) ↔
      v.Prints heap := by
  rw [prints_iff_exists]
  constructor
  · rintro ⟨text, enough, h⟩
    exact ⟨enough, (isSome_print_iff style enough v).1 (Option.isSome_of_eq_some (h enough le_rfl))⟩
  · rintro ⟨n, hn⟩
    obtain ⟨text, htext⟩ := Option.isSome_iff_exists.1 ((isSome_print_iff style n v).2 hn)
    exact ⟨text, n, fun room hroom ↦ print_within hroom v text htext⟩

theorem forall_print_eq_none_iff {style : PrintStyle} :
    (∀ room, v.print heap style room = none) ↔ ¬ v.Prints heap := by
  rw [prints_iff_exists, not_exists]
  exact forall_congr' fun room ↦ (print_eq_none_iff style room v).trans not_not.symm

/-! ## Exposed atoms -/

/-- The atom shows in the text of the value, however far down. -/
def Exposes (heap : Heap) (v : Value) (a : AtomId) : Prop :=
  Relation.ReflTransGen (fun v w ↦ w ∈ v.shown heap) v (.atom a)

namespace Exposes

theorem here : Exposes heap (.atom a) a := .refl

theorem inside (hw : w ∈ v.shown heap) (h : w.Exposes heap a) : v.Exposes heap a :=
  .head hw h

/-- What shows in the content of an exposed atom is exposed. -/
theorem trans (h : v.Exposes heap a) (hb : (heap.content a).Exposes heap b) :
    v.Exposes heap b :=
  Relation.ReflTransGen.trans h (.head List.mem_cons_self hb)

/-- A way down from an exposed atom is one from the value. -/
theorem descends (h : v.Exposes heap a) (ha : Descends heap n (.atom a)) : Descends heap n v := by
  induction h using Relation.ReflTransGen.head_induction_on with
  | refl => exact ha
  | head hw _ ih => exact .of_mem_shown hw ih

/-- **An atom that is exposed by its own content** has ways down of any length. -/
theorem descends_atom (h : (heap.content a).Exposes heap a) (n : Nat) :
    Descends heap n (.atom a) := by
  induction n with
  | zero => trivial
  | succ n ih => exact ⟨heap.content a, List.mem_cons_self, h.descends ih⟩

end Exposes

/-- An atom that holds itself does not print, whatever the room. -/
theorem print_atom_eq_none {style : PrintStyle} (h : heap.content a = .atom a) (room : Nat) :
    (atom a).print heap style room = none := by
  have hback : (heap.content a).Exposes heap a := h ▸ .here
  exact (print_eq_none_iff style room _).2 (hback.descends_atom room)

/-! ## Values without a way back -/

/-- Except for the content of an atom, what shows in a value is smaller. -/
theorem sizeOf_lt_of_mem_shown (hv : ∀ a, v ≠ .atom a) (hw : w ∈ v.shown heap) :
    sizeOf w < sizeOf v := by
  cases v with
  | list l items =>
    have hlt : sizeOf w < sizeOf items := List.sizeOf_lt_of_mem hw
    simp only [list.sizeOf_spec]
    omega
  | vec items =>
    have hlt : sizeOf w < sizeOf items := List.sizeOf_lt_of_mem hw
    simp only [vec.sizeOf_spec]
    omega
  | map l d =>
    obtain ⟨e, he, rfl⟩ := List.mem_map.1 hw
    have hlt := sizeOf_lt_of_mem_entries he
    simp only [map.sizeOf_spec]
    omega
  | atom a => exact absurd rfl (hv a)
  | withMeta u data =>
    obtain rfl := List.mem_singleton.1 hw
    simp only [withMeta.sizeOf_spec]
    omega
  | _ => cases hw

/-- An atom that was never made holds `nil`. -/
theorem prints_atom_of_size_le (ha : heap.size ≤ a) : (Value.atom a).Prints heap := by
  have hnil : heap.content a = .nil := by
    rw [Heap.content, Array.getElem?_eq_none ha, Option.getD_none]
  exact ⟨2, by rw [print, hnil]; rfl⟩

/-- A value prints if the atoms that it exposes do, as far as they were made. -/
theorem prints_of_exposes (v : Value)
    (h : ∀ a < heap.size, v.Exposes heap a → (Value.atom a).Prints heap) : v.Prints heap := by
  by_cases hv : ∃ a, v = .atom a
  · obtain ⟨a, rfl⟩ := hv
    rcases Nat.lt_or_ge a heap.size with hmade | hnever
    · exact h a hmade .here
    · exact prints_atom_of_size_le hnever
  · refine prints_iff_shown.2 fun w hw ↦ ?_
    have hlt := sizeOf_lt_of_mem_shown (fun a ha ↦ hv ⟨a, ha⟩) hw
    exact prints_of_exposes w fun a hmade ha ↦ h a hmade (ha.inside hw)
termination_by sizeOf v

/-- Of the atoms that a value exposes, one shows through the content of the other. -/
def Follows (heap : Heap) (v : Value) (b a : {a : Fin heap.size // v.Exposes heap a}) : Prop :=
  (heap.content a.1).Exposes heap b.1

/-- The atoms that were made are finitely many, so going from content to content ends unless it
comes back. -/
theorem wellFounded_follows (h : ∀ a, v.Exposes heap a → ¬ (heap.content a).Exposes heap a) :
    WellFounded (Follows heap v) := by
  have htrans : IsTrans _ (Follows heap v) := ⟨fun _ _ _ hcb hba ↦ Exposes.trans hba hcb⟩
  have hirrefl : Std.Irrefl (Follows heap v) := ⟨fun a ↦ h a.1 a.2⟩
  exact Finite.wellFounded_of_trans_of_irrefl (Follows heap v)

/-- **Without a way back a value prints.** -/
theorem prints_of_forall_not (h : ∀ a, v.Exposes heap a → ¬ (heap.content a).Exposes heap a) :
    v.Prints heap := by
  have hatom (a : {a : Fin heap.size // v.Exposes heap a}) : (Value.atom a.1).Prints heap := by
    induction a using (wellFounded_follows h).induction with
    | h a ih =>
      refine prints_iff_shown.2 fun w hw ↦ ?_
      obtain rfl := List.mem_singleton.1 hw
      exact prints_of_exposes _ fun b hmade hb ↦ ih ⟨⟨b, hmade⟩, a.2.trans hb⟩ hb
  exact prints_of_exposes v fun a hmade ha ↦ hatom ⟨⟨a, hmade⟩, ha⟩

theorem prints_iff_acyclic :
    v.Prints heap ↔ ∀ a, v.Exposes heap a → ¬ (heap.content a).Exposes heap a := by
  refine ⟨fun hprints a ha hback ↦ ?_, prints_of_forall_not⟩
  obtain ⟨n, hn⟩ := prints_iff_exists.1 hprints
  exact hn (ha.descends (hback.descends_atom n))

end Value

/-! ## Sessions -/

namespace Session

/-- The evaluation of a text has no trouble with printing. -/
theorem eval_ne_printTooDeep (w : World) (source : String) (s s' : Store) :
    eval w source s ≠ .error .printTooDeep s' := by
  rw [eval_apply]
  split
  · rw [evalForm, perform]
    split <;> simp
  · rename_i f _
    cases f <;> simp [Trouble.ofReadFault]

/-- **The one trouble with printing** is a value that nests too deeply. -/
theorem rep_eq_printTooDeep_iff (w : World) (source : String) (s s' : Store) :
    rep w source s = .error .printTooDeep s' ↔
      ∃ v, eval w source s = .ok v s' ∧ v.Descends s'.atoms w.depth := by
  rw [rep_apply]
  cases heval : eval w source s with
  | ok v s₁ =>
    simp only [EStateM.Result.ok.injEq]
    constructor
    · intro h
      split at h
      · cases h
      · rename_i hprint
        cases h
        exact ⟨v, ⟨rfl, rfl⟩, (Value.print_eq_none_iff .readable w.depth v).1 hprint⟩
    · rintro ⟨v', ⟨rfl, rfl⟩, hdescends⟩
      rw [(Value.print_eq_none_iff .readable w.depth v).2 hdescends]
  | error trouble s₁ =>
    refine iff_of_false (fun h ↦ ?_) (by simp)
    cases h
    exact eval_ne_printTooDeep w source s s' heval

end Session

open Value in
/-- **Printing ends exactly if no atom leads back to itself.**  In either style a value has no text
in some room exactly if there is a way down from it that is as long.  It has a text, the same in all
the room there is from some point on, exactly if no atom that it exposes is exposed by its own
content; otherwise no room suffices.  So a session fails to print the value of a text only where
that value nests as deeply as it may. -/
theorem prints_exactly_without_cycles :
    (∀ (heap : Heap) (v : Value) (style : PrintStyle),
      (∀ room, v.print heap style room = none ↔ v.Descends heap room) ∧
      ((∃ text enough, ∀ room, enough ≤ room → v.print heap style room = some text) ↔
        ∀ a, v.Exposes heap a → ¬ (heap.content a).Exposes heap a) ∧
      ((∀ room, v.print heap style room = none) ↔
        ∃ a, v.Exposes heap a ∧ (heap.content a).Exposes heap a)) ∧
    (∀ (w : World) (source : String) (s s' : Store),
      Session.rep w source s = .error .printTooDeep s' ↔
        ∃ v, Session.eval w source s = .ok v s' ∧ v.Descends s'.atoms w.depth) := by
  refine ⟨fun heap v style ↦ ⟨fun room ↦ print_eq_none_iff style room v, ?_, ?_⟩,
    Session.rep_eq_printTooDeep_iff⟩
  · rw [exists_text_iff, prints_iff_acyclic]
  · rw [forall_print_eq_none_iff, prints_iff_acyclic]
    simp only [not_forall, not_not, exists_prop]

end Lisplet
