import Lisplet.Store

/-!
# Stores only grow

Evaluation makes frames and atoms and binds names.  It never takes any of these back: a frame keeps
its number and the frame outside it, a name that is bound stays bound and keeps its place among the
names of its frame, and an atom keeps its number.  What may change is what a name is bound to and
what an atom holds.

`Store.Extends s s'` says that `s'` came about from `s` in this way.  Whatever depends only on the
shape of a store, above all which frame lies outside another, is read off the smaller store
(`Extends.outer?_eq`).
-/

set_option autoImplicit false

namespace Lisplet

/-- Assigning a value to a key keeps every key in its place. -/
theorem Dict.keys_prefix_insert {κ α : Type} [DecidableEq κ] (d : Dict κ α) (k : κ) (v : α) :
    d.keys <+: (d.insert k v).keys := by
  by_cases h : k ∈ d.keys
  · exact (Dict.keys_insert_of_mem h).symm ▸ List.prefix_refl d.keys
  · rw [Dict.keys_insert_of_not_mem h]
    exact List.prefix_append _ _

namespace Store

/-- What a store can become: frames keep what is outside them and their names in order, and nothing
is removed. -/
structure Extends (s s' : Store) : Prop where
  frames : ∀ (f : FrameId) (fr : Frame), s.frames[f]? = some fr →
    ∃ fr' : Frame, s'.frames[f]? = some fr' ∧ fr'.outer = fr.outer ∧ fr.vars.keys <+: fr'.vars.keys
  atoms : s.atoms.size ≤ s'.atoms.size

variable {s s' s'' : Store} {f : FrameId}

namespace Extends

theorem refl (s : Store) : s.Extends s :=
  ⟨fun _ fr h ↦ ⟨fr, h, rfl, List.prefix_refl _⟩, Nat.le_refl _⟩

theorem trans (h : s.Extends s') (h' : s'.Extends s'') : s.Extends s'' := by
  refine ⟨fun f fr hf ↦ ?_, Nat.le_trans h.atoms h'.atoms⟩
  obtain ⟨fr', hf', ho, hk⟩ := h.frames f fr hf
  obtain ⟨fr'', hf'', ho', hk'⟩ := h'.frames f fr' hf'
  exact ⟨fr'', hf'', ho'.trans ho, hk.trans hk'⟩

/-- A store with the same frames and at least as many atoms. -/
theorem of_frames_eq (hf : s'.frames = s.frames) (ha : s.atoms.size ≤ s'.atoms.size) :
    s.Extends s' := by
  refine ⟨fun f fr h ↦ ⟨fr, ?_, rfl, List.prefix_refl _⟩, ha⟩
  rw [hf]
  exact h

theorem frames_size_le (h : s.Extends s') : s.frames.size ≤ s'.frames.size := by
  cases hs : s.frames.size with
  | zero => exact Nat.zero_le _
  | succ n =>
    have hn : n < s.frames.size := by omega
    obtain ⟨fr', hf', -⟩ := h.frames n _ (Array.getElem?_eq_getElem hn)
    obtain ⟨hn', -⟩ := Array.getElem?_eq_some_iff.1 hf'
    exact hn'

/-- **What is outside a frame never changes.** -/
theorem outer?_eq (h : s.Extends s') (hf : f < s.frames.size) : s'.outer? f = s.outer? f := by
  obtain ⟨fr', hf', ho, -⟩ := h.frames f _ (Array.getElem?_eq_getElem hf)
  rw [outer?, outer?, hf', Array.getElem?_eq_getElem hf]
  simp [ho]

end Extends

/-- Outside a frame that is not there is nothing. -/
theorem lt_size_of_isSome_outer? (h : (s.outer? f).isSome) : f < s.frames.size := by
  obtain ⟨g, hg⟩ := Option.isSome_iff_exists.1 h
  rw [outer?, Option.filter_eq_some_iff] at hg
  obtain ⟨fr, hfr, -⟩ := Option.bind_eq_some_iff.1 hg.1
  exact (Array.getElem?_eq_some_iff.1 hfr).1

/-! ## The operations on a store -/

theorem extends_define (s : Store) (f : FrameId) (name : String) (v : Value) :
    s.Extends (s.define f name v) := by
  refine ⟨fun g fr hg ↦ ?_, Nat.le_refl _⟩
  by_cases h : f = g
  · refine ⟨{ fr with vars := fr.vars.insert name v }, ?_, rfl, Dict.keys_prefix_insert _ _ _⟩
    simp [define, Array.getElem?_modify, h, hg]
  · refine ⟨fr, ?_, rfl, List.prefix_refl _⟩
    simp [define, Array.getElem?_modify, h, hg]

theorem extends_addFrame (s : Store) (outer : Option FrameId) (vars : Dict String Value) :
    s.Extends (s.addFrame outer vars).2 := by
  refine ⟨fun g fr hg ↦ ⟨fr, ?_, rfl, List.prefix_refl _⟩, Nat.le_refl _⟩
  have hlt : g < s.frames.size := (Array.getElem?_eq_some_iff.1 hg).1
  simp only [addFrame, Array.getElem?_push, if_neg (Nat.ne_of_lt hlt), hg]

theorem extends_addAtom (s : Store) (v : Value) : s.Extends (s.addAtom v).2 :=
  .of_frames_eq rfl (by simp [addAtom])

theorem extends_setAtom (s : Store) (a : AtomId) (v : Value) : s.Extends (s.setAtom a v) :=
  .of_frames_eq rfl (by simp [setAtom])

theorem extends_nextSerial (s : Store) : s.Extends s.nextSerial.2 :=
  .of_frames_eq rfl (Nat.le_refl _)

theorem extends_write (s : Store) (text : String) : s.Extends (s.write text) :=
  .of_frames_eq rfl (Nat.le_refl _)

/-- The outermost frame around a frame has none outside it. -/
theorem outer?_topLevel (s : Store) (f : FrameId) : s.outer? (s.topLevel f) = none := by
  fun_induction topLevel s f with
  | case1 f g h ih => exact ih
  | case2 f h => exact h

theorem topLevel_le (s : Store) (f : FrameId) : s.topLevel f ≤ f := by
  fun_induction topLevel s f with
  | case1 f g h ih => exact Nat.le_trans ih (Nat.le_of_lt (lt_of_outer? h))
  | case2 f h => exact Nat.le_refl _

end Store

end Lisplet
