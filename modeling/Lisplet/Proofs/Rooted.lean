import Lisplet.Proofs.Extension
import Lisplet.Proofs.Session

/-!
# The frames of a session

In a session the frames form one tree: frame zero has nothing outside it, and every other frame has
an older one (`Store.Rooted`).  So the way outwards from a frame ends, at frame zero, and the
look-up of a name does what it would do if it never checked that the next frame is older
(`Rooted.grounded`).

As a store grows, a name that is found from a frame stays found from it
(`Store.Extends.isSome_find?`).
-/

set_option autoImplicit false

namespace Lisplet.Store

/-- Frame zero has nothing outside it; every other frame has an older one. -/
structure Rooted (s : Store) : Prop where
  top : s.frames[Session.topLevel]?.map Frame.outer = some none
  older : ∀ f : FrameId, Session.topLevel < f → f < s.frames.size →
    ∃ g, g < f ∧ s.frames[f]?.map Frame.outer = some (some g)

/-- The way outwards ends, no look-up is cut short, and the outermost frame is frame zero. -/
structure Grounded (s : Store) : Prop where
  wellFounded : WellFounded fun g f : FrameId ↦ s.frames[f]?.map Frame.outer = some (some g)
  outer?_eq : ∀ f, s.outer? f = s.frames[f]?.bind Frame.outer
  topLevel_eq : ∀ f, f < s.frames.size → s.topLevel f = Session.topLevel

variable {s s' : Store} {f g : FrameId}

namespace Rooted

theorem lt_size (h : s.Rooted) : Session.topLevel < s.frames.size := by
  obtain ⟨fr, hfr, -⟩ := Option.map_eq_some_iff.1 h.top
  exact (Array.getElem?_eq_some_iff.1 hfr).1

theorem lt_of_outer (h : s.Rooted) (hg : s.frames[f]?.map Frame.outer = some (some g)) :
    g < f := by
  rcases Nat.eq_zero_or_pos f with rfl | hpos
  · have htop := h.top.symm.trans hg
    simp at htop
  · obtain ⟨fr, hfr, -⟩ := Option.map_eq_some_iff.1 hg
    obtain ⟨g', hlt, hg'⟩ := h.older f hpos (Array.getElem?_eq_some_iff.1 hfr).1
    obtain rfl : g' = g := Option.some.inj (Option.some.inj (hg'.symm.trans hg))
    exact hlt

theorem outer?_eq (h : s.Rooted) (f : FrameId) :
    s.outer? f = s.frames[f]?.bind Frame.outer := by
  rw [outer?]
  cases hfr : s.frames[f]? with
  | none => rfl
  | some fr =>
    cases ho : fr.outer with
    | none => simp [ho]
    | some g =>
      have hlt : g < f := h.lt_of_outer (by simp [hfr, ho])
      simp [ho, hlt]

/-- Every frame but frame zero has another one outside it. -/
theorem isSome_outer? (h : s.Rooted) (hpos : f ≠ Session.topLevel) (hf : f < s.frames.size) :
    (s.outer? f).isSome := by
  obtain ⟨g, -, hg⟩ := h.older f (Nat.pos_of_ne_zero hpos) hf
  obtain ⟨fr, hfr, ho⟩ := Option.map_eq_some_iff.1 hg
  rw [h.outer?_eq, hfr, Option.bind_some, ho]
  rfl

/-- **Frames with one root**: every way outwards ends there. -/
theorem grounded (h : s.Rooted) : s.Grounded := by
  refine ⟨?_, h.outer?_eq, fun f hf ↦ ?_⟩
  · exact Subrelation.wf (fun hg ↦ h.lt_of_outer hg) Nat.lt_wfRel.wf
  · have hle : s.topLevel f < s.frames.size := Nat.lt_of_le_of_lt (s.topLevel_le f) hf
    refine Decidable.byContradiction fun hne ↦ ?_
    have hsome : (s.outer? (s.topLevel f)).isSome := h.isSome_outer? hne hle
    rw [outer?_topLevel] at hsome
    simp at hsome

/-! ### The operations keep it -/

theorem congr (h : s.Rooted) (hf : s'.frames = s.frames) : s'.Rooted := by
  refine ⟨?_, fun f hpos hlt ↦ ?_⟩
  · rw [hf]
    exact h.top
  · rw [hf] at hlt ⊢
    exact h.older f hpos hlt

theorem define (h : s.Rooted) (f : FrameId) (name : String) (v : Value) :
    (s.define f name v).Rooted := by
  have houter (g : FrameId) : (s.define f name v).frames[g]?.map Frame.outer =
      s.frames[g]?.map Frame.outer := by
    rw [Store.define, Array.getElem?_modify]
    split
    · cases s.frames[g]? <;> rfl
    · rfl
  refine ⟨(houter _).trans h.top, fun g hpos hlt ↦ ?_⟩
  obtain ⟨g', hlt', hg'⟩ := h.older g hpos (by simpa [Store.define] using hlt)
  exact ⟨g', hlt', (houter g).trans hg'⟩

theorem addFrame (h : s.Rooted) (hf : f < s.frames.size) (vars : Dict String Value) :
    (s.addFrame (some f) vars).2.Rooted := by
  have hold (g : FrameId) (hg : g < s.frames.size) :
      (s.addFrame (some f) vars).2.frames[g]? = s.frames[g]? := by
    rw [Store.addFrame, Array.getElem?_push, if_neg (Nat.ne_of_lt hg)]
  refine ⟨?_, fun g hpos hlt ↦ ?_⟩
  · rw [hold _ h.lt_size]
    exact h.top
  · rcases Nat.lt_or_ge g s.frames.size with hg | hg
    · rw [hold g hg]
      exact h.older g hpos hg
    · obtain rfl : g = s.frames.size := by
        simp only [Store.addFrame, Array.size_push] at hlt
        exact Nat.le_antisymm (Nat.le_of_lt_succ hlt) hg
      refine ⟨f, hf, ?_⟩
      simp [Store.addFrame]

end Rooted

/-! ## Names that are found -/

/-- A name that a frame binds stays bound in it. -/
theorem Extends.isSome_own? (h : s.Extends s') {name : String}
    (ho : (s.own? f name).isSome) : (s'.own? f name).isSome := by
  obtain ⟨v, hv⟩ := Option.isSome_iff_exists.1 ho
  obtain ⟨fr, hfr, hv⟩ := Option.bind_eq_some_iff.1 hv
  obtain ⟨fr', hfr', -, hkeys⟩ := h.frames f fr hfr
  have hmem : name ∈ fr.vars.keys := by
    rw [← Dict.contains_eq_true_iff, Dict.contains, hv]
    rfl
  have hmem' : name ∈ fr'.vars.keys := hkeys.subset hmem
  rw [own?, hfr']
  exact Dict.contains_eq_true_iff.2 hmem'

/-- **A name that is found from a frame stays found from it.** -/
theorem Extends.isSome_find? (h : s.Extends s') (hf : f < s.frames.size) {name : String}
    (hn : (s.find? f name).isSome) : (s'.find? f name).isSome := by
  induction f using Nat.strongRecOn with
  | ind f ih =>
    rw [find?] at hn ⊢
    split
    · rfl
    · rename_i hown
      rw [if_neg fun ho ↦ hown (h.isSome_own? ho)] at hn
      rw [h.outer?_eq hf]
      split at hn
      · rename_i g hg
        have hlt : g < f := lt_of_outer? hg
        exact ih g hlt (Nat.lt_trans hlt hf) hn
      · simp at hn

end Lisplet.Store
