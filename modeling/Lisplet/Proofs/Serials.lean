import Lisplet.Proofs.Renaming.Run
import Lisplet.Proofs.Session
import Mathlib.Order.Monotone.Basic

/-!
# Serial numbers are used when they have been handed out

All serial numbers in a store are below the count of those that have been handed out, and so are
those in every value or thrown value that evaluation comes to.  So the next number is always a new
one, and to renumber what will be handed out changes nothing that is there already.

There is no case analysis of the evaluator here.  Evaluation is the same for other numbers
(`Renumbering.tracks_run`); so let the numbers above the last count be others.  Nothing that
evaluation started from has them, so it ends as it did; hence nothing that it came to has them
either (`ends_below`).
-/

set_option autoImplicit false

namespace Lisplet

/-! ## The numbers in a value -/

namespace Dict

variable {κ α β : Type} {f g : α → β} {d : Dict κ α}

theorem map_eq_map_iff : d.map f = d.map g ↔ ∀ e ∈ d.entries, f e.2 = g e.2 := by
  simp [map, List.map_inj_left]

theorem map_id (d : Dict κ α) : d.map id = d := by
  rw [map]
  exact congrArg Dict.mk (List.map_id d.entries)

end Dict

namespace Value

variable {ρ σ : Nat → Nat} {v : Value} {m n : Nat}

/-- The serial number that a value has itself. -/
def serial? : Value → Option Nat
  | list l _ | map l _ => l.map Label.serial
  | fn c => some c.serial
  | _ => none

/-- **All serial numbers in a value are below `n`.** -/
def Below (n : Nat) (v : Value) : Prop := v.All fun w ↦ ∀ i ∈ w.serial?, i < n

theorem all_iff {p : Value → Prop} : v.All p ↔ p v ∧ ∀ w ∈ v.parts, w.All p :=
  ⟨fun h ↦ ⟨h.here, fun _ ↦ h.inside⟩, fun h ↦ .intro h.1 h.2⟩

/-- What is true of a value if it is true of its parts, is true of every value. -/
theorem parts_induction {P : Value → Prop} (h : ∀ v, (∀ w ∈ v.parts, P w) → P v) (v : Value) :
    P v := by
  induction v.all_of_forall (fun _ ↦ trivial : ∀ _, True) with
  | intro _ _ ih => exact h _ ih

theorem rename_id (v : Value) : v.rename id = v := by
  induction v using parts_induction with
  | h v ih =>
    have hlabel (l : Option Label) : l.map (Label.rename id) = l := by cases l <;> rfl
    cases v with
    | list l items | vec items =>
      have hitems : items.map (Value.rename id) = items :=
        (List.map_congr_left ih).trans (List.map_id _)
      simp [hitems, hlabel]
    | map l d =>
      have hd : d.map (Value.rename id) = d := by
        refine (Dict.map_eq_map_iff.2 fun e he ↦ ?_).trans d.map_id
        exact ih e.2 (List.mem_flatMap.2 ⟨e, he, by simp⟩)
      simp [hd, hlabel]
    | fn c =>
      have hbody : c.body.rename id = c.body := ih c.body List.mem_cons_self
      rw [rename_fn, Closure.rename, hbody]
      rfl
    | withMeta v data => simp [ih v (by simp [parts]), ih data (by simp [parts])]
    | _ => simp

/-- Two renamings do the same to a value if they do to its own number and to its parts. -/
theorem rename_eq_rename_iff_parts :
    v.rename ρ = v.rename σ ↔
      (∀ i ∈ v.serial?, ρ i = σ i) ∧ ∀ w ∈ v.parts, w.rename ρ = w.rename σ := by
  have hlabel (l : Option Label) : l.map (Label.rename ρ) = l.map (Label.rename σ) ↔
      ∀ i ∈ l.map Label.serial, ρ i = σ i := by
    cases l <;> simp [Label.rename]
  cases v with
  | list l items => simp [serial?, parts, hlabel, List.map_inj_left]
  | vec items => simp [serial?, parts, List.map_inj_left]
  | map l d =>
    have hparts : (∀ w ∈ (map l d).parts, w.rename ρ = w.rename σ) ↔
        ∀ e ∈ d.entries, e.2.rename ρ = e.2.rename σ := by
      constructor
      · exact fun h e he ↦ h e.2 (List.mem_flatMap.2 ⟨e, he, by simp⟩)
      · intro h w hw
        obtain ⟨e, he, hw⟩ := List.mem_flatMap.1 hw
        rcases List.mem_cons.1 hw with rfl | hw
        · simp
        · exact List.mem_singleton.1 hw ▸ h e he
    rw [rename_map, rename_map, map.injEq, hlabel, hparts, Dict.map_eq_map_iff]
    rfl
  | fn c => simp [serial?, parts, Closure.rename]
  | withMeta v data => simp [serial?, parts]
  | _ => simp [serial?, parts]

/-- **Two renamings do the same to a value** if they do to each number in it. -/
theorem rename_eq_rename_iff :
    v.rename ρ = v.rename σ ↔ v.All fun w ↦ ∀ i ∈ w.serial?, ρ i = σ i := by
  induction v using parts_induction with
  | h v ih =>
    rw [all_iff, rename_eq_rename_iff_parts]
    exact and_congr_right fun _ ↦ forall₂_congr ih

/-- Renamings that differ only from `n` on do the same to a value below `n`. -/
theorem Below.rename_congr (h : v.Below n) (hn : ∀ i < n, ρ i = σ i) : v.rename ρ = v.rename σ :=
  rename_eq_rename_iff.2 (h.mono fun _ hw i hi ↦ hn i (hw i hi))

/-- A renaming that leaves the numbers below `n` alone leaves a value below `n` alone. -/
theorem Below.rename_eq (h : v.Below n) (hn : ∀ i < n, ρ i = i) : v.rename ρ = v :=
  (h.rename_congr hn).trans v.rename_id

theorem Below.mono (h : v.Below m) (hmn : m ≤ n) : v.Below n :=
  All.mono (fun _ hw i hi ↦ Nat.lt_of_lt_of_le (hw i hi) hmn) h

/-- What has no number is below every one. -/
theorem below_of_forall_rename (h : ∀ ρ, v.rename ρ = v) (n : Nat) : v.Below n := by
  have hsucc : v.rename Nat.succ = v.rename id := (h _).trans (h _).symm
  exact (rename_eq_rename_iff.1 hsucc).mono fun _ hw i hi ↦ (Nat.succ_ne_self i (hw i hi)).elim

end Value

/-! ## The numbers in a store -/

namespace Store

variable {ρ σ : Nat → Nat} {s : Store} {m n c : Nat}

/-- **All serial numbers in a store are below `n`**: in what its frames bind and in what its atoms
hold. -/
structure Below (n : Nat) (s : Store) : Prop where
  bound : ∀ fr ∈ s.frames, ∀ e ∈ fr.vars.entries, e.2.Below n
  stored : ∀ v ∈ s.atoms, v.Below n

/-- All serial numbers in a store have been handed out. -/
def IsNumbered (s : Store) : Prop := s.Below s.serials

theorem rename_eq_rename_iff : s.rename ρ c = s.rename σ c ↔
    (∀ fr ∈ s.frames, ∀ e ∈ fr.vars.entries, e.2.rename ρ = e.2.rename σ) ∧
      ∀ v ∈ s.atoms, v.rename ρ = v.rename σ := by
  simp [rename, Heap.rename, Frame.rename, Array.map_inj_left, Dict.map_eq_map_iff]

theorem rename_id (s : Store) : s.rename id s.serials = s := by
  have hvalue : Value.rename id = id := funext Value.rename_id
  have hframe : Frame.rename id = id := by
    funext fr
    rw [Frame.rename, hvalue, Dict.map_id]
    rfl
  rw [rename, hframe, Heap.rename, hvalue, Array.map_id, Array.map_id]

theorem Below.rename_congr (h : s.Below n) (hn : ∀ i < n, ρ i = σ i) (c : Nat) :
    s.rename ρ c = s.rename σ c :=
  rename_eq_rename_iff.2 ⟨fun fr hfr e he ↦ (h.bound fr hfr e he).rename_congr hn,
    fun v hv ↦ (h.stored v hv).rename_congr hn⟩

theorem Below.rename_eq (h : s.Below n) (hn : ∀ i < n, ρ i = i) : s.rename ρ s.serials = s :=
  (h.rename_congr hn _).trans s.rename_id

end Store

/-! ## Evaluation -/

/-- The numbers from `n` on make way for one more. -/
def bump (n i : Nat) : Nat := if i < n then i else i + 1

section

variable {n : Nat}

theorem bump_eq_iff {i : Nat} : bump n i = i ↔ i < n := by
  rw [bump]
  split <;> omega

theorem strictMono_bump (n : Nat) : StrictMono (bump n) := by
  intro i j hij
  rw [bump, bump]
  split <;> split <;> omega

/-- A value that does not change when the numbers from `n` on do is below `n`. -/
theorem Value.below_of_bump {v : Value} (h : v.rename (bump n) = v) :
    v.Below n :=
  (rename_eq_rename_iff.1 (h.trans v.rename_id.symm)).mono fun _ hw i hi ↦
    bump_eq_iff.1 (hw i hi)

/-- So is a store. -/
theorem Store.below_of_bump {s : Store}
    (h : s.rename (bump n) s.serials = s) : s.Below n := by
  obtain ⟨hbound, hstored⟩ := rename_eq_rename_iff.1 (h.trans s.rename_id.symm)
  exact ⟨fun fr hfr e he ↦ Value.below_of_bump ((hbound fr hfr e he).trans e.2.rename_id),
    fun v hv ↦ Value.below_of_bump ((hstored v hv).trans v.rename_id)⟩

end

/-- **All that a computation comes to has been numbered**, if it is the same for other numbers. -/
theorem ends_numbered {s : Store} {x : Eval Value} (hs : s.IsNumbered)
    (hx : ∀ R : Renumbering, (∀ i < s.serials, R.serial i = i) →
      R.Tracks (Value.rename R.serial) x x) :
    Ends Store.IsNumbered (fun s' v ↦ v.Below s'.serials) (x s) := by
  generalize hn : (finalStore (x s)).serials = n
  have hle : s.serials ≤ n := hn ▸ (hx ⟨id, id, fun _ _ h ↦ h⟩ (fun _ _ ↦ rfl) s).1
  have hold : ∀ i < s.serials, bump n i = i :=
    fun i hi ↦ bump_eq_iff.2 (Nat.lt_of_lt_of_le hi hle)
  let R : Renumbering := ⟨bump n, id, (strictMono_bump n).injective⟩
  have hstore : R.store s = s := hs.rename_eq hold
  obtain ⟨-, hrun⟩ := hx R hold s
  replace hrun := hrun fun i _ hi ↦ ⟨bump_eq_iff.2 (hn ▸ hi), rfl⟩
  rw [hstore] at hrun
  cases hr : x s with
  | ok v s' =>
    rw [hr] at hrun hn
    obtain ⟨hv, hs'⟩ := EStateM.Result.ok.inj hrun
    obtain rfl : s'.serials = n := hn
    exact ⟨Store.below_of_bump hs'.symm, Value.below_of_bump hv.symm⟩
  | error e s' =>
    rw [hr] at hrun hn
    obtain ⟨he, hs'⟩ := EStateM.Result.error.inj hrun
    obtain rfl : s'.serials = n := hn
    have hnumbered : s'.IsNumbered := Store.below_of_bump hs'.symm
    cases e with
    | thrown payload =>
      exact ⟨hnumbered, Value.below_of_bump (Failure.thrown.inj he).symm⟩
    | _ => exact hnumbered

theorem Ends.final {S : Store → Prop} {V : Store → Value → Prop}
    {r : EStateM.Result Failure Store Value} (h : Ends S V r) : S (finalStore r) := by
  match r, h with
  | .ok _ _, h | .error (.thrown _) _, h => exact h.1
  | .error (.error _ _) _, h | .error .overflow _, h | .error (.crashed _) _, h
  | .error .exhausted _, h | .error (.unread _) _, h => exact h

/-- **Evaluation keeps all numbers below the count.** -/
theorem Store.IsNumbered.run {s : Store} (hs : s.IsNumbered) {form : Value}
    (hform : form.Below s.serials) (disk : Disk) (steps room : Nat) (scope : FrameId) :
    Ends Store.IsNumbered (fun s' v ↦ v.Below s'.serials)
      (run disk steps room [] (.eval form scope) s) := by
  refine ends_numbered hs fun R hR ↦ ?_
  have hrun := Renumbering.tracks_run (R := R) disk steps room [] (.eval form scope)
  rwa [Task.rename, hform.rename_eq hR] at hrun

/-! ## Sessions -/

namespace Session

theorem isNumbered_bare : bare.IsNumbered := by
  refine ⟨fun fr hfr e he ↦ ?_, fun v hv ↦ by simp [atoms_bare] at hv⟩
  obtain ⟨i, hi⟩ := Array.mem_iff_getElem?.1 hfr
  obtain ⟨op, hop⟩ := exists_of_mem_bare hi he
  exact Value.below_of_forall_rename (fun ρ ↦ by rw [hop]; simp) _

/-- **In every state of every session all serial numbers have been handed out.** -/
theorem Reachable.isNumbered {s : Store} (h : Reachable anything s) : s.IsNumbered := by
  refine h.induction ?_ ?_ ?_ isNumbered_bare
  · intro w source form s _ hread hs
    have hform : form.Below s.serials :=
      Value.below_of_forall_rename (fun ρ ↦ Reader.rename_eq_of_read hread) _
    exact (hs.run hform w.disk w.steps w.depth topLevel).final
  · intro s args hs
    refine Store.below_of_bump ?_
    have hold : ∀ i < s.serials, bump s.serials i = i :=
      fun i hi ↦ bump_eq_iff.2 hi
    rw [Store.define_rename]
    exact congrArg₂ (Store.define · topLevel "*ARGV*" ·) (hs.rename_eq hold) (by simp)
  · exact fun s hs ↦ ⟨hs.bound, hs.stored⟩

end Session

end Lisplet
