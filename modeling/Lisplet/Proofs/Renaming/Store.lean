import Lisplet.Eval.Run
import Lisplet.Proofs.Renaming

/-!
# Stores and failures with new serial numbers

A store with new serial numbers in what its frames bind and its atoms hold (`Store.rename`) also has
a count of its own of the numbers handed out: where the numbering starts again is up to whoever
renames.  The frames and atoms stay where they are, so names are looked up along the same frames.

Errors hold the values that they are about.  What they say is the same with new numbers, so that a
failure is renamed without its words (`EvalError.message_rename`).
-/

set_option autoImplicit false

namespace Lisplet

variable (ρ : Nat → Nat)

/-! ## Failures -/

/-- A wrong kind of value, with new serial numbers. -/
def TypeError.rename : TypeError → TypeError
  | operand op wanted got => operand op wanted (got.rename ρ)
  | integers op a b => integers op (a.rename ρ) (b.rename ρ)
  | key op got => key op (got.rename ρ)
  | unreadableName op text cause => unreadableName op text cause
  | otherName op text => otherName op text
  | macroSource got => macroSource (got.rename ρ)
  | parameterList got => parameterList (got.rename ρ)
  | parameterName got => parameterName (got.rename ρ)

/-- An error with new serial numbers in the values it is about. -/
def EvalError.rename : EvalError → EvalError
  | notFunction head value => notFunction (head.rename ρ) (value.rename ρ)
  | notApplicable value => notApplicable (value.rename ρ)
  | arity e => arity e
  | type e => type (e.rename ρ)
  | restMarker => restMarker
  | unbound name => unbound name
  | definedName got => definedName (got.rename ρ)
  | macroName got => macroName (got.rename ρ)
  | bindingList => bindingList
  | bindingName got => bindingName (got.rename ρ)
  | catchClause clause => catchClause (clause.rename ρ)
  | unreadable cause => unreadable cause
  | file path fault => file path fault

/-- A fault with new serial numbers. -/
def Fault.rename : Fault → Fault
  | error e => error (e.rename ρ)
  | thrown payload => thrown (payload.rename ρ)
  | tooDeep => tooDeep

/-- A failure with new serial numbers; its message stays as it is. -/
def Failure.rename : Failure → Failure
  | error e message => error (e.rename ρ) message
  | thrown payload => thrown (payload.rename ρ)
  | overflow => overflow
  | crashed c => crashed c
  | exhausted => exhausted
  | unread path => unread path

section

variable {ρ} (hρ : Function.Injective ρ) (heap : Heap) (room : Nat)
include hρ

theorem TypeError.message_rename (e : TypeError) :
    (e.rename ρ).message (heap.rename ρ) room = e.message heap room := by
  cases e <;> simp [rename, message, Value.describe_rename heap hρ]

/-- **Errors say the same with new serial numbers**, if these stay different. -/
theorem EvalError.message_rename (e : EvalError) :
    (e.rename ρ).message (heap.rename ρ) room = e.message heap room := by
  cases e <;> simp [rename, message, Value.describe_rename heap hρ, TypeError.message_rename hρ]

end

/-! ## Stores -/

/-- What a frame binds, with new serial numbers. -/
def Frame.rename (fr : Frame) : Frame := { fr with vars := fr.vars.map (Value.rename ρ) }

namespace Store

variable (c : Nat) (s : Store)

/-- **A store with new serial numbers for old ones**, of which `c` have been handed out. -/
def rename : Store where
  frames := s.frames.map (Frame.rename ρ)
  atoms := s.atoms.rename ρ
  serials := c
  output := s.output

variable (f : FrameId) (name : String)

@[simp] theorem outer?_rename : (s.rename ρ c).outer? f = s.outer? f := by
  rw [outer?, outer?, rename, Array.getElem?_map]
  cases s.frames[f]? <;> rfl

@[simp] theorem own?_rename :
    (s.rename ρ c).own? f name = (s.own? f name).map (Value.rename ρ) := by
  rw [own?, own?, rename, Array.getElem?_map]
  cases s.frames[f]? with
  | none => rfl
  | some fr => exact Dict.get?_map name

@[simp] theorem find?_rename : (s.rename ρ c).find? f name = s.find? f name := by
  fun_induction s.find? f name with
  | case1 f hown => rw [find?, own?_rename, Option.isSome_map, if_pos hown]
  | case2 f hown g hg ih =>
    rw [find?, own?_rename, Option.isSome_map, if_neg hown]
    split
    · rename_i g' hg'
      rw [outer?_rename, hg] at hg'
      exact Option.some.inj hg' ▸ ih
    · rename_i hg'
      simp [hg] at hg'
  | case3 f hown hg =>
    rw [find?, own?_rename, Option.isSome_map, if_neg hown]
    split
    · rename_i g' hg'
      simp [hg] at hg'
    · rfl

@[simp] theorem get?_rename :
    (s.rename ρ c).get? f name = (s.get? f name).map (Value.rename ρ) := by
  rw [get?, get?, find?_rename]
  cases s.find? f name with
  | none => rfl
  | some g => exact s.own?_rename ρ c g name

@[simp] theorem topLevel_rename : (s.rename ρ c).topLevel f = s.topLevel f := by
  fun_induction s.topLevel f with
  | case1 f g hg ih =>
    rw [topLevel]
    split
    · rename_i g' hg'
      rw [outer?_rename, hg] at hg'
      exact Option.some.inj hg' ▸ ih
    · rename_i hg'
      simp [hg] at hg'
  | case2 f hg =>
    rw [topLevel]
    split
    · rename_i g' hg'
      simp [hg] at hg'
    · rfl

theorem define_rename (v : Value) :
    (s.define f name v).rename ρ c = (s.rename ρ c).define f name (v.rename ρ) := by
  have hframes : (s.frames.modify f fun fr ↦ { fr with vars := fr.vars.insert name v }).map
      (Frame.rename ρ) = (s.frames.map (Frame.rename ρ)).modify f fun fr ↦
        { fr with vars := fr.vars.insert name (v.rename ρ) } := by
    refine Array.ext_getElem? fun i ↦ ?_
    rw [Array.getElem?_map, Array.getElem?_modify, Array.getElem?_modify, Array.getElem?_map]
    split
    · cases s.frames[i]? with
      | none => rfl
      | some fr => simp [Frame.rename, Dict.map_insert]
    · rfl
  rw [define, define, rename, rename, hframes]

theorem addFrame_rename (outer : Option FrameId) (vars : Dict String Value) :
    (s.rename ρ c).addFrame outer (vars.map (Value.rename ρ)) =
      ((s.addFrame outer vars).1, (s.addFrame outer vars).2.rename ρ c) := by
  simp [addFrame, rename, Frame.rename]

theorem addAtom_rename (v : Value) :
    (s.rename ρ c).addAtom (v.rename ρ) = ((s.addAtom v).1, (s.addAtom v).2.rename ρ c) := by
  simp [addAtom, rename, Heap.rename]

theorem setAtom_rename (a : AtomId) (v : Value) :
    (s.setAtom a v).rename ρ c = (s.rename ρ c).setAtom a (v.rename ρ) := by
  simp [setAtom, rename, Heap.rename]

/-- The macro that heads a form has new serial numbers too. -/
theorem macroCall?_rename (form : Value) :
    (s.rename ρ c).macroCall? f (form.rename ρ) =
      (s.macroCall? f form).map fun p ↦ (p.1.rename ρ, p.2.map (Value.rename ρ)) := by
  cases form with
  | list l items =>
    rcases items with _ | ⟨head, args⟩
    · simp [macroCall?]
    · cases head with
      | sym name =>
        simp only [Value.rename_list, List.map_cons, Value.rename_sym, macroCall?, get?_rename]
        cases s.get? f name with
        | none => rfl
        | some v =>
          simp only [Option.map_some, Value.bare_rename]
          cases v.bare with
          | fn c =>
            cases hc : c.isMacro <;> simp [hc]
          | _ => simp
      | _ => simp [macroCall?]
  | _ => simp [macroCall?]

end Store

end Lisplet
