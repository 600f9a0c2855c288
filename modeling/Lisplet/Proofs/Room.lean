import Lisplet.Error
import Lisplet.Proofs.Mapping
import Lisplet.Proofs.Parts
import Lisplet.Reader.Read
import Lisplet.Template
import Lisplet.Value.Equality

/-!
# What more room does not change

Printing, comparing, reading and the code of templates take the room that they may use for nesting,
and say when it does not suffice.  More room changes nothing else: an answer that came out is the
same in more room.

Two relations say so.  `Within o o'` is for results that are missing when the room is too small,
`SameUnless e x y` for computations that then end in the error `e`.  Both go through the ways in
which larger computations are made of smaller ones, so that each statement about a function of the
language is proved along its definition.
-/

set_option autoImplicit false

namespace Lisplet

variable {α β ε : Type}

/-! ## Results that may be missing -/

/-- Whatever `o` gives, `o'` gives too. -/
def Within (o o' : Option α) : Prop := ∀ a, o = some a → o' = some a

namespace Within

theorem refl (o : Option α) : Within o o := fun _ h ↦ h

theorem none (o : Option α) : Within .none o := fun _ h ↦ by simp at h

theorem map {o o' : Option α} (h : Within o o') (f : α → β) : Within (o.map f) (o'.map f) := by
  intro b hb
  obtain ⟨a, ha, rfl⟩ := Option.map_eq_some_iff.1 hb
  exact Option.map_eq_some_iff.2 ⟨a, h a ha, rfl⟩

theorem bind {o o' : Option α} {f f' : α → Option β} (h : Within o o')
    (hf : ∀ a, Within (f a) (f' a)) : Within (o >>= f) (o' >>= f') := by
  intro b hb
  obtain ⟨a, ha, hb⟩ := Option.bind_eq_some_iff.1 hb
  exact Option.bind_eq_some_iff.2 ⟨a, h a ha, hf a b hb⟩

theorem mapM {f f' : α → Option β} {xs : List α} (h : ∀ x ∈ xs, Within (f x) (f' x)) :
    Within (xs.mapM f) (xs.mapM f') :=
  fun _ hys ↦ mapM_eq_some_of_forall h hys

theorem allM {f f' : α → Option Bool} (h : ∀ x, Within (f x) (f' x)) (xs : List α) :
    Within (xs.allM f) (xs.allM f') := by
  induction xs with
  | nil => exact refl _
  | cons x xs ih =>
    refine bind (h x) fun b ↦ ?_
    cases b with
    | true => exact ih
    | false => exact refl _

end Within

/-! ## Computations that may run out of room -/

/-- The two computations are the same unless the first ends in `e`. -/
def SameUnless (e : ε) (x y : Except ε α) : Prop := x ≠ .error e → y = x

namespace SameUnless

variable {e : ε}

theorem refl (x : Except ε α) : SameUnless e x x := fun _ ↦ rfl

theorem bind {x y : Except ε α} {f g : α → Except ε β} (h : SameUnless e x y)
    (hf : ∀ a, SameUnless e (f a) (g a)) : SameUnless e (x >>= f) (y >>= g) := by
  intro hne
  cases x with
  | error e' =>
    rw [h (fun he ↦ hne (by rw [he]; rfl))]
    rfl
  | ok a =>
    rw [h (by simp)]
    exact hf a hne

end SameUnless

/-! ## Values in print -/

namespace Value

variable {heap : Heap} {m n : Nat}

/-- **A printed form that fits into some room is the printed form in more room.** -/
theorem print_within {style : PrintStyle} (h : m ≤ n) (v : Value) :
    Within (v.print heap style m) (v.print heap style n) := by
  induction m generalizing n v with
  | zero => exact .none _
  | succ m ih =>
    obtain ⟨n, rfl⟩ := Nat.exists_eq_add_one.2 (Nat.lt_of_lt_of_le m.succ_pos h)
    replace h : m ≤ n := Nat.le_of_succ_le_succ h
    rw [print.eq_def, print.eq_def]
    cases v with
    | list _ items => exact .map (.mapM fun w _ ↦ ih h w) _
    | vec items => exact .map (.mapM fun w _ ↦ ih h w) _
    | map _ d => exact .map (.mapM fun e _ ↦ .map (ih h e.2) _) _
    | atom a => exact .map (ih h _) _
    | withMeta v _ => exact ih h v
    | _ => exact .refl _

theorem printAll_within {style : PrintStyle} (h : m ≤ n) (sep : String) (vs : List Value) :
    Within (printAll heap style m sep vs) (printAll heap style n sep vs) :=
  .map (.mapM fun v _ ↦ print_within h v) _

theorem inspectWithin_within (h : m ≤ n) (around : List Label) (v : Value) :
    Within (v.inspectWithin heap m around) (v.inspectWithin heap n around) := by
  induction m generalizing n around v with
  | zero => exact .none _
  | succ m ih =>
    obtain ⟨n, rfl⟩ := Nat.exists_eq_add_one.2 (Nat.lt_of_lt_of_le m.succ_pos h)
    replace h : m ≤ n := Nat.le_of_succ_le_succ h
    rw [inspectWithin.eq_def, inspectWithin.eq_def]
    cases v with
    | list label items =>
      dsimp only
      split
      · exact .refl _
      · exact .map (.mapM fun w _ ↦ ih h _ w) _
    | vec items => exact .map (.mapM fun w _ ↦ ih h _ w) _
    | map label d =>
      dsimp only
      split
      · exact .refl _
      · exact .map (.mapM fun e _ ↦ .map (ih h _ e.2) _) _
    | atom a => exact .map (ih h _ _) _
    | withMeta v d => exact .bind (ih h _ v) fun _ ↦ .bind (ih h _ d) fun _ ↦ .refl _
    | _ => exact .refl _

theorem describe_within (h : m ≤ n) (v : Value) :
    Within (v.describe heap m) (v.describe heap n) := by
  cases v with
  | str | sym | kw => exact .refl _
  | _ => exact inspectWithin_within h [] _

/-- **Comparing in more room gives the same answer.** -/
theorem equal?_within (h : m ≤ n) (v w : Value) : Within (v.equal? m w) (v.equal? n w) := by
  induction m generalizing n v w with
  | zero => exact .none _
  | succ m ih =>
    obtain ⟨n, rfl⟩ := Nat.exists_eq_add_one.2 (Nat.lt_of_lt_of_le m.succ_pos h)
    replace h : m ≤ n := Nat.le_of_succ_le_succ h
    rw [equal?, equal?]
    split
    · split
      · exact .allM (fun p : Value × Value ↦ ih h p.1 p.2) _
      · exact .refl _
    · exact .refl _
    · exact .refl _
    · split
      · split
        · refine .allM (fun e ↦ ?_) _
          split
          · exact ih h _ _
          · exact .refl _
        · exact .refl _
      · exact .refl _

end Value

/-! ## Messages -/

section Messages

variable {heap : Heap} {m n : Nat} (h : m ≤ n)
include h

theorem ReadError.message_within (e : ReadError) : Within (e.message m) (e.message n) := by
  cases e with
  | badKey form => exact .map (Value.describe_within h form) _
  | unexpectedEnd b => cases b <;> exact .refl _
  | _ => exact .refl _

theorem TypeError.message_within (e : TypeError) :
    Within (e.message heap m) (e.message heap n) := by
  cases e with
  | operand _ _ got => exact .map (Value.print_within h got) _
  | integers _ a b =>
    exact .bind (Value.print_within h a) fun _ ↦ .bind (Value.print_within h b) fun _ ↦ .refl _
  | key _ got => exact .map (Value.print_within h got) _
  | macroSource got => exact .map (Value.print_within h got) _
  | parameterList got => exact .map (Value.describe_within h got) _
  | parameterName got => exact .map (Value.describe_within h got) _
  | _ => exact .refl _

/-- **The message of an error is the same in more room.** -/
theorem EvalError.message_within (e : EvalError) :
    Within (e.message heap m) (e.message heap n) := by
  cases e with
  | notFunction head value =>
    refine .bind (Value.print_within h head) fun _ ↦ ?_
    exact .bind (Value.print_within h value) fun _ ↦ .refl _
  | notApplicable value => exact .map (Value.print_within h value) _
  | type e => exact TypeError.message_within h e
  | definedName got => exact .map (Value.describe_within h got) _
  | macroName got => exact .map (Value.describe_within h got) _
  | bindingName got => exact .map (Value.describe_within h got) _
  | catchClause clause => exact .map (Value.print_within h clause) _
  | unreadable cause => exact .map (ReadError.message_within h cause) _
  | _ => exact .refl _

end Messages

/-! ### Messages about texts

A text is read without a store, so that an atom in a form would be shown with no content.  Such a
form fits into room enough, and an error of reading has a message then. -/

namespace Value

/-- Without contents of atoms a value does not lead back to itself. -/
theorem isSome_inspectWithin {room : Nat} {v : Value} (h : sizeOf v < room)
    (around : List Label) : (v.inspectWithin #[] room around).isSome = true := by
  induction room generalizing v around with
  | zero => exact absurd h (Nat.not_lt_zero _)
  | succ room ih =>
    rw [inspectWithin.eq_def]
    cases v with
    | list label items =>
      dsimp only
      split
      · rfl
      · rw [Option.isSome_map]
        refine isSome_mapM fun w hw ↦ ih ?_ _
        have hlt := List.sizeOf_lt_of_mem hw
        rw [list.sizeOf_spec] at h
        omega
    | vec items =>
      dsimp only
      rw [Option.isSome_map]
      refine isSome_mapM fun w hw ↦ ih ?_ _
      have hlt := List.sizeOf_lt_of_mem hw
      rw [vec.sizeOf_spec] at h
      omega
    | map label d =>
      dsimp only
      split
      · rfl
      · rw [Option.isSome_map]
        refine isSome_mapM fun e he ↦ ?_
        rw [Option.isSome_map]
        refine ih ?_ _
        have hlt := sizeOf_lt_of_mem_entries he
        rw [map.sizeOf_spec] at h
        omega
    | atom a =>
      rw [atom.sizeOf_spec] at h
      obtain ⟨room, rfl⟩ := Nat.exists_eq_add_one.2 (show 0 < room by omega)
      rfl
    | withMeta v d =>
      rw [withMeta.sizeOf_spec] at h
      obtain ⟨value, hvalue⟩ := Option.isSome_iff_exists.1 (ih (v := v) (by omega) around)
      obtain ⟨data, hdata⟩ := Option.isSome_iff_exists.1 (ih (v := d) (by omega) around)
      dsimp only
      rw [hvalue, hdata]
      rfl
    | _ => rfl

theorem isSome_describe {room : Nat} {v : Value} (h : sizeOf v < room) :
    (v.describe #[] room).isSome = true := by
  cases v with
  | str | sym | kw => rfl
  | _ => exact isSome_inspectWithin h []

end Value

/-- **An error of reading has a message** in all the room that is enough. -/
theorem ReadError.exists_message (e : ReadError) :
    ∃ enough message, ∀ room, enough ≤ room → e.message room = some message := by
  have hmessage : ∃ room, (e.message room).isSome = true := by
    cases e with
    | badKey form =>
      refine ⟨sizeOf form + 1, ?_⟩
      rw [message, Option.isSome_map]
      exact Value.isSome_describe (Nat.lt_succ_self _)
    | unexpectedEnd b => cases b <;> exact ⟨0, rfl⟩
    | _ => exact ⟨0, rfl⟩
  obtain ⟨enough, h⟩ := hmessage
  obtain ⟨text, h⟩ := Option.isSome_iff_exists.1 h
  exact ⟨enough, text, fun room hroom ↦ message_within hroom e text h⟩

/-! ## Reading -/

namespace Reader

variable {m n : Nat}

theorem readFrom_eq_of_le (h : m ≤ n) {stack : List Pending} {ts : List Token}
    (hne : (readFrom m stack ts).1 ≠ .error .tooDeep) :
    readFrom n stack ts = readFrom m stack ts := by
  induction ts generalizing stack with
  | nil => rfl
  | cons t ts ih =>
    rw [readFrom] at hne
    rw [readFrom, readFrom]
    split
    · rfl
    · rfl
    · rename_i stack' hfeed
      simp only [hfeed] at hne
      split at hne
      · rename_i hm
        rw [if_pos hm, if_pos (Nat.le_trans hm h)]
        exact ih hne
      · exact absurd rfl hne

/-- **Reading in more room gives the same form or the same complaint.** -/
theorem read_sameUnless (h : m ≤ n) (source : String) :
    SameUnless .tooDeep (read m source) (read n source) := by
  intro hne
  rw [read, readAll] at hne
  rw [read, read, readAll, readAll]
  split
  · rfl
  · rename_i hts
    rw [if_neg hts] at hne
    have hform : readForm n (Token.scan source) = readForm m (Token.scan source) := by
      refine readFrom_eq_of_le h fun hdeep ↦ hne ?_
      cases hr : readForm m (Token.scan source) with
      | mk r left =>
        rw [readForm] at hr
        rw [hr] at hdeep
        obtain rfl : r = .error .tooDeep := hdeep
        rfl
    rw [hform]

end Reader

/-! ## Templates -/

namespace Template

theorem prepend_sameUnless {f g : Label → Value → Except Fault Value}
    (hfg : ∀ l t, SameUnless .tooDeep (f l t) (g l t)) (label : Label) (elem tail : Value) :
    SameUnless .tooDeep (prepend f label elem tail) (prepend g label elem tail) := by
  refine .bind (.refl _) fun arg ↦ ?_
  cases arg with
  | some arg => exact .refl _
  | none =>
    refine .bind (.refl _) fun arg ↦ ?_
    cases arg with
    | some arg => exact .refl _
    | none => exact .bind (hfg _ _) fun _ ↦ .refl _

theorem elements_sameUnless {f g : Label → Value → Except Fault Value}
    (hfg : ∀ l t, SameUnless .tooDeep (f l t) (g l t)) (label : Label) (items : List Value) :
    SameUnless .tooDeep (elements f label items) (elements g label items) := by
  induction items generalizing label with
  | nil => exact .refl _
  | cons elem rest ih => exact .bind (ih _) fun tail ↦ prepend_sameUnless hfg label elem tail

/-- **The code of a template is the same in more room.** -/
theorem code_sameUnless {m n : Nat} (h : m ≤ n) (label : Label) (t : Value) :
    SameUnless .tooDeep (code m label t) (code n label t) := by
  induction m generalizing n label t with
  | zero => exact fun hne ↦ absurd rfl hne
  | succ m ih =>
    obtain ⟨n, rfl⟩ := Nat.exists_eq_add_one.2 (Nat.lt_of_lt_of_le m.succ_pos h)
    replace h : m ≤ n := Nat.le_of_succ_le_succ h
    rw [code, code]
    split
    · refine .bind (.refl _) fun arg ↦ ?_
      cases arg with
      | some arg => exact .refl _
      | none => exact elements_sameUnless (fun l t ↦ ih h l t) label _
    · exact .bind (elements_sameUnless (fun l t ↦ ih h l t) _ _) fun _ ↦ .refl _
    · exact .refl _
    · exact .refl _
    · exact .refl _

end Template

end Lisplet
