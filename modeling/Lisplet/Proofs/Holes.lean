import Lisplet.Proofs.Direct
import Lisplet.Proofs.Room

/-!
# Holes of templates

A template is a form with holes.  As a whole it can be a hole for one value; among the elements of a
list or a vector a hole may take any number of them.  The code of a template is made element by
element, and here it is said what that code is, by what the element is: a hole with one form, a hole
that is malformed, or a template in its own right (`prepend_cases`, `code_cases`).

A template has code, if there is room for it, unless it is *malformed* (`coded_code`): some marker
in it, at a place where it stands for a hole, does not have exactly one form behind it.
-/

set_option autoImplicit false

namespace Lisplet

/-! ## Recursion on elements -/

theorem Value.sizeOf_bare_le (v : Value) : sizeOf v.bare ≤ sizeOf v := by
  fun_induction Value.bare v with
  | case1 v data ih =>
    rw [withMeta.sizeOf_spec]
    omega
  | case2 v _ => exact Nat.le_refl _

theorem Value.bare_ne_withMeta (v w data : Value) : v.bare ≠ .withMeta w data := by
  fun_induction Value.bare v with
  | case1 v _ ih => exact ih
  | case2 v h => exact h w data

theorem Value.sizeOf_lt_of_items? {v : Value} {items : List Value} (h : v.items? = some items) :
    sizeOf items < sizeOf v := by
  have hle := v.sizeOf_bare_le
  rw [items?] at h
  split at h
  · rename_i heq
    obtain rfl := Option.some.inj h
    rw [heq, list.sizeOf_spec] at hle
    omega
  · rename_i heq
    obtain rfl := Option.some.inj h
    rw [heq, vec.sizeOf_spec] at hle
    omega
  · simp at h

/-- What is true of a value if it is true of its elements, is true of every value. -/
theorem Value.items_induction {P : Value → Prop}
    (h : ∀ v, (∀ items, v.items? = some items → ∀ w ∈ items, P w) → P v) (v : Value) : P v :=
  h v fun _items _hitems w _hw ↦ items_induction h w
termination_by sizeOf v
decreasing_by
  have hitems := Value.sizeOf_lt_of_items? _hitems
  have hw := List.sizeOf_lt_of_mem _hw
  omega

namespace Template

/-! ## Holes -/

/-- What stands behind the marker in a list or a vector that it heads, under any metadata. -/
def marked? (marker : String) (form : Value) : Option (List Value) :=
  match form.items? with
  | some (.sym head :: args) => if head = marker then some args else none
  | _ => none

/-- What stands behind the marker if the template as a whole is to be one value. -/
def whole? (t : Value) : Option (List Value) :=
  match t.bare with
  | .list _ _ => marked? one t
  | _ => none

/-- The elements of a template that is a list or a vector and has any. -/
def elements? (t : Value) : Option (List Value) :=
  if (whole? t).isSome then none else t.items?

/-- A hole among the elements of a template, with the form of what it takes. -/
inductive Hole
  /-- A hole for one value. -/
  | one (form : Value)
  /-- A hole for any number of values. -/
  | many (form : Value)

/-- The form of what a hole takes. -/
def Hole.form : Hole → Value
  | one form | many form => form

/-- The hole that an element is, if it is one. -/
def hole? (elem : Value) : Option Hole :=
  match marked? one elem, marked? many elem with
  | some [form], _ => some (.one form)
  | none, some [form] => some (.many form)
  | _, _ => none

mutual

/-- Some hole of the template does not have exactly one form. -/
inductive Malformed : Value → Prop
  | whole {t : Value} {args : List Value} (h : whole? t = some args) (hargs : args.length ≠ 1) :
      Malformed t
  | element {t elem : Value} {items : List Value} (hitems : elements? t = some items)
      (helem : elem ∈ items) (h : MalformedElement elem) : Malformed t

/-- The element is a hole that does not have exactly one form, or has one inside it. -/
inductive MalformedElement : Value → Prop
  | hole {elem : Value} {marker : String} {args : List Value}
      (hmarker : marker = one ∨ marker = many) (h : marked? marker elem = some args)
      (hargs : args.length ≠ 1) : MalformedElement elem
  | inside {elem : Value} (hone : marked? one elem = none) (hmany : marked? many elem = none)
      (h : Malformed elem) : MalformedElement elem

end

/-! ## The code of a template -/

/-- The complaint that a marker has other than one argument. -/
def complaint (marker : String) : Fault := .error (.arity (.marker marker))

/-- A marker has no argument because it does not head the form, or has one, or is complained
about. -/
theorem argument?_cases (marker : String) (form : Value) :
    (marked? marker form = none ∧ argument? marker form = .ok none) ∨
      (∃ arg, marked? marker form = some [arg] ∧ argument? marker form = .ok (some arg)) ∨
      ∃ args, marked? marker form = some args ∧ args.length ≠ 1 ∧
        argument? marker form = .error (complaint marker) := by
  rw [marked?, argument?]
  rcases form.items? with _ | _ | ⟨head, args⟩
  · exact .inl ⟨rfl, rfl⟩
  · exact .inl ⟨rfl, rfl⟩
  cases head with
  | sym head =>
    by_cases hhead : head = marker
    · simp only [if_pos hhead]
      match args with
      | [] => exact .inr (.inr ⟨_, rfl, by simp, rfl⟩)
      | [arg] => exact .inr (.inl ⟨arg, rfl, rfl⟩)
      | _ :: _ :: _ => exact .inr (.inr ⟨_, rfl, by simp, rfl⟩)
    · exact .inl (by simp [hhead])
  | _ => exact .inl ⟨rfl, rfl⟩

/-- A list or a vector is headed by one marker at most. -/
theorem marked?_many_eq_none {elem : Value} {args : List Value} (h : marked? one elem = some args) :
    marked? many elem = none := by
  rw [marked?] at h ⊢
  split at h
  · split at h
    · rename_i hhead
      rw [hhead]
      exact if_neg (by decide)
    · simp at h
  · simp at h

/-- The built-in function that puts an element in front of those behind it. -/
def joint (elem : Value) : Builtin :=
  match hole? elem with
  | some (.many _) => .concat
  | _ => .cons

/-- The code for an element joins the form of what it takes, or else the code for it, to the code
for the elements behind it; unless the element is a hole that does not have exactly one form. -/
theorem prepend_cases (code : Label → Value → Except Fault Value) (label : Label)
    (elem tail : Value) :
    (∃ marker args, (marker = one ∨ marker = many) ∧ marked? marker elem = some args ∧
        args.length ≠ 1 ∧ prepend code label elem tail = .error (complaint marker)) ∨
      (∃ hole, hole? elem = some hole ∧
        prepend code label elem tail = .ok (callOf label (joint elem).name [hole.form, tail])) ∨
      (marked? one elem = none ∧ marked? many elem = none ∧
        prepend code label elem tail = do
          return callOf label (joint elem).name [← code (label.part 1) elem, tail]) := by
  simp only [prepend]
  obtain ⟨hone, harg⟩ | ⟨form, hone, harg⟩ | ⟨args, hone, hargs, harg⟩ := argument?_cases one elem
  · simp only [harg]
    obtain ⟨hmany, harg⟩ | ⟨form, hmany, harg⟩ | ⟨args, hmany, hargs, harg⟩ :=
      argument?_cases many elem
    · have hhole : hole? elem = none := by rw [hole?, hone, hmany]
      exact .inr (.inr ⟨hone, hmany, by rw [joint, hhole, harg]; rfl⟩)
    · have hhole : hole? elem = some (.many form) := by rw [hole?, hone, hmany]
      exact .inr (.inl ⟨.many form, hhole, by rw [joint, hhole, harg]; rfl⟩)
    · exact .inl ⟨many, args, .inr rfl, hmany, hargs, by rw [harg]; rfl⟩
  · have hhole : hole? elem = some (.one form) := by
      rw [hole?, hone, marked?_many_eq_none hone]
    exact .inr (.inl ⟨.one form, hhole, by rw [joint, hhole, harg]; rfl⟩)
  · exact .inl ⟨one, args, .inl rfl, hone, hargs, by rw [harg]; rfl⟩

/-- There is code, unless something is malformed and a marker is complained about. -/
def Coded (malformed : Prop) (x : Except Fault Value) : Prop :=
  (¬malformed ∧ ∃ c, x = .ok c) ∨ (malformed ∧ ∃ marker, x = .error (complaint marker))

section

variable {p q : Prop} {x : Except Fault Value}

theorem Coded.ok (hp : ¬p) (c : Value) : Coded p (.ok c) := .inl ⟨hp, c, rfl⟩

theorem Coded.error (hp : p) (marker : String) : Coded p (.error (complaint marker)) :=
  .inr ⟨hp, marker, rfl⟩

theorem Coded.congr (hpq : p ↔ q) (h : Coded p x) : Coded q x := by
  rwa [Coded, ← hpq]

/-- Code with more code around it. -/
theorem Coded.map (h : Coded p x) (f : Value → Value) :
    Coded p (do return f (← x)) := by
  obtain ⟨hp, c, rfl⟩ | ⟨hp, marker, rfl⟩ := h
  · exact .ok hp (f c)
  · exact .error hp marker

end

theorem elements?_eq_items? {t : Value} (h : whole? t = none) : elements? t = t.items? := by
  rw [elements?, h]
  rfl

theorem malformed_iff_of_whole? {t : Value} {args : List Value} (h : whole? t = some args) :
    Malformed t ↔ args.length ≠ 1 := by
  constructor
  · rintro (⟨hwhole, hargs⟩ | ⟨hitems, -, -⟩)
    · exact Option.some.inj (hwhole.symm.trans h) ▸ hargs
    · simp [elements?, h] at hitems
  · exact .whole h

theorem whole?_of_items? {t : Value} (h : t.items? = none) : whole? t = none := by
  rw [whole?]
  split
  · rename_i hbare
    simp [Value.items?, hbare] at h
  · rfl

theorem not_malformed_of_items? {t : Value} (h : t.items? = none) : ¬Malformed t := by
  rintro (⟨hwhole, -⟩ | ⟨hitems, -, -⟩)
  · simp [whole?_of_items? h] at hwhole
  · simp [elements?, h] at hitems

theorem malformed_iff_of_elements? {t : Value} {items : List Value}
    (h : elements? t = some items) : Malformed t ↔ ∃ elem ∈ items, MalformedElement elem := by
  constructor
  · rintro (⟨hwhole, -⟩ | ⟨hitems, helem, hmalformed⟩)
    · simp [elements?, hwhole] at h
    · obtain rfl := Option.some.inj (hitems.symm.trans h)
      exact ⟨_, helem, hmalformed⟩
  · rintro ⟨elem, helem, hmalformed⟩
    exact .element h helem hmalformed

theorem malformedElement_iff_of_not_marked {elem : Value} (hone : marked? one elem = none)
    (hmany : marked? many elem = none) : MalformedElement elem ↔ Malformed elem := by
  constructor
  · rintro (⟨rfl | rfl, h, -⟩ | ⟨-, -, h⟩)
    · simp [hone] at h
    · simp [hmany] at h
    · exact h
  · exact .inside hone hmany

/-- A hole has exactly one form behind the one marker that heads it. -/
theorem not_malformedElement_of_hole? {elem : Value} {hole : Hole} (h : hole? elem = some hole) :
    ¬MalformedElement elem := by
  rw [hole?] at h
  split at h
  · rename_i form _ hone
    have hmany := marked?_many_eq_none hone
    rintro (⟨rfl | rfl, hmarked, hargs⟩ | ⟨hnone, -, -⟩)
    · exact hargs (Option.some.inj (hmarked.symm.trans hone) ▸ rfl)
    · simp [hmany] at hmarked
    · simp [hone] at hnone
  · rename_i form hone hmany
    rintro (⟨rfl | rfl, hmarked, hargs⟩ | ⟨-, hnone, -⟩)
    · simp [hone] at hmarked
    · exact hargs (Option.some.inj (hmarked.symm.trans hmany) ▸ rfl)
    · simp [hmany] at hnone
  · simp at h

theorem coded_elements {code : Label → Value → Except Fault Value} {items : List Value}
    (hcode : ∀ elem ∈ items, ∀ label, Coded (Malformed elem) (code label elem)) (label : Label) :
    Coded (∃ elem ∈ items, MalformedElement elem) (elements code label items) := by
  induction items generalizing label with
  | nil => exact .ok (by simp) _
  | cons elem rest ih =>
    obtain ⟨helem, hrest⟩ := List.forall_mem_cons.1 hcode
    rw [elements]
    obtain ⟨hnone, tail, htail⟩ | ⟨hsome, marker, htail⟩ := ih hrest (label.part 2)
    · -- the code for the elements behind it is there, so it depends on the element
      have hiff : (∃ e ∈ elem :: rest, MalformedElement e) ↔ MalformedElement elem := by
        simp [hnone]
      have hbind : (do prepend code label elem (← .ok tail)) = prepend code label elem tail := rfl
      rw [htail, hbind]
      refine .congr hiff.symm ?_
      obtain ⟨marker, args, hmarker, h, hargs, hprepend⟩ | ⟨hole, hhole, hprepend⟩ |
        ⟨hone, hmany, hprepend⟩ := prepend_cases code label elem tail
      · exact hprepend ▸ .error (.hole hmarker h hargs) marker
      · exact hprepend ▸ .ok (not_malformedElement_of_hole? hhole) _
      · refine .congr (malformedElement_iff_of_not_marked hone hmany).symm ?_
        exact hprepend ▸ (helem (label.part 1)).map _
    · rw [htail]
      refine .error ?_ marker
      simp [hsome]

/-- How the code of a template comes about, with room for one level at least. -/
inductive CodeCases (room : Nat) (label : Label) (t : Value) : Prop
  /-- One value as a whole. -/
  | whole (form : Value) (h : whole? t = some [form]) (hcode : code (room + 1) label t = .ok form)
  | malformed (args : List Value) (h : whole? t = some args) (hargs : args.length ≠ 1)
      (hcode : code (room + 1) label t = .error (complaint one))
  | list (l : Option Label) (items : List Value) (hbare : t.bare = .list l items)
      (h : whole? t = none) (hcode : code (room + 1) label t = elements (code room) label items)
  | vec (items : List Value) (hbare : t.bare = .vec items) (h : whole? t = none)
      (hcode : code (room + 1) label t = do
        return callOf label "vec" [← elements (code room) (label.part 1) items])
  /-- A value that would not evaluate to itself. -/
  | quoted (h : t.items? = none) (hcode : code (room + 1) label t = .ok (callOf label "quote" [t]))
  /-- A value that evaluates to itself. -/
  | itself (h : t.items? = none) (hself : ∀ eng scope, Direct.form eng scope t = pure t)
      (hcode : code (room + 1) label t = .ok t)

theorem code_cases (room : Nat) (label : Label) (t : Value) : CodeCases room label t := by
  cases hbare : t.bare with
  | list l items =>
    have hwhole : whole? t = marked? one t := by rw [whole?, hbare]
    obtain ⟨hone, harg⟩ | ⟨form, hone, harg⟩ | ⟨args, hone, hargs, harg⟩ := argument?_cases one t
    · exact .list l items hbare (hwhole.trans hone) (by rw [code, hbare, harg]; rfl)
    · exact .whole form (hwhole.trans hone) (by rw [code, hbare, harg]; rfl)
    · exact .malformed args (hwhole.trans hone) hargs (by rw [code, hbare, harg]; rfl)
  | vec items => exact .vec items hbare (by rw [whole?, hbare]) (by rw [code, hbare])
  | sym | map => exact .quoted (by rw [Value.items?, hbare]) (by rw [code, hbare])
  | nil | bool | int | str | kw | fn | builtin | atom =>
    refine .itself (by rw [Value.items?, hbare]) (fun eng scope ↦ ?_) (by rw [code, hbare])
    rw [Direct.form.eq_def]
    split <;> simp [Value.bare] at hbare ⊢
  | withMeta v data => exact (t.bare_ne_withMeta v data hbare).elim

/-- **A template has code unless it is malformed**, if there is room for it. -/
theorem coded_code {t : Value} {room : Nat} (hroom : sizeOf t < room) (label : Label) :
    Coded (Malformed t) (code room label t) := by
  induction t using Value.items_induction generalizing room label with
  | h t ih =>
    obtain ⟨room, rfl⟩ := Nat.exists_eq_add_one.2 (Nat.zero_lt_of_lt hroom)
    have hitems {items : List Value} (h : t.items? = some items) (label : Label) :
        Coded (∃ elem ∈ items, MalformedElement elem) (elements (code room) label items) := by
      refine coded_elements (fun elem helem label ↦ ih items h elem helem ?_ label) label
      have hlt := Value.sizeOf_lt_of_items? h
      have helem := List.sizeOf_lt_of_mem helem
      omega
    have hmalformed {items : List Value} (hwhole : whole? t = none) (h : t.items? = some items) :=
      malformed_iff_of_elements? ((elements?_eq_items? hwhole).trans h)
    cases code_cases room label t with
    | whole form h hcode =>
      rw [hcode]
      exact .ok (by simp [malformed_iff_of_whole? h]) form
    | malformed args h hargs hcode =>
      rw [hcode]
      exact .error (.whole h hargs) one
    | list l items hbare h hcode =>
      have hlist : t.items? = some items := by rw [Value.items?, hbare]
      rw [hcode]
      exact .congr (hmalformed h hlist).symm (hitems hlist label)
    | vec items hbare h hcode =>
      have hvec : t.items? = some items := by rw [Value.items?, hbare]
      rw [hcode]
      exact .congr (hmalformed h hvec).symm ((hitems hvec _).map _)
    | quoted h hcode | itself h _ hcode =>
      rw [hcode]
      exact .ok (not_malformed_of_items? h) _

/-- All rooms in which a template fits give it the same code. -/
theorem code_eq_of_lt {t : Value} {room : Nat} (hroom : sizeOf t < room) (label : Label) :
    code room label t = code (sizeOf t + 1) label t := by
  refine code_sameUnless (Nat.succ_le_of_lt hroom) label t fun hdeep ↦ ?_
  obtain ⟨-, c, hc⟩ | ⟨-, marker, hc⟩ := coded_code (Nat.lt_succ_self (sizeOf t)) label
  · simp [hdeep] at hc
  · simp [hdeep, complaint] at hc

end Template

end Lisplet
