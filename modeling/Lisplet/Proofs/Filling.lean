import Lisplet.Proofs.Holes
import Lisplet.Proofs.Limit

/-!
# Templates are filled

What a template comes to, said without any code: the template itself, with its holes filled
(`fill`).  Elements contribute from left to right, each its value, or the elements of its value if
the hole takes any number.  The code of a template is a chain of calls that is made from the right
and rebuilds every list and every vector, so what there is to show is that running it is filling the
template (`fills_of_code`).

The proof follows the code.  One call joins an element to those behind it (`call_joint`), and a call
evaluates its arguments from left to right, so that the element contributes first; hence the chain
for some elements, from wherever it starts, is what the elements contribute (`settles_elements`).
All of this is said of computations that are granted enough (`Settles`).  The names of the functions
that the chain calls are looked up on the way, and the holes may evaluate anything; that the names
still stand for these functions is assumed of the stores in which they are looked up, and of no
others (`Steady`).
-/

set_option autoImplicit false

namespace Lisplet.Template

/-! ## Filling -/

section

variable (eng : Engine) (scope : FrameId)

/-- The values that an element contributes, by its value: one, unless it takes any number. -/
def spread (elem v : Value) : Eval (List Value) :=
  match hole? elem with
  | some (.many _) => eng.lift (Builtin.itemsOrNil .concat v)
  | _ => return [v]

mutual

/-- **The template with its holes filled.**  Every other list or vector is made anew of what its
elements contribute, and everything else stays as it is. -/
def fill (t : Value) : Eval Value :=
  match whole? t with
  | some [form] => eng.eval scope form
  | _ =>
    match _h : t.bare with
    | .list _ items => do
      let (label, vs) ← fillItems items
      return .list label vs
    | .vec items => do
      let (_, vs) ← fillItems items
      return .vec vs
    | _ => return t
termination_by sizeOf t
decreasing_by
  all_goals exact Value.sizeOf_lt_of_items? (by rw [Value.items?, _h])

/-- What elements contribute, from left to right.  An element for any number of values is spread
only when those behind it have contributed.  A list has a new label for every element. -/
def fillItems : List Value → Eval (Option Label × List Value)
  | [] => return (none, [])
  | elem :: rest => do
    let v ← match hole? elem with
      | some hole => eng.eval scope hole.form
      | none => fill elem
    let (_, behind) ← fillItems rest
    let vs ← spread eng elem v
    return (some (← Eval.newLabel), vs ++ behind)
termination_by items => sizeOf items

end

end

/-! ### Equations -/

section

variable (eng : Engine) (scope : FrameId) {t elem : Value} {items : List Value}

/-- The value of an element: what goes into the hole that it is, or else the template that it is
with its holes filled. -/
def part (elem : Value) : Eval Value :=
  match hole? elem with
  | some hole => eng.eval scope hole.form
  | none => fill eng scope elem

theorem fill_of_whole {form : Value} (h : whole? t = some [form]) :
    fill eng scope t = eng.eval scope form := by
  rw [fill, h]

theorem fill_of_list {l : Option Label} (h : ∀ form, whole? t ≠ some [form])
    (hbare : t.bare = .list l items) :
    fill eng scope t = do
      let filled ← fillItems eng scope items
      return .list filled.1 filled.2 := by
  rw [fill]
  split
  · exact (h _ ‹_›).elim
  split
  · rename_i heq
    obtain ⟨-, rfl⟩ := Value.list.inj (heq.symm.trans hbare)
    rfl
  · simp_all
  · simp_all

theorem fill_of_vec (hbare : t.bare = .vec items) :
    fill eng scope t = do
      let filled ← fillItems eng scope items
      return .vec filled.2 := by
  have hwhole : whole? t = none := by rw [whole?, hbare]
  rw [fill, hwhole]
  dsimp only
  split
  · simp_all
  · rename_i heq
    obtain rfl := Value.vec.inj (heq.symm.trans hbare)
    rfl
  · simp_all

theorem fill_of_items? (h : t.items? = none) : fill eng scope t = pure t := by
  rw [fill, whole?_of_items? h]
  dsimp only
  split
  · simp_all [Value.items?]
  · simp_all [Value.items?]
  · rfl

theorem fillItems_cons (elem : Value) (rest : List Value) :
    fillItems eng scope (elem :: rest) = do
      let v ← part eng scope elem
      let filled ← fillItems eng scope rest
      let vs ← spread eng elem v
      return (some (← Eval.newLabel), vs ++ filled.2) := by
  rw [fillItems, part]
  cases hole? elem <;> rfl

end

/-! ### Filling keeps its answer when more is granted -/

section

variable {disk : Disk} {scope : FrameId}

theorem growing_spread (elem v : Value) : Growing disk fun eng ↦ spread eng elem v := by
  cases hhole : hole? elem with
  | none => simpa only [spread, hhole] using .const _
  | some hole =>
    cases hole with
    | one form => simpa only [spread, hhole] using .const _
    | many form => simpa only [spread, hhole] using .lift _

theorem growing_part {elem : Value} (h : Growing disk fun eng ↦ fill eng scope elem) :
    Growing disk fun eng ↦ part eng scope elem := by
  cases hhole : hole? elem with
  | none => simpa only [part, hhole] using h
  | some hole => simpa only [part, hhole] using .eval scope hole.form

theorem growing_fillItems {items : List Value}
    (h : ∀ elem ∈ items, Growing disk fun eng ↦ fill eng scope elem) :
    Growing disk fun eng ↦ fillItems eng scope items := by
  induction items with
  | nil => simpa only [fillItems] using .const _
  | cons elem rest ih =>
    obtain ⟨helem, hrest⟩ := List.forall_mem_cons.1 h
    simp only [fillItems_cons]
    refine .bind (growing_part helem) fun v ↦ .bind (ih hrest) fun filled ↦ ?_
    exact .bind (growing_spread elem v) fun vs ↦ .const _

theorem growing_fill (t : Value) : Growing disk fun eng ↦ fill eng scope t := by
  induction t using Value.items_induction with
  | h t ih =>
    have hfilled {items : List Value} (h : t.items? = some items) :
        Growing disk fun eng ↦ fillItems eng scope items := growing_fillItems (ih items h)
    cases hbare : t.bare with
    | list l items =>
      by_cases h : ∃ form, whole? t = some [form]
      · obtain ⟨form, h⟩ := h
        simpa only [fill_of_whole _ _ h] using .eval scope form
      · simp only [fill_of_list _ _ (not_exists.1 h) hbare]
        exact .bind (hfilled (by rw [Value.items?, hbare])) fun _ ↦ .const _
    | vec items =>
      simp only [fill_of_vec _ _ hbare]
      exact .bind (hfilled (by rw [Value.items?, hbare])) fun _ ↦ .const _
    | _ =>
      have h : t.items? = none := by rw [Value.items?, hbare]
      simpa only [fill_of_items? _ _ h] using .const _

/-- The list of what elements contribute. -/
theorem growing_fillList (items : List Value) : Growing disk fun eng ↦ do
    let filled ← fillItems eng scope items
    return Value.list filled.1 filled.2 :=
  .bind (growing_fillItems fun elem _ ↦ growing_fill elem) fun _ ↦ .const _

end

/-! ## The names in the code

The code of a template calls three built-in functions by their names, each time just before an
element contributes; behind the last element it calls none.  What a hole evaluates may bind these
names anew, so that they stand for what is meant has to be known of every store in which there is an
element yet to come. -/

/-- The names of the built-in functions that the code of templates calls stand for these. -/
structure Named (s : Store) (scope : FrameId) : Prop where
  cons : s.Resolves scope .cons
  concat : s.Resolves scope .concat
  vec : s.Resolves scope .vec

/-- In `s'`, with contributions of the elements starting from `s`, some element is next to
contribute, here or inside an element.  When all have contributed, none is. -/
inductive Visits (disk : Disk) (scope : FrameId) : List Value → Store → Store → Prop
  | here (elem : Value) (rest : List Value) (s : Store) : Visits disk scope (elem :: rest) s s
  | inside {elem : Value} {items rest : List Value} {s s' : Store} (hhole : hole? elem = none)
      (hitems : elements? elem = some items) (h : Visits disk scope items s s') :
      Visits disk scope (elem :: rest) s s'
  | behind {elem v : Value} {rest : List Value} {s s₁ s' : Store}
      (helem : Settles disk (fun eng ↦ part eng scope elem) s (.ok v s₁))
      (h : Visits disk scope rest s₁ s') : Visits disk scope (elem :: rest) s s'

/-- Filling the template, the names stand for what is meant wherever an element is next to
contribute.  A vector without elements is made by `vec` all the same. -/
structure Steady (disk : Disk) (scope : FrameId) (t : Value) (s : Store) : Prop where
  empty : t.bare = .vec [] → s.Resolves scope .vec
  named : ∀ items, elements? t = some items → ∀ s', Visits disk scope items s s' → Named s' scope

/-- Where a vector is made, `vec` is the built-in function. -/
theorem Steady.vec {disk : Disk} {scope : FrameId} {t : Value} {s : Store} {items : List Value}
    (h : Steady disk scope t s) (hbare : t.bare = .vec items) : s.Resolves scope .vec := by
  have helements : elements? t = some items := by
    rw [elements?_eq_items? (by rw [whole?, hbare]), Value.items?, hbare]
  cases items with
  | nil => exact h.empty hbare
  | cons elem rest => exact (h.named _ helements s (.here elem rest s)).vec

/-- What is asked for an element that is a template of its own. -/
theorem Steady.of_element {disk : Disk} {scope : FrameId} {elem : Value} {rest : List Value}
    {s : Store} (hs : ∀ s', Visits disk scope (elem :: rest) s s' → Named s' scope)
    (hhole : hole? elem = none) : Steady disk scope elem s where
  empty _ := (hs s (.here elem rest s)).vec
  named _ hitems s' h := hs s' (.inside hhole hitems h)

/-- A hole that is the only element may evaluate anything, even a form that binds `cons` anew, for no
name is looked up behind it. -/
theorem Named.steady_of_hole {disk : Disk} {scope : FrameId} {t elem : Value} {s : Store}
    (h : Named s scope) (helements : elements? t = some [elem]) (hhole : (hole? elem).isSome) :
    Steady disk scope t s := by
  refine ⟨fun _ ↦ h.vec, fun items hitems s' hvisits ↦ ?_⟩
  obtain rfl := Option.some.inj (helements.symm.trans hitems)
  cases hvisits with
  | here => exact h
  | inside hnone => simp [hnone] at hhole
  | behind _ hvisits => cases hvisits

theorem Named.joint {s : Store} {scope : FrameId} (h : Named s scope) (elem : Value) :
    s.Resolves scope (joint elem) := by
  rw [Template.joint]
  split
  · exact h.concat
  · exact h.cons

/-! ## Code fills -/

section

variable {disk : Disk} {scope : FrameId} {s : Store} {r : EStateM.Result Failure Store Value}

/-- Answers in sequence are lifted one after the other. -/
theorem lift_bind {α β : Type} (eng : Engine) (x : Except Fault α) (f : α → Except Fault β) :
    eng.lift (x >>= f) = eng.lift x >>= fun a ↦ eng.lift (f a) := by
  match x with
  | .ok a => rfl
  | .error (.error e) => exact (Direct.fail_bind eng e _).symm
  | .error (.thrown payload) => rfl
  | .error .tooDeep => rfl

theorem concat_list (v : Value) (l : Option Label) (ws : List Value) :
    Builtin.Sequence.concat [v, .list l ws] =
      Builtin.itemsOrNil .concat v >>= fun vs ↦ .ok (.list none (vs ++ ws)) := by
  cases h : Builtin.itemsOrNil .concat v with
  | error f => simp [Builtin.Sequence.concat, h, bind, Except.bind]
  | ok vs =>
    have hws : Builtin.itemsOrNil .concat (.list l ws) = .ok ws := rfl
    simp [Builtin.Sequence.concat, h, hws, bind, Except.bind, pure, Except.pure]

/-- What joins an element to those behind it makes a list of what all of them contribute. -/
theorem call_joint (eng : Engine) (scope : FrameId) (elem v : Value) (l : Option Label)
    (ws : List Value) :
    (joint elem).call eng scope [v, .list l ws] =
      spread eng elem v >>= fun vs ↦ Eval.labelled (.list none (vs ++ ws)) := by
  cases hhole : hole? elem with
  | none =>
    rw [joint, spread, hhole]
    rfl
  | some hole =>
    cases hole with
    | one form =>
      rw [joint, spread, hhole]
      rfl
    | many form =>
      rw [joint, spread, hhole]
      have hcall : Builtin.call eng scope .concat [v, .list l ws] =
          eng.lift (Builtin.Sequence.concat [v, .list l ws]) >>= Eval.labelled := rfl
      rw [hcall, concat_list, lift_bind, bind_assoc]
      rfl

/-- The code of a template fills it, from a store on from where its names stand for what is
meant. -/
def Fills (disk : Disk) (scope : FrameId) (t c : Value) : Prop :=
  ∀ s, Steady disk scope t s → ∀ r,
    (Settles disk (fun eng ↦ eng.eval scope c) s r ↔
      Settles disk (fun eng ↦ fill eng scope t) s r)

/-- The code for an element joins something that comes to what is the value of the element. -/
theorem exists_of_prepend {code : Label → Value → Except Fault Value} {elem tail c : Value}
    {label : Label} (ih : ∀ label c, code label elem = .ok c → Fills disk scope elem c)
    (h : prepend code label elem tail = .ok c) :
    ∃ form, c = callOf label (joint elem).name [form, tail] ∧ ∀ rest s,
      (∀ s', Visits disk scope (elem :: rest) s s' → Named s' scope) → ∀ r,
        (Settles disk (fun eng ↦ eng.eval scope form) s r ↔
          Settles disk (fun eng ↦ part eng scope elem) s r) := by
  obtain ⟨marker, args, -, -, -, hprepend⟩ | ⟨hole, hhole, hprepend⟩ | ⟨hone, hmany, hprepend⟩ :=
    prepend_cases code label elem tail
  · simp [hprepend] at h
  · rw [hprepend] at h
    refine ⟨hole.form, (Except.ok.inj h).symm, fun rest s _ r ↦ ?_⟩
    simp only [part, hhole]
  · rw [hprepend] at h
    obtain ⟨form, hform, h⟩ := exists_of_bind_eq_ok h
    have hhole : hole? elem = none := by rw [hole?, hone, hmany]
    refine ⟨form, (Except.ok.inj h).symm, fun rest s hs r ↦ ?_⟩
    simp only [part, hhole]
    exact ih _ form hform s (.of_element hs hhole) r

theorem settles_elements {code : Label → Value → Except Fault Value} {items : List Value}
    (ih : ∀ elem ∈ items, ∀ label c, code label elem = .ok c → Fills disk scope elem c)
    {label : Label} {c : Value} (h : elements code label items = .ok c)
    (hs : ∀ s', Visits disk scope items s s' → Named s' scope) :
    Settles disk (fun eng ↦ eng.eval scope c) s r ↔
      Settles disk (fun eng ↦ do
        let filled ← fillItems eng scope items
        return .list filled.1 filled.2) s r := by
  induction items generalizing label c s r with
  | nil =>
    obtain rfl := Except.ok.inj h
    simp only [fillItems, pure_bind]
    exact settles_itself_iff fun eng ↦ rfl
  | cons elem rest ihrest =>
    obtain ⟨helem, hrest⟩ := List.forall_mem_cons.1 ih
    rw [elements] at h
    obtain ⟨tail, htail, h⟩ := exists_of_bind_eq_ok h
    obtain ⟨form, rfl, hform⟩ := exists_of_prepend helem h
    have hnamed : Named s scope := hs s (.here elem rest s)
    refine (settles_call_iff (hnamed.joint elem)).trans ?_
    simp only [List.mapM_cons, List.mapM_nil, pure_bind, bind_assoc, fillItems_cons]
    refine settles_bind_congr (.eval scope form) (growing_part (growing_fill elem))
      (hform rest s hs) fun v s₁ hv ↦ ?_
    have hs₁ : ∀ s', Visits disk scope rest s₁ s' → Named s' scope :=
      fun s' hvisits ↦ hs s' (.behind hv hvisits)
    refine (settles_bind_congr (.eval scope tail) (growing_fillList rest)
      (fun r ↦ ihrest hrest htail hs₁) fun w s₂ _ ↦ Iff.rfl).trans ?_
    simp only [bind_assoc, pure_bind, call_joint, Eval.labelled]

/-- **The code of a template fills it.** -/
theorem fills_of_code {t c : Value} {room : Nat} {label : Label} (h : code room label t = .ok c) :
    Fills disk scope t c := by
  induction t using Value.items_induction generalizing room label c with
  | h t ih =>
    cases room with
    | zero => simp [code] at h
    | succ room =>
      intro s hs r
      have helements {items : List Value} (hitems : t.items? = some items)
          (hwhole : whole? t = none) {label : Label} {c : Value}
          (h : elements (code room) label items = .ok c)
          (r : EStateM.Result Failure Store Value) :=
        settles_elements (r := r) (fun elem helem label c hc ↦ ih items hitems elem helem hc) h
          (hs.named items ((elements?_eq_items? hwhole).trans hitems))
      cases code_cases room label t with
      | whole form hwhole hcode =>
        obtain rfl := Except.ok.inj (hcode.symm.trans h)
        simp only [fill_of_whole _ _ hwhole]
      | malformed args _ _ hcode => simp [hcode] at h
      | list l items hbare hwhole hcode =>
        rw [hcode] at h
        simp only [fill_of_list _ _ (by simp [hwhole]) hbare]
        exact helements (by rw [Value.items?, hbare]) hwhole h r
      | vec items hbare hwhole hcode =>
        have hitems : t.items? = some items := by rw [Value.items?, hbare]
        rw [hcode] at h
        obtain ⟨chain, hchain, h⟩ := exists_of_bind_eq_ok h
        obtain rfl := Except.ok.inj h
        refine (settles_call_iff (hs.vec hbare)).trans ?_
        simp only [List.mapM_cons, List.mapM_nil, pure_bind, bind_assoc, fill_of_vec _ _ hbare]
        refine (settles_bind_congr (.eval scope chain) (growing_fillList items)
          (helements hitems hwhole hchain) fun w s₂ _ ↦ Iff.rfl).trans ?_
        simp only [bind_assoc, pure_bind]
        rfl
      | quoted hitems hcode =>
        obtain rfl := Except.ok.inj (hcode.symm.trans h)
        simp only [fill_of_items? _ _ hitems]
        exact settles_run_iff_value
      | itself hitems hself hcode =>
        obtain rfl := Except.ok.inj (hcode.symm.trans h)
        simp only [fill_of_items? _ _ hitems]
        exact settles_itself_iff fun eng ↦ hself eng scope

/-! ## Templates as forms -/

/-- The code is made under a label that is handed out for it, and is the same in all the room that
the template fits into. -/
theorem settles_codeOf_iff {t : Value} {r : EStateM.Result Failure Store Value} :
    Settles disk (fun eng ↦ SpecialForm.codeOf eng t) s r ↔
      Settles disk (fun eng ↦ eng.lift (code (sizeOf t + 1) ⟨s.serials, []⟩ t))
        s.nextSerial.2 r := by
  have hcode (steps room : Nat) (hroom : sizeOf t + 1 ≤ room) :
      SpecialForm.codeOf (.granted disk steps room) t s =
        (Engine.granted disk steps room).lift (code (sizeOf t + 1) ⟨s.serials, []⟩ t)
          s.nextSerial.2 := by
    rw [← code_eq_of_lt hroom]
    rfl
  constructor
  · exact fun h ↦ h.congr ⟨_, fun steps room _ hroom ↦ (hcode steps room hroom).symm⟩
  · exact fun h ↦ h.congr ⟨_, fun steps room _ hroom ↦ hcode steps room hroom⟩

/-- Evaluating a template is evaluating its code. -/
theorem settles_template_iff {l : Option Label} {t : Value} :
    Settles disk (fun eng ↦ eng.eval scope (.list l [.sym "quasiquote", t])) s r ↔
      Settles disk (fun eng ↦ SpecialForm.codeOf eng t >>= eng.eval scope) s r :=
  settles_run_iff_value

/-- **A template means itself with its holes filled.**  Its code cannot be made exactly if some hole
in it does not have one form, which is then what the evaluation fails with.  Otherwise the
evaluation ends exactly as filling the template does, in the same value or failure and the same
store, if the names of `cons`, `concat` and `vec` stand for the built-in functions whenever an
element is next to contribute, and `vec` where a vector without elements is made. -/
theorem quasiquote_fills (disk : Disk) (scope : FrameId) (l : Option Label) (t : Value)
    (s : Store) :
    (∀ (label : Label) (room : Nat), sizeOf t < room →
      ((∃ marker, code room label t = .error (.error (.arity (.marker marker)))) ↔ Malformed t) ∧
        (¬Malformed t → ∃ c, code room label t = .ok c)) ∧
      (Malformed t → ∃ marker, Evaluates disk (.eval (.list l [.sym "quasiquote", t]) scope) s
        (.error (.error (.arity (.marker marker)) (ArityError.message (.marker marker)))
          s.nextSerial.2)) ∧
      (¬Malformed t → Steady disk scope t s.nextSerial.2 → ∀ r,
        (Evaluates disk (.eval (.list l [.sym "quasiquote", t]) scope) s r ↔
          Settles disk (fun eng ↦ fill eng scope t) s.nextSerial.2 r)) := by
  refine ⟨fun label room hroom ↦ ?_, fun ht ↦ ?_, fun ht hs r ↦ ?_⟩
  · obtain ⟨ht, c, hc⟩ | ⟨ht, marker, hc⟩ := coded_code hroom label
    · exact ⟨by simp [ht, hc], fun _ ↦ ⟨c, hc⟩⟩
    · exact ⟨⟨fun _ ↦ ht, fun _ ↦ ⟨marker, hc⟩⟩, fun h ↦ (h ht).elim⟩
  · obtain ⟨h, -⟩ | ⟨-, marker, hc⟩ := coded_code (Nat.lt_succ_self (sizeOf t)) ⟨s.serials, []⟩
    · exact (h ht).elim
    · refine ⟨marker, settles_template_iff.2 (settles_bind_of_error (settles_codeOf_iff.2 ?_))⟩
      rw [hc]
      exact settles_of_forall trivial fun eng ↦ rfl
  · obtain ⟨-, c, hc⟩ | ⟨h, -⟩ := coded_code (Nat.lt_succ_self (sizeOf t)) ⟨s.serials, []⟩
    · have hcode : Settles disk (fun eng ↦ SpecialForm.codeOf eng t) s (.ok c s.nextSerial.2) := by
        rw [settles_codeOf_iff, hc]
        exact settles_pure c
      exact settles_template_iff.trans
        ((settles_bind_of_ok hcode).trans (fills_of_code hc s.nextSerial.2 hs r))
    · exact (ht h).elim

/-- With nothing but the names in its code bound, a list with one hole is filled. -/
theorem quasiquote_fills_one :
    let s := (({} : Store).addFrame none
      ⟨[Builtin.cons, .concat, .vec].map fun op ↦ (op.name, .builtin 0 op)⟩).2
    let t := Value.list none [.list none [.sym "unquote", .int 1]]
    ¬Malformed t ∧ Steady (fun _ ↦ none) 0 t s.nextSerial.2 ∧
      Evaluates (fun _ ↦ none) (.eval (.list none [.sym "quasiquote", t]) 0) s
        (.ok (.list (some ⟨1, []⟩) [.int 1]) s.nextSerial.2.nextSerial.2) := by
  intro s t
  have hhole : hole? (.list none [.sym "unquote", .int 1]) = some (.one (.int 1)) := rfl
  have helements : elements? t = some [.list none [.sym "unquote", .int 1]] := rfl
  have ht : ¬Malformed t := by
    rw [malformed_iff_of_elements? helements]
    simpa using not_malformedElement_of_hole? hhole
  have hresolves {op : Builtin} (hown : s.nextSerial.2.own? 0 op.name = some (.builtin 0 op)) :
      s.nextSerial.2.Resolves 0 op := ⟨.builtin 0 op, 0, Store.get?_of_own? hown, rfl⟩
  have hnamed : Named s.nextSerial.2 0 := ⟨hresolves rfl, hresolves rfl, hresolves rfl⟩
  have hpart : Settles (fun _ ↦ none) (fun eng ↦ part eng 0 (.list none [.sym "unquote", .int 1]))
      s.nextSerial.2 (.ok (.int 1) s.nextSerial.2) := by
    simp only [part, hhole]
    exact settles_itself fun eng ↦ rfl
  have hs : Steady (fun _ ↦ none) 0 t s.nextSerial.2 :=
    hnamed.steady_of_hole helements (by rw [hhole]; rfl)
  refine ⟨ht, hs, ((quasiquote_fills _ 0 none t s).2.2 ht hs _).2 ?_⟩
  have hwhole : whole? t = none := rfl
  have hlist : t.bare = .list none [.list none [.sym "unquote", .int 1]] := rfl
  simp only [fill_of_list _ _ (by simp [hwhole]) hlist, fillItems_cons, bind_assoc]
  refine (settles_bind_of_ok hpart).2 ?_
  simp only [fillItems, spread, hhole, pure_bind]
  exact settles_of_forall trivial fun eng ↦ rfl

end

end Lisplet.Template
