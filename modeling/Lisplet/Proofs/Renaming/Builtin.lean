import Lisplet.Builtin.Call
import Lisplet.Proofs.Renaming.Store

/-!
# Answers with new serial numbers

What a built-in function answers that needs nothing but its arguments is the same for arguments with
new serial numbers, with the new numbers in it, and so is what it complains about.
`Carries g f x y` says that `y` is the answer `x` with its value changed by `f`, or else with its
error changed by `g`; it goes through sequences of answers.  The numbers may be any numbers here:
none of these functions compares them.

The same holds of parameter lists and of the code of templates.  What is read from a text has no
serial numbers at all.
-/

set_option autoImplicit false

namespace Lisplet

variable {ρ : Nat → Nat} {ε α β γ δ : Type}

/-- **One answer is the other one with changes**: its value is changed by `f`, its error by `g`. -/
def Carries (g : ε → ε) (f : α → β) : Except ε α → Except ε β → Prop
  | .ok a, y => y = .ok (f a)
  | .error e, y => y = .error (g e)

namespace Carries

section

variable {f : α → β} {k : γ → δ} {g : ε → ε} {x : Except ε α} {y : Except ε β}

theorem ok (a : α) : Carries g f (.ok a) (.ok (f a)) := rfl

theorem error (e : ε) : Carries g f (.error e) (.error (g e)) := rfl

theorem bind {p : α → Except ε γ} {q : β → Except ε δ} (hxy : Carries g f x y)
    (hpq : ∀ a, Carries g k (p a) (q (f a))) : Carries g k (x >>= p) (y >>= q) := by
  cases x with
  | ok a =>
    obtain rfl : y = .ok (f a) := hxy
    exact hpq a
  | error e =>
    obtain rfl : y = .error (g e) := hxy
    rfl

theorem mapM {h : α → γ} {p : α → Except ε β} {q : γ → Except ε δ} {k : β → δ} {xs : List α}
    (hpq : ∀ x ∈ xs, Carries g k (p x) (q (h x))) :
    Carries g (List.map k) (xs.mapM p) ((xs.map h).mapM q) := by
  induction xs with
  | nil => exact ok []
  | cons x xs ih =>
    obtain ⟨hx, hxs⟩ := List.forall_mem_cons.1 hpq
    rw [List.map_cons, List.mapM_cons, List.mapM_cons]
    exact bind hx fun b ↦ bind (ih hxs) fun bs ↦ ok (b :: bs)

end

/-! ## Arguments -/

section

variable {f : α → β} (op : Builtin) (args : List Value) (v : Value)

theorem refuse (e : EvalError) : Carries (Fault.rename ρ) f (Builtin.refuse e)
    (Builtin.refuse (e.rename ρ)) :=
  rfl

theorem one : Carries (Fault.rename ρ) (Value.rename ρ) (Builtin.one op args)
    (Builtin.one op (args.map (Value.rename ρ))) := by
  rcases args with _ | ⟨a, _ | ⟨b, rest⟩⟩
  · exact refuse _
  · exact ok a
  · simp [Builtin.one, Builtin.refuse, Carries, Fault.rename, EvalError.rename]

theorem two : Carries (Fault.rename ρ) (Prod.map (Value.rename ρ) (Value.rename ρ))
    (Builtin.two op args) (Builtin.two op (args.map (Value.rename ρ))) := by
  rcases args with _ | ⟨a, _ | ⟨b, _ | ⟨c, rest⟩⟩⟩
  · exact refuse _
  · exact refuse _
  · exact ok (a, b)
  · simp [Builtin.two, Builtin.refuse, Carries, Fault.rename, EvalError.rename]

theorem unwanted (wanted : Wanted) : Carries (Fault.rename ρ) f (Builtin.unwanted op wanted v)
    (Builtin.unwanted op wanted (v.rename ρ)) := refuse _

theorem items : Carries (Fault.rename ρ) (List.map (Value.rename ρ)) (Builtin.items op v)
    (Builtin.items op (v.rename ρ)) := by
  rw [Builtin.items, Builtin.items, Value.items?_rename]
  cases v.items? with
  | some vs => exact ok vs
  | none => exact unwanted op v _

theorem itemsOrNil : Carries (Fault.rename ρ) (List.map (Value.rename ρ)) (Builtin.itemsOrNil op v)
    (Builtin.itemsOrNil op (v.rename ρ)) := by
  have hitems := items (ρ := ρ) op v
  cases v with
  | nil => rw [Value.rename_nil]; exact ok []
  | _ => simpa [Builtin.itemsOrNil] using hitems

theorem entries : Carries (Fault.rename ρ) (Dict.map (Value.rename ρ)) (Builtin.entries op v)
    (Builtin.entries op (v.rename ρ)) := by
  rw [Builtin.entries, Builtin.entries, Value.bare_rename]
  generalize v.bare = w
  have hunwanted := unwanted (ρ := ρ) (f := Dict.map (κ := Key) (Value.rename ρ)) op w .map
  cases w with
  | map l d => rw [Value.rename_map]; exact ok d
  | _ => simpa using hunwanted

theorem text : Carries (Fault.rename ρ) id (Builtin.text op v) (Builtin.text op (v.rename ρ)) := by
  have hunwanted := unwanted (ρ := ρ) (f := (id : String → String)) op v .string
  cases v with
  | str s => rw [Value.rename_str]; exact ok s
  | _ => simpa [Builtin.text] using hunwanted

theorem cell : Carries (Fault.rename ρ) id (Builtin.cell op v) (Builtin.cell op (v.rename ρ)) := by
  have hunwanted := unwanted (ρ := ρ) (f := (id : AtomId → AtomId)) op v .atom
  cases v with
  | atom a => rw [Value.rename_atom]; exact ok a
  | _ => simpa [Builtin.cell] using hunwanted

theorem key : Carries (Fault.rename ρ) id (Builtin.key op v) (Builtin.key op (v.rename ρ)) := by
  rw [Builtin.key, Builtin.key, Value.key?_rename]
  cases v.key? with
  | some k => exact ok k
  | none => exact refuse _

end

/-! ## Kinds -/

section

variable (op : Builtin) (args : List Value)

theorem test {holds : Value → Bool} (h : ∀ v, holds (v.rename ρ) = holds v) :
    Carries (Fault.rename ρ) (Value.rename ρ) (Builtin.Kind.test op holds args)
      (Builtin.Kind.test op holds (args.map (Value.rename ρ))) :=
  bind (one op args) fun v ↦ by simp [Carries, h]

theorem isAtom : Carries (Fault.rename ρ) (Value.rename ρ) (Builtin.Kind.isAtom args)
    (Builtin.Kind.isAtom (args.map (Value.rename ρ))) :=
  bind (one _ args) fun v ↦ by cases v <;> simp [Carries]

theorem metadata : Carries (Fault.rename ρ) (Value.rename ρ) (Builtin.Kind.metadata args)
    (Builtin.Kind.metadata (args.map (Value.rename ρ))) :=
  bind (one _ args) fun v ↦ by cases v <;> simp [Carries]

theorem takesMetadata_rename (v : Value) :
    Builtin.Kind.takesMetadata (v.rename ρ) = Builtin.Kind.takesMetadata v := by
  cases v <;> simp [Builtin.Kind.takesMetadata]

theorem withMeta : Carries (Fault.rename ρ) (Value.rename ρ) (Builtin.Kind.withMeta args)
    (Builtin.Kind.withMeta (args.map (Value.rename ρ))) := by
  refine bind (two _ args) fun p ↦ ?_
  dsimp only [Prod.map]
  rw [Value.bare_rename, takesMetadata_rename]
  split
  · simp [Carries]
  · exact unwanted _ _ _

/-! ## Arithmetic -/

theorem operands : Carries (Fault.rename ρ) id (Builtin.Arithmetic.operands op args)
    (Builtin.Arithmetic.operands op (args.map (Value.rename ρ))) := by
  refine bind (two op args) fun ⟨a, b⟩ ↦ ?_
  have hrefuse : Carries (Fault.rename ρ) (id : Int × Int → Int × Int)
    (Builtin.refuse (.type (.integers op a b)))
    (Builtin.refuse (.type (.integers op (a.rename ρ) (b.rename ρ)))) := refuse _
  dsimp only [Prod.map]
  cases a with
  | int m =>
    cases b with
    | int n => simp [Carries]
    | _ => simpa using hrefuse
  | _ => simpa using hrefuse

theorem checked (n : Int) : Carries (Fault.rename ρ) (Value.rename ρ)
    (Builtin.Arithmetic.checked op n) (Builtin.Arithmetic.checked op n) := by
  rw [Builtin.Arithmetic.checked]
  split
  · simp [Carries]
  · simp [Carries, Fault.rename]

theorem operate (f : Int → Int → Int) :
    Carries (Fault.rename ρ) (Value.rename ρ) (Builtin.Arithmetic.operate op f args)
      (Builtin.Arithmetic.operate op f (args.map (Value.rename ρ))) :=
  bind (operands op args) fun p ↦ checked op (f p.1 p.2)

theorem divide : Carries (Fault.rename ρ) (Value.rename ρ) (Builtin.Arithmetic.divide args)
    (Builtin.Arithmetic.divide (args.map (Value.rename ρ))) := by
  refine bind (operands _ args) fun p ↦ ?_
  dsimp only [id]
  split
  · simp [Carries, Fault.rename]
  · exact checked _ _

theorem compare (holds : Int → Int → Bool) :
    Carries (Fault.rename ρ) (Value.rename ρ) (Builtin.Arithmetic.compare op holds args)
      (Builtin.Arithmetic.compare op holds (args.map (Value.rename ρ))) :=
  bind (operands op args) fun p ↦ by simp [Carries]

/-! ## Sequences -/

theorem vec : Carries (Fault.rename ρ) (Value.rename ρ) (Builtin.Sequence.vec args)
    (Builtin.Sequence.vec (args.map (Value.rename ρ))) :=
  bind (one _ args) fun v ↦ bind (items _ v) fun vs ↦ by simp [Carries]

theorem count : Carries (Fault.rename ρ) (Value.rename ρ) (Builtin.Sequence.count args)
    (Builtin.Sequence.count (args.map (Value.rename ρ))) :=
  bind (one _ args) fun v ↦ bind (itemsOrNil _ v) fun vs ↦ by simp [Carries]

theorem cons : Carries (Fault.rename ρ) (Value.rename ρ) (Builtin.Sequence.cons args)
    (Builtin.Sequence.cons (args.map (Value.rename ρ))) :=
  bind (two _ args) fun p ↦ bind (itemsOrNil _ p.2) fun vs ↦ by simp [Carries]

theorem concat : Carries (Fault.rename ρ) (Value.rename ρ) (Builtin.Sequence.concat args)
    (Builtin.Sequence.concat (args.map (Value.rename ρ))) :=
  bind (mapM fun v _ ↦ itemsOrNil _ v) fun vss ↦ by simp [Carries, List.map_flatten]

theorem first : Carries (Fault.rename ρ) (Value.rename ρ) (Builtin.Sequence.first args)
    (Builtin.Sequence.first (args.map (Value.rename ρ))) :=
  bind (one _ args) fun v ↦ bind (itemsOrNil _ v) fun vs ↦ by cases vs <;> simp [Carries]

theorem rest : Carries (Fault.rename ρ) (Value.rename ρ) (Builtin.Sequence.rest args)
    (Builtin.Sequence.rest (args.map (Value.rename ρ))) :=
  bind (one _ args) fun v ↦ bind (itemsOrNil _ v) fun vs ↦ by simp [Carries]

theorem nth : Carries (Fault.rename ρ) (Value.rename ρ) (Builtin.Sequence.nth args)
    (Builtin.Sequence.nth (args.map (Value.rename ρ))) := by
  refine bind (two _ args) fun ⟨v, index⟩ ↦ bind (items _ v) fun vs ↦ ?_
  have hunwanted := unwanted (ρ := ρ) (f := Value.rename ρ) .nth index .index
  cases index with
  | int n =>
    by_cases hn : n < 0
    · simp [Carries, Fault.rename, hn]
    · cases hv : vs[n.toNat]? <;> simp [Carries, Fault.rename, hn, hv]
  | _ => simpa using hunwanted

theorem conj : Carries (Fault.rename ρ) (Value.rename ρ) (Builtin.Sequence.conj args)
    (Builtin.Sequence.conj (args.map (Value.rename ρ))) := by
  cases args with
  | nil => exact refuse _
  | cons collection elems =>
    rw [List.map_cons, Builtin.Sequence.conj, Builtin.Sequence.conj, Value.bare_rename]
    generalize collection.bare = w
    have hunwanted := unwanted (ρ := ρ) (f := Value.rename ρ) .conj w .sequence
    cases w with
    | vec vs | list l vs => simp [Carries]
    | _ => simpa using hunwanted

theorem seq : Carries (Fault.rename ρ) (Value.rename ρ) (Builtin.Sequence.seq args)
    (Builtin.Sequence.seq (args.map (Value.rename ρ))) := by
  refine bind (one _ args) fun v ↦ ?_
  let listed (vs : List Value) : Answer Value := .ok (if vs.isEmpty then .nil else .list none vs)
  have hlisted (vs : List Value) :
      Carries (Fault.rename ρ) (Value.rename ρ) (listed vs) (listed (vs.map (Value.rename ρ))) := by
    cases vs <;> simp [Carries, listed]
  rw [Value.bare_rename]
  generalize v.bare = w
  have hitems := bind (items (ρ := ρ) .seq w) hlisted
  cases w with
  | nil => rw [Value.rename_nil]; exact hlisted []
  | str text =>
    have hchars := hlisted (text.toList.map fun c ↦ .str (.singleton c))
    rw [List.map_map, Function.comp_def] at hchars
    simp only [Value.rename_str] at hchars ⊢
    exact hchars
  | _ => simpa [listed] using hitems

/-! ## Maps -/

theorem extend (d : Dict Key Value) :
    Carries (Fault.rename ρ) (Value.rename ρ) (Builtin.Table.extend op d args)
      (Builtin.Table.extend op (d.map (Value.rename ρ)) (args.map (Value.rename ρ))) := by
  rw [Builtin.Table.extend, Builtin.Table.extend, pairs?_map]
  cases pairs? args with
  | none => exact refuse _
  | some pairs =>
    refine bind (f := List.map fun e ↦ (e.1, e.2.rename ρ)) (mapM fun p _ ↦ ?_) fun keyed ↦ ?_
    · exact bind (key op p.1) fun k ↦ ok (k, p.2)
    · simp [Carries, Dict.map_insertAll]

theorem hashMap : Carries (Fault.rename ρ) (Value.rename ρ) (Builtin.Table.hashMap args)
    (Builtin.Table.hashMap (args.map (Value.rename ρ))) :=
  extend _ args .empty

theorem get : Carries (Fault.rename ρ) (Value.rename ρ) (Builtin.Table.get args)
    (Builtin.Table.get (args.map (Value.rename ρ))) := by
  refine bind (two _ args) fun ⟨m, k⟩ ↦ ?_
  let found (d : Dict Key Value) : Answer Value := .ok ((k.key?.bind d.get?).getD .nil)
  have hfound (d : Dict Key Value) :
      Carries (Fault.rename ρ) (Value.rename ρ) (found d) (found (d.map (Value.rename ρ))) := by
    cases hkey : k.key? with
    | none => simp [Carries, found, hkey]
    | some key => cases hget : d.get? key <;> simp [Carries, found, hkey, hget]
  have hentries := bind (entries (ρ := ρ) .get m) hfound
  cases m with
  | nil => simp [Carries]
  | _ => simpa [found] using hentries

theorem contains : Carries (Fault.rename ρ) (Value.rename ρ) (Builtin.Table.contains args)
    (Builtin.Table.contains (args.map (Value.rename ρ))) :=
  bind (two _ args) fun p ↦ bind (entries _ p.1) fun d ↦ by simp [Carries]

theorem assoc : Carries (Fault.rename ρ) (Value.rename ρ) (Builtin.Table.assoc args)
    (Builtin.Table.assoc (args.map (Value.rename ρ))) := by
  cases args with
  | nil => exact refuse _
  | cons m args => exact bind (entries _ m) fun d ↦ extend _ args d

theorem dissoc : Carries (Fault.rename ρ) (Value.rename ρ) (Builtin.Table.dissoc args)
    (Builtin.Table.dissoc (args.map (Value.rename ρ))) := by
  cases args with
  | nil => exact refuse _
  | cons m ks =>
    refine bind (entries _ m) fun d ↦ ?_
    have hkeys : (ks.map (Value.rename ρ)).filterMap Value.key? = ks.filterMap Value.key? := by
      simp [List.filterMap_map]
    simp [Carries, hkeys, Dict.map_eraseAll]

theorem keys : Carries (Fault.rename ρ) (Value.rename ρ) (Builtin.Table.keys args)
    (Builtin.Table.keys (args.map (Value.rename ρ))) :=
  bind (one _ args) fun v ↦ bind (entries _ v) fun d ↦ by simp [Carries]

theorem vals : Carries (Fault.rename ρ) (Value.rename ρ) (Builtin.Table.vals args)
    (Builtin.Table.vals (args.map (Value.rename ρ))) :=
  bind (one _ args) fun v ↦ bind (entries _ v) fun d ↦ by simp [Carries]

end

/-! ## Parameters -/

theorem nameOf (v : Value) :
    Carries (EvalError.rename ρ) id (Params.nameOf v) (Params.nameOf (v.rename ρ)) := by
  cases v <;> simp [Carries, Params.nameOf, EvalError.rename, TypeError.rename]

theorem ofNames (names : List String) :
    Carries (EvalError.rename ρ) id (Params.ofNames names) (Params.ofNames names) := by
  rw [Params.ofNames]
  split
  · exact ok _
  · split
    · split
      · exact ok _
      · exact error _
    · exact error _

theorem ofForm (form : Value) :
    Carries (EvalError.rename ρ) id (Params.ofForm form) (Params.ofForm (form.rename ρ)) := by
  rw [Params.ofForm, Params.ofForm, Value.items?_rename, Value.bare_rename]
  cases form.items? with
  | none => exact error _
  | some items =>
    refine bind (mapM fun v _ ↦ nameOf v) fun names ↦ ?_
    rw [List.map_id]
    exact ofNames names

/-- What parameters are bound to has new serial numbers, and so has the list of the rest. -/
theorem params_bind (p : Params) (l : Option Label) (args : List Value) :
    Carries (EvalError.rename ρ) (List.map fun e ↦ (e.1, e.2.rename ρ)) (p.bind l args)
      (p.bind (l.map (Label.rename ρ)) (args.map (Value.rename ρ))) := by
  rw [Params.bind, Params.bind, List.length_map]
  split
  · cases p.rest <;> simp [Carries, List.zip_map_right, List.map_drop, Prod.map]
  · exact error _

/-! ## Templates -/

theorem argument? (marker : String) (form : Value) :
    Carries (Fault.rename ρ) (Option.map (Value.rename ρ)) (Template.argument? marker form)
      (Template.argument? marker (form.rename ρ)) := by
  rw [Template.argument?, Template.argument?, Value.items?_rename]
  rcases form.items? with _ | _ | ⟨head, args⟩
  · exact ok none
  · exact ok none
  · cases head with
    | sym head =>
      simp only [Option.map_some, List.map_cons, Value.rename_sym]
      split
      · rcases args with _ | ⟨arg, _ | ⟨extra, rest⟩⟩
        · exact error _
        · exact ok (some arg)
        · exact error _
      · exact ok none
    | _ => simp [Carries]

theorem callOf_rename (label : Label) (head : String) (args : List Value) :
    (Template.callOf label head args).rename ρ =
      Template.callOf (label.rename ρ) head (args.map (Value.rename ρ)) := by
  simp [Template.callOf]

section

variable {code : Label → Value → Except Fault Value}
  (hcode : ∀ label t, Carries (Fault.rename ρ) (Value.rename ρ) (code label t)
    (code (label.rename ρ) (t.rename ρ)))
include hcode

theorem prepend (label : Label) (elem tail : Value) :
    Carries (Fault.rename ρ) (Value.rename ρ) (Template.prepend code label elem tail)
      (Template.prepend code (label.rename ρ) (elem.rename ρ) (tail.rename ρ)) := by
  refine bind (argument? Template.one elem) fun arg ↦ ?_
  cases arg with
  | some arg => simp [Carries, callOf_rename]
  | none =>
    refine bind (argument? Template.many elem) fun arg ↦ ?_
    cases arg with
    | some arg => simp [Carries, callOf_rename]
    | none =>
      refine bind (hcode (label.part 1) elem) fun c ↦ ?_
      simp [Carries, callOf_rename, pure, Except.pure]

theorem elements (label : Label) (items : List Value) :
    Carries (Fault.rename ρ) (Value.rename ρ) (Template.elements code label items)
      (Template.elements code (label.rename ρ) (items.map (Value.rename ρ))) := by
  induction items generalizing label with
  | nil => simp [Carries, Template.elements]
  | cons elem rest ih =>
    exact bind (ih (label.part 2)) fun tail ↦ prepend hcode label elem tail

end

/-- **The code of a template** is the same with new serial numbers, its label among them. -/
theorem code (room : Nat) (label : Label) (t : Value) :
    Carries (Fault.rename ρ) (Value.rename ρ) (Template.code room label t)
      (Template.code room (label.rename ρ) (t.rename ρ)) := by
  induction room generalizing label t with
  | zero => exact error _
  | succ room ih =>
    rw [Template.code, Template.code, Value.bare_rename]
    cases hbare : t.bare with
    | list l items =>
      simp only [Value.rename_list]
      refine bind (argument? Template.one t) fun arg ↦ ?_
      cases arg with
      | some arg => exact ok arg
      | none => exact elements ih label items
    | vec items =>
      simp only [Value.rename_vec]
      refine bind (elements ih (label.part 1) items) fun c ↦ ?_
      simp [Carries, callOf_rename, pure, Except.pure]
    | sym | map => simp [Carries, callOf_rename]
    | _ => simp [Carries]

end Carries

/-! ## What is read -/

theorem Collects.rename_eq {b : Bracket} {vs : List Value} {v : Value} (h : Collects b vs v)
    (hvs : ∀ w ∈ vs, w.rename ρ = w) : v.rename ρ = v := by
  have hmap {ws : List Value} (hws : ∀ w ∈ ws, w.rename ρ = w) : ws.map (Value.rename ρ) = ws :=
    (List.map_congr_left hws).trans (List.map_id _)
  cases h with
  | list | vec => simp [hmap hvs]
  | map entries =>
    have hentries : (entries.map fun e ↦ (e.1, e.2.rename ρ)) = entries := by
      refine (List.map_congr_left fun e he ↦ ?_).trans (List.map_id _)
      rw [hvs e.2 (List.mem_flatMap.2 ⟨e, he, by simp⟩)]
      rfl
    rw [Value.rename_map, Dict.map_ofList, hentries]
    rfl

/-- What a text writes has no serial numbers. -/
theorem Form.rename_eq {ts : List Token} {v : Value} (h : Form ts v) : v.rename ρ = v := by
  induction h with
  | string | keyword => simp
  | word h => cases h <;> simp
  | mark m h ih => simp [ih]
  | metadata hdata hv ihdata ihv => simp [ihdata, ihv]
  | group b hparts hv ih =>
    refine hv.rename_eq fun w hw ↦ ?_
    obtain ⟨p, hp, rfl⟩ := List.mem_map.1 hw
    exact ih p hp

theorem Reader.rename_eq_of_read {limit : Nat} {source : String} {v : Value}
    (h : read limit source = .ok v) : v.rename ρ = v := by
  have hparse : parse source = .ok v := by
    rw [← h, read_eq_parse]
    simp [h]
  exact (parse_eq_ok_iff.1 hparse).rename_eq

end Lisplet
