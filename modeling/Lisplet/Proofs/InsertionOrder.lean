import Lisplet.Builtin.Call
import Lisplet.Proofs.Alike
import Lisplet.Proofs.Answers
import Lisplet.Proofs.Metadata
import Lisplet.Proofs.Ordered

/-!
# Maps of the language

A map that calls of `hash-map`, `assoc` and `dissoc` have built, with whatever metadata put on it in
between, is told apart from none by what a program can see of it: `get`, `contains?`, `keys`, `vals`
and printing show the entries of the finite map in insertion order that the same assignments and
deletions lead to (`Built`, `Value.Shows`).  The calls change nothing but the count of serial
numbers, and so a map that was passed in is what it was.

An assignment wants a value for every key, which is looked at first, and keys that are strings or
keywords.  The first argument that is no key is shown in the message.  It may be an atom that leads
back to itself; there are no words for that error, and the call overflows in its place.
-/

set_option autoImplicit false

namespace Lisplet

/-! ## Arguments that are taken two by two -/

/-- The assignments that arguments make, if each second one follows on a key. -/
def assignments? : List Value → Option (List (Key × Value))
  | [] => some []
  | [_] => none
  | k :: v :: rest => do
    let key ← k.key?
    let ps ← assignments? rest
    some ((key, v) :: ps)

theorem assignments?_pair {k v : Value} {key : Key} (h : k.key? = some key) :
    assignments? [k, v] = some [(key, v)] := by
  rw [assignments?, h]
  rfl

/-- The first argument that stands for a key and is none. -/
def badKey? : List Value → Option Value
  | k :: _ :: rest => if k.key?.isNone then some k else badKey? rest
  | _ => none

/-- Arguments are odd in number, or one of them should be a key and is none, or all is well. -/
theorem arguments_cases (args : List Value) :
    args.length % 2 = 1 ∨ (args.length % 2 = 0 ∧ ∃ k, badKey? args = some k) ∨
      ∃ ps, assignments? args = some ps := by
  fun_induction assignments? args with
  | case1 => exact .inr (.inr ⟨[], rfl⟩)
  | case2 => exact .inl rfl
  | case3 k v rest ih =>
    rw [badKey?, List.length_cons, List.length_cons, Nat.add_assoc, Nat.add_mod_right]
    cases hk : k.key? with
    | none =>
      obtain heven | hodd := Nat.mod_two_eq_zero_or_one rest.length
      · exact .inr (.inl ⟨heven, k, rfl⟩)
      · exact .inl hodd
    | some key =>
      obtain hodd | ⟨heven, hbad⟩ | ⟨ps, hps⟩ := ih
      · exact .inl hodd
      · exact .inr (.inl ⟨heven, hbad⟩)
      · exact .inr (.inr ⟨(key, v) :: ps, by rw [hps]; rfl⟩)

namespace Builtin.Table

variable {op : Builtin} {d : Dict Key Value} {args : List Value}

theorem extend_of_odd (h : args.length % 2 = 1) :
    extend op d args = refuse (.arity (.oddPairs op)) := by
  have hnone : pairs? args = none := by
    have hsome := isSome_pairs? args
    rw [h] at hsome
    exact Option.not_isSome_iff_eq_none.1 (by rw [hsome]; decide)
  rw [extend, hnone]

/-- The first bad key ends the reading of keys. -/
theorem exists_pairs_of_badKey (op : Builtin) {k : Value} (heven : args.length % 2 = 0)
    (h : badKey? args = some k) : ∃ pairs, pairs? args = some pairs ∧
      (pairs.mapM fun p ↦ return (← key op p.1, p.2)) = refuse (.type (.key op k)) := by
  fun_induction badKey? args with
  | case1 k' v rest hk =>
    obtain rfl := Option.some.inj h
    obtain ⟨pairs, hpairs⟩ : ∃ pairs, pairs? rest = some pairs := by
      rw [← Option.isSome_iff_exists, isSome_pairs?, beq_iff_eq]
      simpa [Nat.add_assoc] using heven
    refine ⟨(k', v) :: pairs, by rw [pairs?, hpairs]; rfl, ?_⟩
    rw [List.mapM_cons, key, Option.isNone_iff_eq_none.1 hk]
    rfl
  | case2 k' v rest hk ih =>
    obtain ⟨pairs, hpairs, hmap⟩ := ih (by simpa [Nat.add_assoc] using heven) h
    obtain ⟨key', hkey⟩ := Option.ne_none_iff_exists'.1 (mt Option.isNone_iff_eq_none.2 hk)
    refine ⟨(k', v) :: pairs, by rw [pairs?, hpairs]; rfl, ?_⟩
    rw [List.mapM_cons, hmap, key, hkey]
    rfl
  | case3 => cases h

theorem exists_pairs_of_assignments (op : Builtin) {ps : List (Key × Value)}
    (h : assignments? args = some ps) : ∃ pairs, pairs? args = some pairs ∧
      (pairs.mapM fun p ↦ return (← key op p.1, p.2)) = (.ok ps : Answer (List (Key × Value))) := by
  fun_induction assignments? args generalizing ps with
  | case1 =>
    obtain rfl := Option.some.inj h
    exact ⟨[], rfl, rfl⟩
  | case2 => cases h
  | case3 k v rest ih =>
    obtain ⟨key', hkey, h⟩ := Option.bind_eq_some_iff.1 h
    obtain ⟨qs, hqs, h⟩ := Option.bind_eq_some_iff.1 h
    obtain rfl := Option.some.inj h
    obtain ⟨pairs, hpairs, hmap⟩ := ih hqs
    refine ⟨(k, v) :: pairs, by rw [pairs?, hpairs]; rfl, ?_⟩
    rw [List.mapM_cons, hmap, key, hkey]
    rfl

theorem extend_of_badKey {k : Value} (heven : args.length % 2 = 0) (h : badKey? args = some k) :
    extend op d args = refuse (.type (.key op k)) := by
  obtain ⟨pairs, hpairs, hmap⟩ := exists_pairs_of_badKey op heven h
  rw [extend, hpairs]
  dsimp only
  rw [hmap]
  rfl

theorem extend_of_assignments {ps : List (Key × Value)} (h : assignments? args = some ps) :
    extend op d args = .ok (.map none (d.insertAll ps)) := by
  obtain ⟨pairs, hpairs, hmap⟩ := exists_pairs_of_assignments op h
  rw [extend, hpairs]
  dsimp only
  rw [hmap]
  rfl

end Builtin.Table

/-! ## What functions of maps answer -/

namespace Builtin

variable {op : Builtin} {m : Value} {l : Option Label} {d : Dict Key Value}

theorem entries_of_map (h : m.bare = .map l d) : entries op m = .ok d := by
  rw [entries, h]

namespace Table

theorem get_of_map (h : m.bare = .map l d) (k : Value) :
    get [m, k] = .ok ((k.key?.bind d.get?).getD .nil) := by
  have htwo : two .get [m, k] = .ok (m, k) := rfl
  rw [get, htwo]
  cases m with
  | map l' d' =>
    obtain ⟨-, rfl⟩ := Value.map.inj h
    rfl
  | withMeta v data =>
    show entries .get (.withMeta v data) >>= _ = _
    rw [entries_of_map h]
    rfl
  | _ => cases h

theorem contains_of_map (h : m.bare = .map l d) (k : Value) :
    contains [m, k] = .ok (.bool (k.key?.any d.contains)) := by
  show entries .contains m >>= _ = _
  rw [entries_of_map h]
  rfl

theorem keys_of_map (h : m.bare = .map l d) : keys [m] = .ok (.list none (d.keys.map .ofKey)) := by
  show entries .keys m >>= _ = _
  rw [entries_of_map h]
  rfl

theorem vals_of_map (h : m.bare = .map l d) : vals [m] = .ok (.list none d.values) := by
  show entries .vals m >>= _ = _
  rw [entries_of_map h]
  rfl

theorem assoc_of_map (h : m.bare = .map l d) (args : List Value) :
    assoc (m :: args) = extend .assoc d args := by
  rw [assoc, entries_of_map h]
  rfl

theorem dissoc_of_map (h : m.bare = .map l d) (ks : List Value) :
    dissoc (m :: ks) = .ok (.map none ((ks.filterMap Value.key?).foldl Dict.erase d)) := by
  rw [dissoc, entries_of_map h]
  rfl

end Table

theorem Kind.withMeta_of_map (h : m.bare = .map l d) (data : Value) :
    Kind.withMeta [m, data] = .ok (.withMeta (.map l d) data) := by
  show (if takesMetadata m.bare then _ else _) = _
  rw [h]
  rfl

end Builtin

/-! ## Ends of calls -/

section

variable (eng : Engine) (s : Store)

theorem Engine.make_refuse (e : EvalError) :
    eng.make (Builtin.refuse e) s = .error (eng.failure s.atoms e) s := by
  have hfail : eng.make (Builtin.refuse e) = eng.fail e := Direct.fail_bind eng e _
  rw [hfail, Engine.fail_eq]

/-- The message for a bad key shows it. -/
theorem EvalError.message_key (heap : Heap) (room : Nat) (op : Builtin) (k : Value) :
    (EvalError.type (.key op k)).message heap room = (k.print heap .readable room).map fun text ↦
      op.name ++ ": map keys must be strings or keywords, got " ++ text :=
  rfl

theorem Engine.make_map (d : Dict Key Value) :
    eng.make (.ok (.map none d)) s =
      .ok (.map (some ⟨s.serials, []⟩) d) (s.withSerials (s.serials + 1)) :=
  rfl

theorem Engine.make_list (vs : List Value) :
    eng.make (.ok (.list none vs)) s =
      .ok (.list (some ⟨s.serials, []⟩) vs) (s.withSerials (s.serials + 1)) :=
  rfl

end

/-! ## Maps that calls have built -/

/-- **Calls have built the map `m`**, and the assignments and deletions that they stand for lead to
`o`.  The calls may be made from any frames, in any stores and with any room. -/
inductive Built : Value → Ordered Key Value → Prop
  | hashMap (eng : Engine) (scope : FrameId) {args : List Value} {ps : List (Key × Value)}
    {m : Value} {s s' : Store} (hps : assignments? args = some ps)
    (h : Builtin.hashMap.call eng scope args s = .ok m s') : Built m (Ordered.empty.assignAll ps)
  | assoc (eng : Engine) (scope : FrameId) {args : List Value} {ps : List (Key × Value)}
    {m m' : Value} {s s' : Store} {o : Ordered Key Value} (hm : Built m o)
    (hps : assignments? args = some ps)
    (h : Builtin.assoc.call eng scope (m :: args) s = .ok m' s') : Built m' (o.assignAll ps)
  | dissoc (eng : Engine) (scope : FrameId) {ks : List Value} {m m' : Value} {s s' : Store}
    {o : Ordered Key Value} (hm : Built m o)
    (h : Builtin.dissoc.call eng scope (m :: ks) s = .ok m' s') :
    Built m' (o.deleteAll (ks.filterMap Value.key?))
  | withMeta (eng : Engine) (scope : FrameId) {data m m' : Value} {s s' : Store}
    {o : Ordered Key Value} (hm : Built m o)
    (h : Builtin.withMeta.call eng scope [m, data] s = .ok m' s') : Built m' o

/-- What calls have built holds the entries of the finite map. -/
theorem Built.exists_bare {m : Value} {o : Ordered Key Value} (h : Built m o) :
    ∃ l, m.bare = .map l o.toDict := by
  induction h with
  | @hashMap eng scope args ps m s s' hps h =>
    replace h : eng.make (Builtin.Table.hashMap args) s = .ok m s' := h
    rw [Builtin.Table.hashMap, Builtin.Table.extend_of_assignments hps, Engine.make_map] at h
    obtain ⟨rfl, -⟩ := EStateM.Result.ok.inj h
    exact ⟨_, by rw [Ordered.toDict_assignAll]; rfl⟩
  | @assoc eng scope args ps m m' s s' o hm hps h ih =>
    obtain ⟨l, hbare⟩ := ih
    replace h : eng.make (Builtin.Table.assoc (m :: args)) s = .ok m' s' := h
    rw [Builtin.Table.assoc_of_map hbare, Builtin.Table.extend_of_assignments hps,
      Engine.make_map] at h
    obtain ⟨rfl, -⟩ := EStateM.Result.ok.inj h
    exact ⟨_, by rw [Ordered.toDict_assignAll]; rfl⟩
  | @dissoc eng scope ks m m' s s' o hm h ih =>
    obtain ⟨l, hbare⟩ := ih
    replace h : eng.make (Builtin.Table.dissoc (m :: ks)) s = .ok m' s' := h
    rw [Builtin.Table.dissoc_of_map hbare, Engine.make_map] at h
    obtain ⟨rfl, -⟩ := EStateM.Result.ok.inj h
    exact ⟨_, by rw [Ordered.toDict_deleteAll]; rfl⟩
  | @withMeta eng scope data m m' s s' o hm h ih =>
    obtain ⟨l, hbare⟩ := ih
    replace h : eng.lift (Builtin.Kind.withMeta [m, data]) s = .ok m' s' := h
    rw [Builtin.Kind.withMeta_of_map hbare] at h
    obtain ⟨rfl, -⟩ := EStateM.Result.ok.inj h
    exact ⟨l, rfl⟩

/-! ## What can be seen of a map -/

/-- The printed form of a map: its keys and values in order, between braces. -/
def Ordered.print (heap : Heap) (style : PrintStyle) (room : Nat) (o : Ordered Key Value) :
    Option String :=
  ((o.entries.flatMap fun e ↦ [Value.ofKey e.1, e.2]).mapM (Value.print heap style room)).map
    (Value.bracketed "\x7b" · "\x7d")

/-- **Of the map can be seen what stands in the entries**: by looking up and printing, and in the
lists of the keys and of the values. -/
structure Value.Shows (m : Value) (o : Ordered Key Value) : Prop where
  get : ∀ (eng : Engine) (scope : FrameId) (s : Store) (k : Value),
    Builtin.get.call eng scope [m, k] s = .ok ((k.key?.bind o.lookup).getD .nil) s
  contains : ∀ (eng : Engine) (scope : FrameId) (s : Store) (k : Value),
    Builtin.contains.call eng scope [m, k] s = .ok (.bool (k.key?.bind o.lookup).isSome) s
  keys : ∀ (eng : Engine) (scope : FrameId) (s : Store), ∃ l,
    Builtin.keys.call eng scope [m] s =
      .ok (.list l (o.entries.map fun e ↦ .ofKey e.1)) (s.withSerials (s.serials + 1))
  vals : ∀ (eng : Engine) (scope : FrameId) (s : Store), ∃ l,
    Builtin.vals.call eng scope [m] s =
      .ok (.list l (o.entries.map Prod.snd)) (s.withSerials (s.serials + 1))
  print : ∀ (heap : Heap) (style : PrintStyle) (text : String),
    (∃ room, m.print heap style room = some text) ↔ ∃ room, o.print heap style room = some text

section

variable {m : Value} {o : Ordered Key Value} {l : Option Label} {heap : Heap} {style : PrintStyle}

/-- The entries of a map print one level below it. -/
theorem print_map_eq (room : Nat) :
    (Value.map l o.toDict).print heap style (room + 2) = o.print heap style (room + 1) := by
  let entry (e : Key × Value) : Option (List String) :=
    (e.2.print heap style (room + 1)).map fun t ↦ [style.key e.1, t]
  have hentries (es : List (Key × Value)) :
      (es.flatMap fun e ↦ [Value.ofKey e.1, e.2]).mapM (Value.print heap style (room + 1)) =
        (es.mapM entry).map List.flatten := by
    induction es with
    | nil => rfl
    | cons e es ih =>
      have hkey : (Value.ofKey e.1).print heap style (room + 1) = some (style.key e.1) := by
        cases e.1 <;> rfl
      rw [List.flatMap_cons, List.cons_append, List.cons_append, List.nil_append, List.mapM_cons,
        List.mapM_cons, List.mapM_cons, hkey, ih]
      dsimp only [entry]
      cases e.2.print heap style (room + 1) with
      | none => rfl
      | some t =>
        cases es.mapM entry with
        | none => rfl
        | some ts => rfl
  rw [Ordered.print, hentries, Option.map_map, Value.print]
  rfl

theorem exists_print_map_iff {text : String} :
    (∃ room, (Value.map l o.toDict).print heap style room = some text) ↔
      ∃ room, o.print heap style room = some text := by
  constructor
  · rintro ⟨room, h⟩
    refine ⟨room + 1, ?_⟩
    rw [← print_map_eq (l := l)]
    exact Value.print_within (Nat.le_add_right room 2) _ text h
  · rintro ⟨room, h⟩
    refine ⟨room + 2, ?_⟩
    rw [print_map_eq]
    exact Within.map (.mapM fun w _ ↦ Value.print_within (Nat.le_succ room) w) _ text h

theorem Value.shows_of_bare (h : m.bare = .map l o.toDict) : m.Shows o where
  get eng scope s k := by
    show eng.lift (Builtin.Table.get [m, k]) s = _
    rw [Builtin.Table.get_of_map h]
    rfl
  contains eng scope s k := by
    show eng.lift (Builtin.Table.contains [m, k]) s = _
    rw [Builtin.Table.contains_of_map h]
    cases k.key? <;> rfl
  keys eng scope s := by
    refine ⟨some ⟨s.serials, []⟩, ?_⟩
    show eng.make (Builtin.Table.keys [m]) s = _
    rw [Builtin.Table.keys_of_map h, Engine.make_list, Dict.keys, List.map_map]
    rfl
  vals eng scope s := by
    refine ⟨some ⟨s.serials, []⟩, ?_⟩
    show eng.make (Builtin.Table.vals [m]) s = _
    rw [Builtin.Table.vals_of_map h, Engine.make_list]
    rfl
  print heap style text := by
    rw [← Value.exists_print_bare_iff, h, exists_print_map_iff]

/-- **The lists of the keys and of the values are aligned**: what stands at one place in the one is
the value of what stands there in the other. -/
theorem Value.Shows.aligned (h : m.Shows o) {eng : Engine} {scope : FrameId}
    {s s₁ s₂ : Store} {l l' : Option Label} {ks vs : List Value}
    (hks : Builtin.keys.call eng scope [m] s = .ok (.list l ks) s₁)
    (hvs : Builtin.vals.call eng scope [m] s = .ok (.list l' vs) s₂) :
    List.Forall₂ (fun k v ↦ Builtin.get.call eng scope [m, k] s = .ok v s) ks vs := by
  obtain ⟨l₁, hkeys⟩ := h.keys eng scope s
  obtain ⟨l₂, hvals⟩ := h.vals eng scope s
  obtain ⟨hks, -⟩ := EStateM.Result.ok.inj (hks.symm.trans hkeys)
  obtain ⟨hvs, -⟩ := EStateM.Result.ok.inj (hvs.symm.trans hvals)
  obtain ⟨-, rfl⟩ := Value.list.inj hks
  obtain ⟨-, rfl⟩ := Value.list.inj hvs
  rw [List.forall₂_map_left_iff, List.forall₂_map_right_iff, List.forall₂_same]
  intro e he
  rw [h.get, Value.key?_ofKey, Option.bind_some, o.lookup_eq_some_iff.2 he]
  rfl

end

/-! ## How assigning ends -/

/-- **How a call that makes assignments to `o` ends.**  The number of the arguments is looked at
first, then the keys, from the left; if all is well, there is a map with the assignments. -/
inductive Assigns (eng : Engine) (s : Store) (op : Builtin) (args : List Value)
    (o : Ordered Key Value) : EStateM.Result Failure Store Value → Prop
  | odd (h : args.length % 2 = 1) :
    Assigns eng s op args o (.error (.error (.arity (.oddPairs op))
      (op.name ++ " requires an even number of key/value arguments")) s)
  | badKey {k : Value} {text : String} (heven : args.length % 2 = 0) (hk : badKey? args = some k)
    (htext : k.print s.atoms .readable eng.room = some text) :
    Assigns eng s op args o (.error (.error (.type (.key op k))
      (op.name ++ ": map keys must be strings or keywords, got " ++ text)) s)
  /-- There are no words for the error. -/
  | wordless {k : Value} (heven : args.length % 2 = 0) (hk : badKey? args = some k)
    (htext : k.print s.atoms .readable eng.room = none) :
    Assigns eng s op args o (.error .overflow s)
  | done {ps : List (Key × Value)} {m : Value} {s' : Store} (hps : assignments? args = some ps)
    (h : Built m (o.assignAll ps)) : Assigns eng s op args o (.ok m s')

section

variable {eng : Engine} {scope : FrameId} {s : Store} {op : Builtin} {args : List Value}
  {o : Ordered Key Value}

/-- A call that puts assignments into a dictionary ends as it should, if it builds what it should. -/
theorem assigns_extend {d : Dict Key Value}
    (hbuilt : ∀ ps m s', assignments? args = some ps →
      eng.make (Builtin.Table.extend op d args) s = .ok m s' → Built m (o.assignAll ps)) :
    Assigns eng s op args o (eng.make (Builtin.Table.extend op d args) s) := by
  obtain hodd | ⟨heven, k, hk⟩ | ⟨ps, hps⟩ := arguments_cases args
  · rw [Builtin.Table.extend_of_odd hodd, Engine.make_refuse]
    exact .odd hodd
  · rw [Builtin.Table.extend_of_badKey heven hk, Engine.make_refuse, Engine.failure,
      EvalError.message_key]
    cases htext : k.print s.atoms .readable eng.room with
    | none => exact .wordless heven hk htext
    | some text => exact .badKey heven hk htext
  · have hends := eng.make_map s (d.insertAll ps)
    rw [← Builtin.Table.extend_of_assignments hps] at hends
    have hdone := hbuilt ps _ _ hps hends
    rw [hends]
    exact .done hps hdone

theorem assigns_hashMap :
    Assigns eng s .hashMap args .empty (Builtin.hashMap.call eng scope args s) :=
  assigns_extend fun _ _ _ hps h ↦ .hashMap eng scope hps h

theorem assigns_assoc {m : Value} (hm : Built m o) :
    Assigns eng s .assoc args o (Builtin.assoc.call eng scope (m :: args) s) := by
  obtain ⟨l, hbare⟩ := hm.exists_bare
  have hcall : Builtin.assoc.call eng scope (m :: args) =
      eng.make (Builtin.Table.extend .assoc o.toDict args) :=
    congrArg eng.make (Builtin.Table.assoc_of_map hbare args)
  rw [hcall]
  exact assigns_extend fun ps m' s' hps h ↦ .assoc eng scope hm hps (hcall ▸ h)

/-- A deletion gives a map without the keys; what is no key counts as absent. -/
theorem exists_built_dissoc {m : Value} (hm : Built m o) (ks : List Value) :
    ∃ m' s', Builtin.dissoc.call eng scope (m :: ks) s = .ok m' s' ∧
      Built m' (o.deleteAll (ks.filterMap Value.key?)) := by
  obtain ⟨l, hbare⟩ := hm.exists_bare
  have hends := eng.make_map s ((ks.filterMap Value.key?).foldl Dict.erase o.toDict)
  rw [← Builtin.Table.dissoc_of_map hbare] at hends
  exact ⟨_, _, hends, .dissoc eng scope hm hends⟩

/-! ## One assignment after the other -/

/-- Makes assignments to a map, one call after the other. -/
def assocEach (eng : Engine) (scope : FrameId) (m : Value) : List (Value × Value) → Eval Value
  | [] => pure m
  | p :: ps => do assocEach eng scope (← Builtin.assoc.call eng scope [m, p.1, p.2]) ps

/-- Pairs as arguments that are taken two by two. -/
def paired (ps : List (Value × Value)) : List Value := ps.flatMap fun p ↦ [p.1, p.2]

theorem length_paired (ps : List (Value × Value)) : (paired ps).length % 2 = 0 := by
  induction ps with
  | nil => rfl
  | cons p ps ih =>
    rw [paired, List.flatMap_cons, List.length_append, ← paired, Nat.add_mod, ih]
    simp

/-- Two ends are maps with the same entries, or the same failure. -/
inductive SameMap :
    EStateM.Result Failure Store Value → EStateM.Result Failure Store Value → Prop
  | ok {m m' : Value} {s s' : Store} {l l' : Option Label} {d : Dict Key Value}
    (hm : m.bare = .map l d) (hm' : m'.bare = .map l' d) : SameMap (.ok m s) (.ok m' s')
  | error {f : Failure} {s s' : Store} : SameMap (.error f s) (.error f s')

section

variable {m : Value} {l : Option Label} {d : Dict Key Value}

theorem call_assoc_of_assignments {qs : List (Key × Value)} (hbare : m.bare = .map l d)
    (h : assignments? args = some qs) : Builtin.assoc.call eng scope (m :: args) s =
      .ok (.map (some ⟨s.serials, []⟩) (d.insertAll qs)) (s.withSerials (s.serials + 1)) := by
  show eng.make (Builtin.Table.assoc (m :: args)) s = _
  rw [Builtin.Table.assoc_of_map hbare, Builtin.Table.extend_of_assignments h, Engine.make_map]

theorem call_assoc_of_badKey {k : Value} (hbare : m.bare = .map l d)
    (heven : args.length % 2 = 0) (h : badKey? args = some k) :
    Builtin.assoc.call eng scope (m :: args) s =
      .error (eng.failure s.atoms (.type (.key .assoc k))) s := by
  show eng.make (Builtin.Table.assoc (m :: args)) s = _
  rw [Builtin.Table.assoc_of_map hbare, Builtin.Table.extend_of_badKey heven h, Engine.make_refuse]

theorem assocEach_cons_of_ok {m' : Value} {s' : Store} {p : Value × Value}
    {ps : List (Value × Value)} (h : Builtin.assoc.call eng scope [m, p.1, p.2] s = .ok m' s') :
    assocEach eng scope m (p :: ps) s = assocEach eng scope m' ps s' := by
  rw [assocEach]
  simp only [bind, EStateM.bind, h]

theorem assocEach_cons_of_error {f : Failure} {s' : Store} {p : Value × Value}
    {ps : List (Value × Value)} (h : Builtin.assoc.call eng scope [m, p.1, p.2] s = .error f s') :
    assocEach eng scope m (p :: ps) s = .error f s' := by
  rw [assocEach]
  simp only [bind, EStateM.bind, h]

variable (eng scope s) in
theorem exists_assocEach {ps : List (Value × Value)} {qs : List (Key × Value)}
    (hbare : m.bare = .map l d) (h : assignments? (paired ps) = some qs) :
    ∃ m' l' s', assocEach eng scope m ps s = .ok m' s' ∧ m'.bare = .map l' (d.insertAll qs) := by
  induction ps generalizing m l d s qs with
  | nil =>
    obtain rfl := Option.some.inj h
    exact ⟨m, l, s, rfl, hbare⟩
  | cons p ps ih =>
    obtain ⟨key, hkey, h⟩ := Option.bind_eq_some_iff.1 h
    obtain ⟨qs', hqs, h⟩ := Option.bind_eq_some_iff.1 h
    obtain rfl := Option.some.inj h
    replace hqs : assignments? (paired ps) = some qs' := hqs
    rw [assocEach_cons_of_ok (call_assoc_of_assignments hbare (assignments?_pair hkey))]
    exact ih _ (d := d.insertAll [(key, p.2)]) rfl hqs

variable (eng scope s) in
theorem exists_assocEach_error {ps : List (Value × Value)} {k : Value}
    (hbare : m.bare = .map l d) (h : badKey? (paired ps) = some k) : ∃ s',
      assocEach eng scope m ps s = .error (eng.failure s.atoms (.type (.key .assoc k))) s' := by
  induction ps generalizing m l d s with
  | nil => cases h
  | cons p ps ih =>
    replace h : (if p.1.key?.isNone then some p.1 else badKey? (paired ps)) = some k := h
    cases hkey : p.1.key? with
    | none =>
      rw [hkey] at h
      obtain rfl := Option.some.inj h
      have hone : badKey? [p.1, p.2] = some p.1 := by
        rw [badKey?, hkey]
        rfl
      have heven : [p.1, p.2].length % 2 = 0 := by simp
      exact ⟨s, assocEach_cons_of_error (call_assoc_of_badKey hbare heven hone)⟩
    | some key =>
      rw [hkey] at h
      rw [assocEach_cons_of_ok (call_assoc_of_assignments hbare (assignments?_pair hkey))]
      exact ih _ (d := d.insertAll [(key, p.2)]) rfl h

/-- **Many assignments are single ones, one after the other.** -/
theorem sameMap_assocEach (hbare : m.bare = .map l d) (ps : List (Value × Value)) :
    SameMap (Builtin.assoc.call eng scope (m :: paired ps) s) (assocEach eng scope m ps s) := by
  obtain hodd | ⟨heven, k, hk⟩ | ⟨qs, hqs⟩ := arguments_cases (paired ps)
  · rw [length_paired] at hodd
    cases hodd
  · obtain ⟨s', hends⟩ := exists_assocEach_error eng scope s hbare hk
    rw [call_assoc_of_badKey hbare heven hk, hends]
    exact .error
  · obtain ⟨m', l', s', hends, hm'⟩ := exists_assocEach eng scope s hbare hqs
    rw [call_assoc_of_assignments hbare hqs, hends]
    exact .ok rfl hm'

end

/-- Assigning to an empty map is making a map. -/
theorem call_assoc_eq_call_hashMap {m r : Value} {s' : Store} (hm : Built m .empty) :
    Builtin.assoc.call eng scope (m :: args) s = .ok r s' ↔
      Builtin.hashMap.call eng scope args s = .ok r s' := by
  obtain ⟨l, hbare⟩ := hm.exists_bare
  show eng.make (Builtin.Table.assoc (m :: args)) s = _ ↔
    eng.make (Builtin.Table.extend .hashMap .empty args) s = _
  rw [Builtin.Table.assoc_of_map hbare]
  obtain hodd | ⟨heven, k, hk⟩ | ⟨ps, hps⟩ := arguments_cases args
  · rw [Builtin.Table.extend_of_odd hodd, Builtin.Table.extend_of_odd hodd, Engine.make_refuse,
      Engine.make_refuse]
    simp
  · rw [Builtin.Table.extend_of_badKey heven hk, Builtin.Table.extend_of_badKey heven hk,
      Engine.make_refuse, Engine.make_refuse]
    simp
  · rw [Builtin.Table.extend_of_assignments hps, Builtin.Table.extend_of_assignments hps]
    rfl

end

/-! ## Nothing else changes -/

section

variable (eng : Engine) (s : Store)

theorem Engine.finalStore_lift {α : Type} (x : Answer α) : finalStore (eng.lift x s) = s := by
  match x with
  | .ok a => rfl
  | .error (.error e) => exact congrArg finalStore (eng.fail_eq s e)
  | .error (.thrown payload) => rfl
  | .error .tooDeep => rfl

theorem Engine.finalStore_make (x : Answer Value) :
    ∃ n, finalStore (eng.make x s) = s.withSerials n := by
  match x with
  | .ok v =>
    show ∃ n, finalStore (Eval.labelled v s) = s.withSerials n
    rw [Eval.labelled.eq_def]
    split
    · exact ⟨s.serials + 1, rfl⟩
    · exact ⟨s.serials + 1, rfl⟩
    · exact ⟨s.serials, rfl⟩
  | .error (.error e) => exact ⟨s.serials, congrArg finalStore (eng.make_refuse s e)⟩
  | .error (.thrown payload) => exact ⟨s.serials, rfl⟩
  | .error .tooDeep => exact ⟨s.serials, rfl⟩

end

/-- The functions that make maps or look into them. -/
def Builtin.ofMaps : List Builtin := [hashMap, isMap, get, contains, assoc, dissoc, keys, vals]

/-- **A call of a function of maps takes serial numbers and changes nothing.** -/
theorem finalStore_call_of_ofMaps {op : Builtin} (hop : op ∈ Builtin.ofMaps) (eng : Engine)
    (scope : FrameId) (args : List Value) (s : Store) :
    ∃ n, finalStore (op.call eng scope args s) = s.withSerials n := by
  cases op with
  | hashMap | assoc | dissoc | keys | vals => exact eng.finalStore_make s _
  | isMap | get | contains => exact ⟨s.serials, eng.finalStore_lift s _⟩
  | _ => exact absurd hop (by decide)

/-- **Maps are finite maps in insertion order.**

Of a map that calls have built can be seen what the same assignments and deletions lead to; its keys
and its values are aligned.  Calls that make assignments end as assignments do, deletions ignore
what is no key, many assignments are as good as single ones, and to assign to an empty map is to
make one.  No call changes anything but the count of serial numbers. -/
theorem maps_keep_insertion_order (eng : Engine) (scope : FrameId) (s : Store) :
    (∀ args,
      Assigns eng s .hashMap args .empty (Builtin.hashMap.call eng scope args s)) ∧
    (∀ m o, Built m o →
      m.Shows o ∧
      (∀ s₁ s₂ l l' ks vs,
        Builtin.keys.call eng scope [m] s = .ok (.list l ks) s₁ →
        Builtin.vals.call eng scope [m] s = .ok (.list l' vs) s₂ →
        List.Forall₂ (fun k v ↦ Builtin.get.call eng scope [m, k] s = .ok v s) ks vs) ∧
      (∀ args, Assigns eng s .assoc args o (Builtin.assoc.call eng scope (m :: args) s)) ∧
      (∀ ks, ∃ m' s', Builtin.dissoc.call eng scope (m :: ks) s = .ok m' s' ∧
        Built m' (o.deleteAll (ks.filterMap Value.key?))) ∧
      (∀ ps, SameMap (Builtin.assoc.call eng scope (m :: paired ps) s)
        (assocEach eng scope m ps s)) ∧
      (o = .empty → ∀ args r s',
        Builtin.assoc.call eng scope (m :: args) s = .ok r s' ↔
          Builtin.hashMap.call eng scope args s = .ok r s')) ∧
    ∀ op ∈ Builtin.ofMaps, ∀ args,
      ∃ n, finalStore (op.call eng scope args s) = s.withSerials n := by
  refine ⟨fun _ ↦ assigns_hashMap, fun m o hm ↦ ?_, fun _ hop args ↦
    finalStore_call_of_ofMaps hop eng scope args s⟩
  obtain ⟨l, hbare⟩ := hm.exists_bare
  have hshows := Value.shows_of_bare hbare
  refine ⟨hshows, fun _ _ _ _ _ _ ↦ hshows.aligned, fun _ ↦ assigns_assoc hm,
    exists_built_dissoc hm, sameMap_assocEach hbare, ?_⟩
  rintro rfl args r s'
  exact call_assoc_eq_call_hashMap hm

/-- A key that is deleted and assigned again moves to the end.  The keyword of the same text keeps
its place, and `nil` is its value and not the lack of one. -/
theorem maps_keep_insertion_order_three :
    let eng : Engine := ⟨9, fun _ ↦ none, fun _ ↦ throw .exhausted⟩
    let s : Store := {}
    ∃ m o l s', Built m o ∧ o.entries = [(.kw "a", .nil), (.str "a", .int 2)] ∧
      Builtin.keys.call eng 0 [m] s = .ok (.list l [.kw "a", .str "a"]) s' ∧
      Builtin.contains.call eng 0 [m, .kw "a"] s = .ok (.bool true) s ∧
      Builtin.get.call eng 0 [m, .kw "a"] s = .ok .nil s ∧
      ∃ n, finalStore (Builtin.dissoc.call eng 0 [m, .kw "a"] s) = s.withSerials n := by
  intro eng s
  let entries : List (Key × Value) := [(.str "a", .int 1), (.kw "a", .nil)]
  let entries' : List (Key × Value) := [(.kw "a", .nil), (.str "a", .int 2)]
  have hmade : Builtin.hashMap.call eng 0 [.str "a", .int 1, .kw "a", .nil] s =
      .ok (.map (some ⟨0, []⟩) ⟨entries⟩) (s.withSerials 1) := rfl
  have hdeleted : Builtin.dissoc.call eng 0 [.map (some ⟨0, []⟩) ⟨entries⟩, .str "a"] s =
      .ok (.map (some ⟨0, []⟩) ⟨[(.kw "a", .nil)]⟩) (s.withSerials 1) := rfl
  have hagain : Builtin.assoc.call eng 0 [.map (some ⟨0, []⟩) ⟨[(.kw "a", .nil)]⟩, .str "a", .int 2] s =
      .ok (.map (some ⟨0, []⟩) ⟨entries'⟩) (s.withSerials 1) := rfl
  have hbuilt := ((Built.hashMap eng 0 rfl hmade).dissoc eng 0 hdeleted).assoc eng 0 rfl hagain
  obtain ⟨-, hmaps, hnothing⟩ := maps_keep_insertion_order eng 0 s
  obtain ⟨hm, -⟩ := hmaps _ _ hbuilt
  obtain ⟨l, hkeys⟩ := hm.keys eng 0 s
  exact ⟨_, _, l, _, hbuilt, rfl, hkeys, hm.contains eng 0 s (.kw "a"), hm.get eng 0 s (.kw "a"),
    hnothing .dissoc (by decide) _⟩

namespace Session

/-- A session comes to an atom that holds itself.  It is no key, but a call that is to make it one
is not told so: whatever the room, the call overflows. -/
theorem no_words_for_endless_key : ∃ s a, Reachable anything s ∧ s.atoms.content a = .atom a ∧
    badKey? [.atom a, .int 1] = some (.atom a) ∧ ∀ (eng : Engine) (scope : FrameId),
      Builtin.hashMap.call eng scope [.atom a, .int 1] s = .error .overflow s := by
  let few : World := { disk := fun _ ↦ none, depth := 20, steps := 40 }
  let line := "(let* (a (atom nil)) (do (reset! a a) (throw a)))"
  have hthrows : Repl.throwsEndless (Session.rep few line bare) = true := by
    decide +kernel
  obtain ⟨a, s, hrep, hcontent⟩ := Repl.exists_of_throwsEndless hthrows
  have hreachable : Reachable anything (finalStore (Session.rep few line bare)) :=
    (reachable_bare few.disk).trans (.rep few line .refl trivial)
  rw [hrep] at hreachable
  refine ⟨s, a, hreachable, hcontent, rfl, fun eng scope ↦ ?_⟩
  show eng.make (Builtin.Table.extend .hashMap .empty [.atom a, .int 1]) s = _
  have heven : [Value.atom a, .int 1].length % 2 = 0 := by simp
  rw [Builtin.Table.extend_of_badKey heven rfl, Engine.make_refuse, Engine.failure,
    EvalError.message_key, Value.print_atom_eq_none hcontent]
  rfl

end Session

end Lisplet
