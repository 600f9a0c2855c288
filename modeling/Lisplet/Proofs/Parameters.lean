import Lisplet.Proofs.Answers

/-!
# Parameters and the arguments that they take

What a parameter list declares, said without a word about how it is read (`Params.Declares`), and
what the variables of a call then are, said without a word about how they are bound
(`Params.Holds`).

* *Reading* (`Params.accept_ofForm`).  A form declares parameters exactly if it is a list or a
  vector of symbols in which the marker stands nowhere, or once and in the last place but one.
  Everything else is told what is wrong with it, the first part that is no symbol before a misplaced
  marker.  The complaint about a part shows the part, and that is the one thing that can go wrong in
  another way: an atom that holds itself cannot be shown, and the complaint overflows.
* *Binding* (`Params.entering`).  A call with too few arguments, or with too many and no name to
  take them, makes no frame.  Any other makes one inside the frame that the function closes over,
  whose variables hold the arguments.  A name that stands twice among the fixed ones has the
  argument at its last place, and the name behind the marker wins over all others.
-/

set_option autoImplicit false

namespace Lisplet

namespace Params

/-! ## What a list of names declares -/

/-- **What a list of names declares**: fixed parameters, and behind the marker perhaps one for all
further arguments. -/
inductive Declares : List String → Params → Prop
  | fixed {names : List String} (h : restMarker ∉ names) : Declares names ⟨names, none⟩
  | further {formals : List String} {rest : String} (hformals : restMarker ∉ formals)
      (hrest : rest ≠ restMarker) :
      Declares (formals ++ [restMarker, rest]) ⟨formals, some rest⟩

variable {names : List String} {p : Params} {form : Value}

/-- Names declare something exactly if the marker is not among them, or once and in the last place
but one. -/
theorem exists_declares_iff : (∃ p, Declares names p) ↔
    names.count restMarker = 0 ∨
      names.count restMarker = 1 ∧ names.dropLast.getLast? = some restMarker := by
  constructor
  · rintro ⟨p, hfixed | ⟨hformals, hrest⟩⟩
    · exact .inl (List.count_eq_zero.2 hfixed)
    · rename_i formals rest
      have hlast : (formals ++ [restMarker, rest]).dropLast = formals ++ [restMarker] := by
        rw [List.dropLast_append_of_ne_nil (by simp)]
        rfl
      refine .inr ⟨?_, by rw [hlast, List.getLast?_concat]⟩
      rw [List.count_append, List.count_eq_zero.2 hformals, List.count_cons_self,
        List.count_singleton]
      simp [hrest]
  · rintro (hnone | ⟨hone, hlast⟩)
    · exact ⟨_, .fixed (List.count_eq_zero.1 hnone)⟩
    · -- the names are some front, the marker and one name more
      obtain ⟨formals, hfront⟩ := List.getLast?_eq_some_iff.1 hlast
      have hne : names ≠ [] := by
        rintro rfl
        simp at hone
      have hnames : names = formals ++ [restMarker, names.getLast hne] := by
        conv_lhs => rw [← List.dropLast_concat_getLast hne, hfront, List.append_assoc]
        rfl
      generalize names.getLast hne = rest at hnames
      subst hnames
      rw [List.count_append, List.count_cons_self, List.count_singleton] at hone
      have hformals : formals.count restMarker = 0 := by omega
      refine ⟨_, .further (List.count_eq_zero.1 hformals) fun hrest ↦ ?_⟩
      simp [hrest] at hone

theorem ofNames_eq_ok_iff : ofNames names = .ok p ↔ Declares names p := by
  constructor
  · intro h
    rw [ofNames] at h
    split at h
    · rename_i hnone
      obtain rfl := Except.ok.inj h
      exact .fixed (by simpa using hnone)
    · split at h
      · rename_i rest marker formals hrev
        split at h
        · rename_i hmarker
          obtain rfl := Except.ok.inj h
          have hnames : names = formals.reverse ++ [marker, rest] := by
            rw [← List.reverse_reverse names, hrev, List.reverse_cons, List.reverse_cons,
              List.append_assoc]
            rfl
          simp only [Bool.and_eq_true, decide_eq_true_eq, Bool.not_eq_true', List.contains_eq_mem,
            decide_eq_false_iff_not, List.mem_cons, not_or] at hmarker
          obtain ⟨rfl, hrest, hformals⟩ := hmarker
          rw [hnames]
          exact .further (by simpa using hformals) (Ne.symm hrest)
        · simp at h
      · simp at h
  · rintro (hnone | ⟨hformals, hrest⟩)
    · rw [ofNames, if_pos (by simpa using hnone)]
    · rename_i formals rest
      have hrev : (formals ++ [restMarker, rest]).reverse =
          rest :: restMarker :: formals.reverse := by simp
      rw [ofNames, if_neg (by simp), hrev]
      simp [hformals, Ne.symm hrest]

theorem ofNames_eq_error (h : ¬∃ p, Declares names p) : ofNames names = .error .restMarker := by
  cases hnames : ofNames names with
  | ok p => exact absurd ⟨p, ofNames_eq_ok_iff.1 hnames⟩ h
  | error e =>
    rw [ofNames] at hnames
    split at hnames
    · cases hnames
    · split at hnames
      · split at hnames <;> cases hnames
        rfl
      · cases hnames
        rfl

/-! ## What is wrong with a form -/

/-- A form is no list of symbols because of the given part of it, the first one that is not as it
should be. -/
inductive Faulty (form : Value) : Value → TypeError → Prop
  | list (h : form.items? = none) : Faulty form form.bare (.parameterList form.bare)
  | name {names : List String} {v : Value} {after : List Value}
      (h : form.items? = some (names.map .sym ++ v :: after)) (hv : ∀ name, v ≠ .sym name) :
      Faulty form v (.parameterName v)

/-- The values of a list are symbols, or one is the first that is none. -/
theorem mapM_nameOf_cases (vs : List Value) :
    (∃ names, vs = names.map .sym ∧ vs.mapM nameOf = .ok names) ∨
      ∃ (names : List String) (v : Value) (after : List Value), vs = names.map .sym ++ v :: after ∧
        (∀ name, v ≠ .sym name) ∧ vs.mapM nameOf = .error (.type (.parameterName v)) := by
  induction vs with
  | nil => exact .inl ⟨[], rfl, rfl⟩
  | cons v vs ih =>
    rcases v.sym_or_ne with ⟨name, rfl⟩ | hv
    · have hname : nameOf (.sym name) = .ok name := rfl
      rcases ih with ⟨names, rfl, hnames⟩ | ⟨names, w, after, rfl, hw, herror⟩
      · refine .inl ⟨name :: names, rfl, ?_⟩
        rw [List.mapM_cons, hname, hnames]
        rfl
      · refine .inr ⟨name :: names, w, after, rfl, hw, ?_⟩
        rw [List.mapM_cons, hname, herror]
        rfl
    · have herror : nameOf v = .error (.type (.parameterName v)) := by
        cases v with
        | sym name => exact absurd rfl (hv name)
        | _ => rfl
      refine .inr ⟨[], v, vs, rfl, hv, ?_⟩
      rw [List.mapM_cons, herror]
      rfl

/-- A form declares parameters, or is faulty, or misplaces the marker. -/
theorem ofForm_cases (form : Value) :
    (∃ names p, form.items? = some (names.map .sym) ∧ Declares names p ∧ ofForm form = .ok p) ∨
      (∃ v e, Faulty form v e ∧ ofForm form = .error (.type e)) ∨
      ∃ names, form.items? = some (names.map .sym) ∧ (¬∃ p, Declares names p) ∧
        ofForm form = .error .restMarker := by
  cases hitems : form.items? with
  | none =>
    refine .inr (.inl ⟨_, _, .list hitems, ?_⟩)
    rw [ofForm, hitems]
  | some vs =>
    have hform : ofForm form = vs.mapM nameOf >>= ofNames := by rw [ofForm, hitems]
    rw [hform]
    rcases mapM_nameOf_cases vs with ⟨names, rfl, hnames⟩ | ⟨names, v, after, rfl, hv, herror⟩
    · rw [hnames]
      by_cases hdeclares : ∃ p, Declares names p
      · obtain ⟨p, hp⟩ := hdeclares
        exact .inl ⟨names, p, rfl, hp, ofNames_eq_ok_iff.2 hp⟩
      · exact .inr (.inr ⟨names, rfl, hdeclares, ofNames_eq_error hdeclares⟩)
    · rw [herror]
      exact .inr (.inl ⟨v, _, .name hitems hv, rfl⟩)

/-- The complaint about a part shows the part. -/
theorem Faulty.isSome_message {v : Value} {e : TypeError} (h : Faulty form v e) (heap : Heap)
    (room : Nat) :
    ((EvalError.type e).message heap room).isSome = (v.describe heap room).isSome := by
  cases h with
  | list => exact Option.isSome_map
  | name => exact Option.isSome_map

/-- **How reading the parameters of a form ends.** -/
inductive Reading (eng : Engine) (s : Store) (form : Value) :
    EStateM.Result Failure Store Params → Prop
  | declared {names : List String} {p : Params} (hitems : form.items? = some (names.map .sym))
      (h : Declares names p) : Reading eng s form (.ok p s)
  | faulty {v : Value} {e : TypeError} {message : String} (h : Faulty form v e)
      (hshown : (v.describe s.atoms eng.room).isSome = true) :
      Reading eng s form (.error (.error (.type e) message) s)
  /-- There are no words for the complaint. -/
  | wordless {v : Value} {e : TypeError} (h : Faulty form v e)
      (hshown : v.describe s.atoms eng.room = none) : Reading eng s form (.error .overflow s)
  | marker {names : List String} {message : String}
      (hitems : form.items? = some (names.map .sym)) (h : ¬∃ p, Declares names p) :
      Reading eng s form (.error (.error .restMarker message) s)

theorem accept_ofForm (eng : Engine) (s : Store) (form : Value) :
    Reading eng s form (eng.accept (ofForm form) s) := by
  rcases ofForm_cases form with
    ⟨names, p, hitems, hp, hform⟩ | ⟨v, e, hfaulty, hform⟩ | ⟨names, hitems, hnone, hform⟩
  · rw [hform]
    exact .declared hitems hp
  · rw [hform, Engine.accept, Engine.fail_eq, Engine.failure]
    have hsome := hfaulty.isSome_message s.atoms eng.room
    cases hmessage : (EvalError.type e).message s.atoms eng.room with
    | none =>
      rw [hmessage, Option.isSome_none, eq_comm, Option.isSome_eq_false_iff,
        Option.isNone_iff_eq_none] at hsome
      exact .wordless hfaulty hsome
    | some message =>
      rw [hmessage] at hsome
      exact .faulty hfaulty hsome.symm
  · rw [hform]
    exact .marker hitems hnone

/-! ## What the variables of a call are -/

/-- **The variables hold the arguments**: each fixed name the argument at its last place, and the
name behind the marker the list of those that are left. -/
structure Holds (p : Params) (args : List Value) (vars : Dict String Value) : Prop where
  nodup : vars.keys.Nodup
  mem_keys_iff : ∀ name, name ∈ vars.keys ↔ name ∈ p.formals ∨ p.rest = some name
  fixed : ∀ before name after, p.formals = before ++ name :: after → name ∉ after →
    p.rest ≠ some name → ∃ v, args[before.length]? = some v ∧ vars.get? name = some v
  further : ∀ name, p.rest = some name →
    ∃ l, vars.get? name = some (.list l (args.drop p.formals.length))
  /-- If no name stands twice, then no argument is lost and none is there twice. -/
  distinct : p.names.Nodup → vars.keys = p.names ∧
    match p.rest with
    | none => vars.values = args
    | some _ => ∃ l, vars.values =
      args.take p.formals.length ++ [.list l (args.drop p.formals.length)]

/-- There are too few arguments, or too many. -/
def Misfits (p : Params) (n : Nat) : Prop :=
  n < p.formals.length ∨ p.formals.length < n ∧ p.rest = none

theorem accepts_iff {n : Nat} : p.Accepts n ↔ ¬p.Misfits n := by
  rw [Accepts, Misfits, Option.isNone_iff_eq_none]
  constructor
  · rintro ⟨hle, hge⟩ (hlt | ⟨hlt, hrest⟩)
    · omega
    · have := hge hrest
      omega
  · intro h
    refine ⟨by omega, fun hrest ↦ ?_⟩
    by_contra hlt
    exact h (.inr ⟨by omega, hrest⟩)

/-- The pairs that a call binds. -/
def paired (p : Params) (label : Option Label) (args : List Value) : List (String × Value) :=
  p.formals.zip args ++
    (p.rest.map fun name ↦ (name, Value.list label (args.drop p.formals.length))).toList

theorem map_fst_paired {args : List Value} (label : Option Label)
    (h : p.formals.length ≤ args.length) : (p.paired label args).map Prod.fst = p.names := by
  rw [paired, Params.names, List.map_append, List.map_fst_zip h]
  cases p.rest <;> rfl

theorem holds_paired {args : List Value} (label : Option Label) (h : p.Accepts args.length) :
    p.Holds args (.ofList (p.paired label args)) where
  nodup := Dict.nodup_keys_ofList _
  mem_keys_iff name := by
    rw [Dict.mem_keys_ofList, map_fst_paired label h.1, Params.names, List.mem_append,
      Option.mem_toList]
  fixed before name after hformals hafter hrest := by
    have hlength : before.length < args.length := by
      have hle := h.1
      rw [hformals, List.length_append, List.length_cons] at hle
      omega
    refine ⟨args[before.length], List.getElem?_eq_getElem hlength, ?_⟩
    have hargs : args = args.take before.length ++
        args[before.length] :: args.drop (before.length + 1) := by
      rw [← List.drop_eq_getElem_cons hlength, List.take_append_drop]
    have hzip : p.formals.zip args = before.zip (args.take before.length) ++
        (name, args[before.length]) :: after.zip (args.drop (before.length + 1)) := by
      conv_lhs => rw [hformals, hargs]
      rw [List.zip_append (by simp [Nat.le_of_lt hlength]), List.zip_cons_cons]
    rw [paired, hzip, List.append_assoc, List.cons_append]
    refine Dict.get?_ofList_append _ ?_
    rw [List.map_append, List.mem_append, not_or]
    refine ⟨fun hmem ↦ ?_, fun hmem ↦ ?_⟩
    · obtain ⟨e, he, rfl⟩ := List.mem_map.1 hmem
      exact hafter (List.of_mem_zip he).1
    · obtain ⟨e, he, rfl⟩ := List.mem_map.1 hmem
      obtain ⟨rest, hp, rfl⟩ := Option.map_eq_some_iff.1 (Option.mem_toList.1 he)
      exact hrest hp
  further name hrest := by
    refine ⟨label, ?_⟩
    rw [paired, hrest]
    exact Dict.get?_ofList_append _ (by simp)
  distinct hnames := by
    have hnodup := hnames
    rw [← map_fst_paired label h.1] at hnodup
    rw [Dict.ofList_of_nodup hnodup]
    refine ⟨map_fst_paired label h.1, ?_⟩
    have hvalues : Dict.values ⟨p.paired label args⟩ = args.take p.formals.length ++
        (p.rest.map fun _ ↦ Value.list label (args.drop p.formals.length)).toList := by
      rw [Dict.values, paired, List.map_append]
      congr 1
      · rw [List.zip_eq_zip_take_min, Nat.min_eq_left h.1, List.map_snd_zip (by simp)]
      · cases p.rest <;> rfl
    rw [hvalues]
    cases hrest : p.rest with
    | none =>
      have hlength : args.length ≤ p.formals.length := h.2 (by rw [hrest]; rfl)
      simp [List.take_of_length_le hlength]
    | some rest => exact ⟨label, rfl⟩

/-- **How entering a function with some arguments ends.** -/
inductive Entering (s : Store) (c : Closure Value) (args : List Value) :
    EStateM.Result Failure Store FrameId → Prop
  | refused {message : String} {s' : Store} (h : c.params.Misfits args.length)
      (hframes : s'.frames = s.frames) (hatoms : s'.atoms = s.atoms)
      (houtput : s'.output = s.output) :
      Entering s c args (.error (.error (.arity (.call c.params args.length)) message) s')
  | entered {vars : Dict String Value} {s' : Store} (h : ¬c.params.Misfits args.length)
      (hframes : s'.frames = s.frames.push ⟨vars, some c.scope⟩) (hatoms : s'.atoms = s.atoms)
      (houtput : s'.output = s.output) (hvars : c.params.Holds args vars) :
      Entering s c args (.ok s.frames.size s')

/-- To enter a function is to make a label, if one is wanted, and then to bind. -/
theorem exists_enter_eq (eng : Engine) (s : Store) (c : Closure Value) (args : List Value) :
    ∃ label s₁, s₁.frames = s.frames ∧ s₁.atoms = s.atoms ∧ s₁.output = s.output ∧
      eng.enter c args s = (eng.accept (c.params.bind label args) >>= fun pairs ↦
        modifyGet fun s ↦ s.addFrame (some c.scope) (.ofList pairs)) s₁ := by
  rw [Engine.enter]
  cases c.params.rest with
  | none => exact ⟨none, s, rfl, rfl, rfl, rfl⟩
  | some rest => exact ⟨some ⟨s.serials, []⟩, s.nextSerial.2, rfl, rfl, rfl, rfl⟩

theorem entering (eng : Engine) (s : Store) (c : Closure Value) (args : List Value) :
    Entering s c args (eng.enter c args s) := by
  obtain ⟨label, s₁, hframes, hatoms, houtput, henter⟩ := exists_enter_eq eng s c args
  by_cases h : c.params.Accepts args.length
  · have hframe : eng.enter c args s = .ok s.frames.size
        (s₁.addFrame (some c.scope) (.ofList (c.params.paired label args))).2 := by
      rw [henter, Params.bind, if_pos h, ← hframes]
      rfl
    rw [hframe]
    refine .entered (accepts_iff.1 h) ?_ hatoms houtput (holds_paired label h)
    rw [← hframes]
    rfl
  · have hrefused : eng.enter c args s = .error (.error (.arity (.call c.params args.length))
        (ArityError.call c.params args.length).message) s₁ := by
      rw [henter, Params.bind, if_neg h]
      rfl
    rw [hrefused]
    exact .refused (not_not.1 (mt accepts_iff.2 h)) hframes hatoms houtput

/-- **Parameters take the arguments of a call.**

A form declares parameters exactly if it is a list or a vector of symbols in which the marker stands
nowhere, or once and in the last place but one; otherwise the first fault in it is an error, unless
the faulty part cannot be shown in the room there is, which is an overflow.  A function that is
called with too few arguments, or with too many and no name to take them, is not entered and no
frame is made.  Any other call makes a frame, inside the one that the function closes over, whose
variables are the parameters and hold the arguments. -/
theorem parameters_take_arguments (eng : Engine) (s : Store) :
    (∀ form, Reading eng s form (eng.accept (ofForm form) s)) ∧
    (∀ names, (∃ p, Declares names p) ↔ names.count restMarker = 0 ∨
      names.count restMarker = 1 ∧ names.dropLast.getLast? = some restMarker) ∧
    ∀ (c : Closure Value) (args : List Value), Entering s c args (eng.enter c args s) :=
  ⟨accept_ofForm eng s, fun _ ↦ exists_declares_iff, entering eng s⟩

end Params

/-! ## A part that cannot be shown -/

theorem Value.inspectWithin_atom_eq_none {heap : Heap} {a : AtomId} (h : heap.content a = .atom a)
    (room : Nat) (around : List Label) : (Value.atom a).inspectWithin heap room around = none := by
  induction room with
  | zero => rfl
  | succ room ih => rw [inspectWithin, h, ih, Option.map_none]

namespace Session

/-- A session comes to an atom that holds itself. -/
theorem exists_endless : ∃ s a, Reachable anything s ∧ s.atoms.content a = .atom a := by
  let few : World := { disk := fun _ ↦ none, depth := 20, steps := 40 }
  let line := "(let* (a (atom nil)) (do (reset! a a) (throw a)))"
  have hthrows : Repl.throwsEndless (Session.rep few line bare) = true := by
    decide +kernel
  obtain ⟨a, s, hrep, hcontent⟩ := Repl.exists_of_throwsEndless hthrows
  have hreachable : Reachable anything (finalStore (Session.rep few line bare)) :=
    (reachable_bare few.disk).trans (.rep few line .refl trivial)
  rw [hrep] at hreachable
  exact ⟨s, a, hreachable, hcontent⟩

/-- An atom that holds itself is no symbol, but a list that has it for a parameter is not told so:
whatever the room, the complaint overflows. -/
theorem no_words_for_endless_parameter : ∃ s a, Reachable anything s ∧
    s.atoms.content a = .atom a ∧
    Params.Faulty (.list none [.atom a]) (.atom a) (.parameterName (.atom a)) ∧
    ∀ eng : Engine, eng.accept (Params.ofForm (.list none [.atom a])) s = .error .overflow s := by
  obtain ⟨s, a, hreachable, hcontent⟩ := exists_endless
  have hfaulty : Params.Faulty (.list none [.atom a]) (.atom a) (.parameterName (.atom a)) :=
    @Params.Faulty.name _ [] _ [] rfl fun _ ↦ Value.noConfusion
  refine ⟨s, a, hreachable, hcontent, hfaulty, fun eng ↦ ?_⟩
  have hform : Params.ofForm (.list none [.atom a]) =
      .error (.type (.parameterName (.atom a))) := rfl
  have hmessage : (EvalError.type (.parameterName (.atom a))).message s.atoms eng.room = none := by
    have hshown : (Value.atom a).describe s.atoms eng.room = none :=
      Value.inspectWithin_atom_eq_none hcontent eng.room []
    show ((Value.atom a).describe s.atoms eng.room).map _ = none
    rw [hshown, Option.map_none]
  rw [hform, Engine.accept, Engine.fail_eq, Engine.failure, hmessage]

end Session

end Lisplet
