import Lisplet.Proofs.Renaming.Engine

/-!
# Calls of built-in functions with new serial numbers

A call of a built-in function does the same with new serial numbers (`Blind.call`).  Comparing and
wording errors are the only calls that look at numbers, and they look only at which are the same.
What is read from a text has no numbers that could be new.
-/

set_option autoImplicit false

namespace Lisplet.Renumbering

variable {R : Renumbering} (eng : Engine) (scope : FrameId) (args : List Value)

namespace Tracks

/-! ## Comparing, printing and reading -/

theorem equal : R.Tracks (Value.rename R.serial) (Effect.equal eng args)
    (Effect.equal eng (args.map (Value.rename R.serial))) := by
  refine bind (lift eng (.two .equal args)) fun p ↦ ?_
  have hequal : Value.equal? eng.room (p.1.rename R.serial) (p.2.rename R.serial) =
      (Value.equal? eng.room p.1 p.2).map id := by
    rw [Value.equal?_rename R.injective, Option.map_id, id]
  exact bind (fit hequal) fun b ↦ pure_of_eq (Value.rename_bool R.serial b)

theorem toText (style : PrintStyle) (sep : String) :
    R.Tracks (Value.rename R.serial) (Effect.toText eng style sep args)
      (Effect.toText eng style sep (args.map (Value.rename R.serial))) :=
  bind (print eng style sep args) fun text ↦ pure_of_eq (Value.rename_str R.serial text)

theorem printLine (style : PrintStyle) :
    R.Tracks (Value.rename R.serial) (Effect.printLine eng style args)
      (Effect.printLine eng style (args.map (Value.rename R.serial))) := by
  refine bind (print eng style " " args) fun line ↦ ?_
  refine bind (change (fun _ ↦ rfl) fun s ↦ rfl) fun _ ↦ ?_
  exact pure_of_eq (Value.rename_nil R.serial)

/-- **What is read from a text has no numbers.** -/
theorem readText (text : String) (unreadable : ReadError → EvalError)
    (h : ∀ e, (unreadable e).rename R.serial = unreadable e) :
    R.Tracks (Value.rename R.serial) (Effect.readText eng text unreadable)
      (Effect.readText eng text unreadable) := by
  rw [Effect.readText]
  match hread : Reader.read eng.room text with
  | .ok form => exact pure_of_eq (Reader.rename_eq_of_read hread)
  | .error (.error e) =>
    have hfail := fail (R := R) (f := Value.rename R.serial) eng (unreadable e)
    rwa [h] at hfail
  | .error .tooDeep => exact throw .overflow
  | .error (.unconverted digits) => exact throw (.crashed (.numeral digits))

theorem readString : R.Tracks (Value.rename R.serial) (Effect.readString eng args)
    (Effect.readString eng (args.map (Value.rename R.serial))) :=
  bind (lift eng (.bind (.one _ args) fun v ↦ .text _ v)) fun source ↦
    readText eng source .unreadable fun _ ↦ rfl

/-- A form that is read from a name is made something of. -/
theorem readName (op : Builtin) {v w : Value} (hw : v.rename R.serial = w)
    {f : String → Value → Eval Value}
    (hf : ∀ name form, R.Tracks (Value.rename R.serial) (f name form)
      (f name (form.rename R.serial))) :
    R.Tracks (Value.rename R.serial)
      (do
        let name ← eng.lift (Builtin.text op v)
        f name (← Effect.readText eng name fun e ↦ .type (.unreadableName op name e)))
      (do
        let name ← eng.lift (Builtin.text op w)
        f name (← Effect.readText eng name fun e ↦ .type (.unreadableName op name e))) := by
  subst hw
  refine bind (lift eng (.text op v)) fun name ↦ ?_
  exact bind (readText eng name _ fun _ ↦ rfl) fun form ↦ hf name form

theorem symbol : R.Tracks (Value.rename R.serial) (Effect.symbol eng args)
    (Effect.symbol eng (args.map (Value.rename R.serial))) := by
  refine bind (lift eng (.one _ args)) fun v ↦ ?_
  cases v with
  | sym name => simpa using pure_of_eq (Value.rename_sym R.serial name)
  | _ =>
    simp only [Value.rename]
    refine readName eng .symbol (by simp only [Value.rename]) fun name form ↦ ?_
    have hfail := fail (R := R) (f := Value.rename R.serial) eng (.type (.otherName .symbol name))
    cases form with
    | sym s => simpa using pure_of_eq (Value.rename_sym R.serial s)
    | _ => simpa [EvalError.rename, TypeError.rename] using hfail

theorem keyword : R.Tracks (Value.rename R.serial) (Effect.keyword eng args)
    (Effect.keyword eng (args.map (Value.rename R.serial))) := by
  refine bind (lift eng (.one _ args)) fun v ↦ ?_
  cases v with
  | kw name => simpa using pure_of_eq (Value.rename_kw R.serial name)
  | _ =>
    simp only [Value.rename]
    refine readName eng .keyword (by simp only [Value.rename]) fun name form ↦ ?_
    have hfail := fail (R := R) (f := Value.rename R.serial) eng (.type (.otherName .keyword name))
    cases form with
    | sym s => simpa using pure_of_eq (Value.rename_keyword R.serial s)
    | kw s => simpa using pure_of_eq (Value.rename_kw R.serial s)
    | _ => simpa [EvalError.rename, TypeError.rename] using hfail

theorem readFile (disk : Disk) (path : String) :
    R.Tracks id (Effect.readFile disk path) (Effect.readFile disk path) := by
  rw [Effect.readFile]
  split
  · split
    · exact pure_of_eq rfl
    · exact throw (.crashed (.undecodable (Path.normalize path)))
    · exact pure_of_eq rfl
    · exact throw (.unread (Path.normalize path))
  · exact throw (.crashed (.path (Path.normalize path)))

theorem slurp : R.Tracks (Value.rename R.serial) (Effect.slurp eng args)
    (Effect.slurp eng (args.map (Value.rename R.serial))) := by
  refine bind (lift eng (.bind (.one _ args) fun v ↦ .text _ v)) fun path ↦ ?_
  refine bind (readFile eng.disk _) fun content ↦ ?_
  dsimp only [id]
  split
  · exact pure_of_eq (Value.rename_str R.serial _)
  · exact fail eng _

/-! ## Atoms -/

theorem atom : R.Tracks (Value.rename R.serial) (Effect.atom eng args)
    (Effect.atom eng (args.map (Value.rename R.serial))) := by
  refine bind (lift eng (.one _ args)) fun v ↦ ?_
  refine bind (f := id) (modifyGet (fun _ ↦ rfl) fun s ↦ s.addAtom_rename _ _ v) fun a ↦ ?_
  exact pure_of_eq (Value.rename_atom R.serial a)

theorem deref : R.Tracks (Value.rename R.serial) (Effect.deref eng args)
    (Effect.deref eng (args.map (Value.rename R.serial))) := by
  refine bind (lift eng (.bind (.one _ args) fun v ↦ .cell _ v)) fun a ↦ bind get fun s ↦ ?_
  exact pure_of_eq (Heap.content_rename R.serial s.atoms a).symm

theorem setAtom (a : AtomId) (v : Value) :
    R.Tracks id (modify fun s ↦ s.setAtom a v)
      (modify fun s ↦ s.setAtom a (v.rename R.serial)) :=
  change (fun _ ↦ rfl) fun s ↦ (s.setAtom_rename R.serial _ a v).symm

theorem reset : R.Tracks (Value.rename R.serial) (Effect.reset eng args)
    (Effect.reset eng (args.map (Value.rename R.serial))) := by
  refine bind (lift eng (.two _ args)) fun p ↦ bind (lift eng (.cell _ p.1)) fun a ↦ ?_
  exact bind (setAtom a p.2) fun _ ↦ pure p.2

/-! ## Evaluating and calling -/

theorem throwArgument : R.Tracks (Value.rename R.serial) (Effect.throwArgument eng args)
    (Effect.throwArgument eng (args.map (Value.rename R.serial))) :=
  bind (lift eng (.one _ args)) fun v ↦ throw (.thrown v)

end Tracks

namespace Blind

variable {eng} (h : R.Blind eng)
include h

theorem swap : R.Tracks (Value.rename R.serial) (Effect.swap eng scope args)
    (Effect.swap eng scope (args.map (Value.rename R.serial))) := by
  rcases args with _ | ⟨target, _ | ⟨fn, extra⟩⟩
  · exact .fail eng _
  · exact .fail eng _
  · refine .bind (.lift eng (.cell _ target)) fun a ↦ .bind .get fun s ↦ ?_
    have hcall := h (.call fn (s.atoms.content a :: extra) scope)
    rw [Task.rename, List.map_cons, ← Heap.content_rename] at hcall
    exact .bind hcall fun v ↦ .bind (.setAtom a v) fun _ ↦ .pure v

theorem evalTop : R.Tracks (Value.rename R.serial) (Effect.eval eng scope args)
    (Effect.eval eng scope (args.map (Value.rename R.serial))) := by
  refine .bind (.lift eng (.one _ args)) fun form ↦ .bind .get fun s ↦ ?_
  rw [store, Store.topLevel_rename]
  exact h.eval (s.topLevel scope) form

theorem evalHere : R.Tracks (Value.rename R.serial) (Effect.evalHere eng scope args)
    (Effect.evalHere eng scope (args.map (Value.rename R.serial))) :=
  .bind (.lift eng (.one _ args)) fun form ↦ h.eval scope form

theorem map : R.Tracks (Value.rename R.serial) (Effect.map eng scope args)
    (Effect.map eng scope (args.map (Value.rename R.serial))) := by
  refine .bind (.lift eng (.two _ args)) fun p ↦ .bind (.lift eng (.itemsOrNil _ p.2)) fun vs ↦ ?_
  refine .bind (.mapM fun v _ ↦ h (.call p.1 [v] scope)) fun ws ↦ ?_
  have hlist := Tracks.labelled (R := R) (.list none ws)
  rwa [Value.rename_list] at hlist

theorem apply : R.Tracks (Value.rename R.serial) (Effect.apply eng scope args)
    (Effect.apply eng scope (args.map (Value.rename R.serial))) := by
  rcases args with _ | ⟨fn, _ | ⟨arg, args⟩⟩
  · exact .fail eng _
  · exact .fail eng _
  · have hlast : ((arg :: args).map (Value.rename R.serial)).getLastD .nil =
        ((arg :: args).getLastD .nil).rename R.serial := by
      rw [List.getLastD_eq_getLast?, List.getLastD_eq_getLast?, List.getLast?_map]
      cases (arg :: args).getLast? <;> simp
    have hitems := Carries.itemsOrNil (ρ := R.serial) .apply ((arg :: args).getLastD .nil)
    rw [← hlast] at hitems
    refine .bind (.lift eng hitems) fun vs ↦ ?_
    have hcall := h (.call fn ((arg :: args).dropLast ++ vs) scope)
    rwa [Task.rename, List.map_append, List.map_dropLast] at hcall

/-- **A call of a built-in function does the same with new serial numbers.** -/
theorem call (op : Builtin) : R.Tracks (Value.rename R.serial) (op.call eng scope args)
    (op.call eng scope (args.map (Value.rename R.serial))) := by
  rw [Builtin.call.eq_def, Builtin.call.eq_def]
  cases op with
  | equal => exact .equal eng args
  | add | sub | mul => exact .lift eng (.operate _ args _)
  | div => exact .lift eng (.divide args)
  | less | lessEq | greater | greaterEq => exact .lift eng (.compare _ args _)
  | list =>
    have hlist := Tracks.labelled (R := R) (.list none args)
    rwa [Value.rename_list] at hlist
  | vector => exact .pure_of_eq (Value.rename_vec R.serial args)
  | vec => exact .lift eng (.vec args)
  | count => exact .lift eng (.count args)
  | cons => exact .make eng (.cons args)
  | concat => exact .make eng (.concat args)
  | first => exact .lift eng (.first args)
  | rest => exact .make eng (.rest args)
  | nth => exact .lift eng (.nth args)
  | conj => exact .make eng (.conj args)
  | seq => exact .make eng (.seq args)
  | hashMap => exact .make eng (.hashMap args)
  | get => exact .lift eng (.get args)
  | contains => exact .lift eng (.contains args)
  | assoc => exact .make eng (.assoc args)
  | dissoc => exact .make eng (.dissoc args)
  | keys => exact .make eng (.keys args)
  | vals => exact .make eng (.vals args)
  | atom => exact .atom eng args
  | isAtom => exact .lift eng (.isAtom args)
  | deref => exact .deref eng args
  | reset => exact .reset eng args
  | swap => exact h.swap scope args
  | prStr | str => exact .toText eng args _ _
  | prn | println => exact .printLine eng args _
  | readString => exact .readString eng args
  | slurp => exact .slurp eng args
  | eval => exact h.evalTop scope args
  | evalHere => exact h.evalHere scope args
  | throw => exact .throwArgument eng args
  | map => exact h.map scope args
  | apply => exact h.apply scope args
  | symbol => exact .symbol eng args
  | keyword => exact .keyword eng args
  | metadata => exact .lift eng (.metadata args)
  | withMeta => exact .lift eng (.withMeta args)
  | isSequential =>
    refine .lift eng (.test _ args fun v ↦ ?_)
    rw [Builtin.Kind.isSequential, Value.items?_rename, Option.isSome_map]
    rfl
  | isEmpty =>
    refine .lift eng (.test _ args fun v ↦ ?_)
    rw [Builtin.Sequence.isEmpty, Builtin.Sequence.isEmpty, Value.items?_rename]
    cases v.items? <;> simp
  | _ =>
    refine .lift eng (.test _ args fun v ↦ ?_)
    cases v <;> simp [Builtin.Kind.isList, Builtin.Kind.isVector, Builtin.Kind.isMap,
      Builtin.Kind.isFn, Builtin.Kind.isMacro, Builtin.Kind.isNil, Builtin.Kind.isBool,
      Builtin.Kind.isSymbol, Builtin.Kind.isKeyword, Builtin.Kind.isString, Builtin.Kind.isNumber]

end Blind

end Lisplet.Renumbering
