import Lisplet.Proofs.Filling
import Lisplet.Proofs.RoundTrip
import Lisplet.Proofs.Session

/-!
# Metadata on code

Values carry metadata, and code is values, so a form can have metadata too.  Nearly everything that
looks at code looks through it: the function of a call may have metadata, and so may a template, a
list of parameters and the function that becomes a macro.  Evaluation itself does not.  To it a form
under metadata is one of the things that are their own values, so that whatever is under the
metadata stays as it is (`settles_withMeta_iff`).

That makes no difference to data, in which there is nothing to evaluate: it has the same value, up
to metadata, with and without metadata on it (`Inert`, `Inert.settles`).  It makes all the
difference to a call.
-/

set_option autoImplicit false

namespace Lisplet

variable {disk : Disk} {scope : FrameId} {s : Store} {l : Option Label} {f m v : Value}
  {vs : List Value} {r : EStateM.Result Failure Store Value}

/-- **A form under metadata is its own value**, whatever the form is. -/
theorem settles_withMeta_iff :
    Settles disk (fun eng ↦ eng.eval scope (.withMeta f m)) s r ↔ r = .ok (.withMeta f m) s := by
  rw [settles_itself_iff fun _ ↦ rfl]
  constructor
  · exact fun h ↦ h.unique (settles_pure _)
  · rintro rfl
    exact settles_pure _

/-! ## Where metadata is looked through -/

/-- A list or a vector makes the same code with and without metadata on it. -/
theorem Template.code_withMeta {room : Nat} {label : Label} (h : f.items?.isSome) :
    Template.code room label (.withMeta f m) = Template.code room label f := by
  cases room with
  | zero => rfl
  | succ room =>
    have hargument (marker : String) :
        Template.argument? marker (.withMeta f m) = Template.argument? marker f := by
      rw [Template.argument?, Template.argument?, Value.items?, Value.items?, Value.bare_withMeta]
    rw [Template.code, Template.code, Value.bare_withMeta, hargument]
    rw [Value.items?] at h
    split at h
    · simp only [‹f.bare = _›]
    · simp only [‹f.bare = _›]
    · cases h

/-- A template means the same with and without metadata on it. -/
theorem settles_template_withMeta_iff (h : f.items?.isSome) :
    Settles disk (fun eng ↦ eng.eval scope (.list l [.sym "quasiquote", .withMeta f m])) s r ↔
      Settles disk (fun eng ↦ eng.eval scope (.list l [.sym "quasiquote", f])) s r := by
  simp only [Template.settles_template_iff, SpecialForm.codeOf, Template.code_withMeta h]

/-- A list of parameters means the same with and without metadata on it. -/
theorem settles_function_withMeta_iff {body : Value} :
    Settles disk (fun eng ↦ eng.eval scope (.list l [.sym "fn*", .withMeta f m, body])) s r ↔
      Settles disk (fun eng ↦ eng.eval scope (.list l [.sym "fn*", f, body])) s r := by
  have hparams : Params.ofForm (.withMeta f m) = Params.ofForm f := by
    rw [Params.ofForm, Params.ofForm, Value.items?, Value.items?, Value.bare_withMeta]
  have hform (eng : Engine) (params : Value) :
      Direct.value eng (.eval (.list l [.sym "fn*", params, body]) scope) =
        Direct.function eng scope [params, body] := rfl
  refine settles_run_iff_value.trans (Iff.trans ?_ settles_run_iff_value.symm)
  simp only [hform, Direct.function, hparams]

/-- What a call calls: a closure or a built-in function. -/
def IsFunction (v : Value) : Prop := (∃ c, v = .fn c) ∨ ∃ home op, v = .builtin home op

/-- A function is called with and without metadata on it. -/
theorem settles_call_withMeta_iff {args : List Value} (hf : IsFunction f) :
    Settles disk (fun eng ↦ eng.eval scope (.list l (.withMeta f m :: args))) s r ↔
      Settles disk (fun eng ↦ eng.eval scope (.list l (f :: args))) s r := by
  have hform (eng : Engine) {head : Value} (h : SpecialForm.ofHead? head = none) :
      Direct.value eng (.eval (.list l (head :: args)) scope) =
        Direct.combination eng scope head args := by
    rw [Direct.value, Direct.form, h]
  have hmeta (eng : Engine) : Direct.value eng (.eval (.list l (.withMeta f m :: args)) scope) =
      Direct.combination eng scope (.withMeta f m) args := hform eng rfl
  have hhead : SpecialForm.ofHead? f = none := by
    obtain ⟨c, rfl⟩ | ⟨home, op, rfl⟩ := hf <;> rfl
  have hself (eng : Engine) : Direct.form eng scope f = pure f := by
    obtain ⟨c, rfl⟩ | ⟨home, op, rfl⟩ := hf <;> rfl
  refine settles_run_iff_value.trans (Iff.trans ?_ settles_run_iff_value.symm)
  simp only [hmeta, fun eng ↦ hform eng hhead, Direct.combination]
  refine (settles_bind_of_ok (settles_itself fun _ ↦ rfl)).trans
    (Iff.trans ?_ (settles_bind_of_ok (settles_itself hself)).symm)
  obtain ⟨c, rfl⟩ | ⟨home, op, rfl⟩ := hf <;> exact Iff.rfl

/-! ## Data -/

/-- Data: values in which there is nothing to evaluate. -/
inductive Inert : Value → Prop
  | nil : Inert .nil
  | bool (b : Bool) : Inert (.bool b)
  | int (n : Int) : Inert (.int n)
  | str (text : String) : Inert (.str text)
  | kw (name : String) : Inert (.kw name)
  | fn (c : Closure Value) : Inert (.fn c)
  | builtin (home : FrameId) (op : Builtin) : Inert (.builtin home op)
  | atom (a : AtomId) : Inert (.atom a)
  | empty (l : Option Label) : Inert (.list l [])
  | vec {vs : List Value} (h : ∀ v ∈ vs, Inert v) : Inert (.vec vs)
  | map (l : Option Label) {d : Dict Key Value} (h : ∀ e ∈ d.entries, Inert e.2) :
      Inert (.map l d)
  | withMeta (v m : Value) : Inert (.withMeta v m)

/-- The store with some more serial numbers handed out. -/
def Store.withSerials (s : Store) (n : Nat) : Store := { s with serials := n }

/-- What is computed from each element, taking nothing but serial numbers, is collected so. -/
theorem settles_mapM_of_forall {α β γ : Type} {g : Engine → α → Eval β} {p : α → γ} {q : β → γ}
    {as : List α}
    (h : ∀ a ∈ as, ∀ s : Store, ∃ b n,
      Settles disk (fun eng ↦ g eng a) s (.ok b (s.withSerials n)) ∧ q b = p a) (s : Store) :
    ∃ bs n, Settles disk (fun eng ↦ as.mapM (g eng)) s (.ok bs (s.withSerials n)) ∧
      bs.map q = as.map p := by
  induction as generalizing s with
  | nil => exact ⟨[], s.serials, settles_pure [], rfl⟩
  | cons a as ih =>
    obtain ⟨ha, has⟩ := List.forall_mem_cons.1 h
    obtain ⟨b, n, hb, hq⟩ := ha s
    obtain ⟨bs, n', hbs, hqs⟩ := ih has (s.withSerials n)
    refine ⟨b :: bs, n', ?_, by rw [List.map_cons, List.map_cons, hq, hqs]⟩
    simp only [List.mapM_cons]
    refine (settles_bind_of_ok hb).2 ?_
    exact (settles_bind_of_ok hbs).2 (settles_pure _)

/-- **Data is its own value**, up to metadata and labels, and evaluating it has no effect: all that
it takes is serial numbers. -/
theorem Inert.settles (h : Inert v) (s : Store) :
    ∃ w n, Settles disk (fun eng ↦ eng.eval scope v) s (.ok w (s.withSerials n)) ∧
      w.plain = v.plain := by
  induction h generalizing s with
  | nil | bool | int | str | kw | fn | builtin | atom | empty | withMeta =>
    exact ⟨_, s.serials, settles_itself fun _ ↦ rfl, rfl⟩
  | vec h ih =>
    obtain ⟨ws, n, hws, hplain⟩ := settles_mapM_of_forall ih s
    refine ⟨.vec ws, n, settles_run_iff_value.2 ?_, ?_⟩
    · simp only [Direct.value, Direct.form]
      exact (settles_bind_of_ok hws).2 (settles_pure _)
    · rw [Value.plain_vec, Value.plain_vec, hplain]
  | map l h ih =>
    rename_i d
    have hentry : ∀ e ∈ d.entries, ∀ s : Store, ∃ e' n,
        Settles disk (fun eng ↦ return (e.1, ← eng.eval scope e.2)) s
          (.ok e' (s.withSerials n)) ∧ (e'.1, e'.2.plain) = (e.1, e.2.plain) := by
      intro e he s
      obtain ⟨w, n, hw, hplain⟩ := ih e he s
      exact ⟨(e.1, w), n, (settles_bind_of_ok hw).2 (settles_pure _), by rw [hplain]⟩
    obtain ⟨es, n, hes, hplain⟩ := settles_mapM_of_forall hentry s
    refine ⟨.map (some ⟨n, []⟩) ⟨es⟩, n + 1, settles_run_iff_value.2 ?_, ?_⟩
    · simp only [Direct.value, Direct.form]
      exact (settles_bind_of_ok hes).2 (settles_const_iff.2 ⟨trivial, rfl⟩)
    · rw [Value.plain_map, Value.plain_map]
      exact congrArg (fun es ↦ Value.map none ⟨es⟩) hplain

/-! ## Evaluating what has metadata -/

/-- **Metadata stops evaluation.**

A form under metadata evaluates to itself and without effect, whatever the form is.  If it is data
then it has the same value, up to metadata, without the metadata.  Elsewhere metadata on code is
looked through: on a list or a vector that is a template, on a list of parameters, and on the
function of a call. -/
theorem metadata_stops_evaluation (disk : Disk) (scope : FrameId) (s : Store) (f m : Value) :
    (∀ r, Evaluates disk (.eval (.withMeta f m) scope) s r ↔ r = .ok (.withMeta f m) s) ∧
    (Inert f → ∃ w n, Evaluates disk (.eval f scope) s (.ok w (s.withSerials n)) ∧
      w.plain = (Value.withMeta f m).plain) ∧
    ∀ (l : Option Label) (r : EStateM.Result Failure Store Value),
      (f.items?.isSome →
        (Evaluates disk (.eval (.list l [.sym "quasiquote", .withMeta f m]) scope) s r ↔
          Evaluates disk (.eval (.list l [.sym "quasiquote", f]) scope) s r)) ∧
      (∀ body, Evaluates disk (.eval (.list l [.sym "fn*", .withMeta f m, body]) scope) s r ↔
        Evaluates disk (.eval (.list l [.sym "fn*", f, body]) scope) s r) ∧
      (IsFunction f → ∀ args,
        (Evaluates disk (.eval (.list l (.withMeta f m :: args)) scope) s r ↔
          Evaluates disk (.eval (.list l (f :: args)) scope) s r)) := by
  refine ⟨fun r ↦ settles_withMeta_iff, fun hf ↦ ?_, fun l r ↦
    ⟨fun hf ↦ settles_template_withMeta_iff hf, fun body ↦ settles_function_withMeta_iff,
      fun hf args ↦ settles_call_withMeta_iff hf⟩⟩
  rw [Value.plain_withMeta]
  exact hf.settles s

/-- A vector of data, a template and a function, with metadata on them. -/
theorem metadata_stops_evaluation_three :
    let disk : Disk := fun _ ↦ none
    let s : Store := { frames := #[⟨.empty, none⟩] }
    let one : Value := .vec [.int 1]
    let template : Value := .list none [.sym "unquote", .int 2]
    let constant : Value := .fn ⟨0, ⟨[], none⟩, .int 3, 0, false⟩
    (∃ w n, Evaluates disk (.eval one 0) s (.ok w (s.withSerials n)) ∧ w.plain = one) ∧
      Evaluates disk (.eval (.list none [.sym "quasiquote", .withMeta template .nil]) 0) s
        (.ok (.int 2) (s.withSerials 1)) ∧
      Evaluates disk (.eval (.list none [.withMeta constant .nil]) 0) s
        (.ok (.int 3) (s.addFrame (some 0) .empty).2) := by
  intro disk s one template constant
  have htwo : run disk 9 9 [] (.eval (.list none [.sym "quasiquote", template]) 0) s =
      .ok (.int 2) (s.withSerials 1) := rfl
  have hthree : run disk 9 9 [] (.eval (.list none [constant]) 0) s =
      .ok (.int 3) (s.addFrame (some 0) .empty).2 := rfl
  obtain ⟨-, hdata, -⟩ := metadata_stops_evaluation disk 0 s one .nil
  obtain ⟨-, -, htemplate⟩ := metadata_stops_evaluation disk 0 s template .nil
  obtain ⟨-, -, hcall⟩ := metadata_stops_evaluation disk 0 s constant .nil
  refine ⟨?_, ((htemplate none _).1 rfl).2 (.of_run htwo trivial),
    ((hcall none _).2.2 (.inl ⟨_, rfl⟩) []).2 (.of_run hthree trivial)⟩
  obtain ⟨w, n, hw, hplain⟩ := hdata (.vec (by simp [Inert.int]))
  exact ⟨w, n, hw, hplain.trans (by simp [one, Value.plain])⟩

namespace Session

set_option maxRecDepth 2000 in
/-- A sum is computed, but not under metadata. -/
theorem sum_kept_under_metadata :
    let disk : Disk := fun _ ↦ none
    let sum : Value := .list none [.sym "+", .int 1, .int 2]
    Reachable anything bare ∧
      Evaluates disk (.eval sum topLevel) bare (.ok (.int 3) bare) ∧
      Evaluates disk (.eval (.withMeta sum .nil) topLevel) bare (.ok (.withMeta sum .nil) bare) ∧
      (Value.withMeta sum .nil).plain ≠ (Value.int 3).plain := by
  intro disk sum
  have hsum : run disk 9 9 [] (.eval sum topLevel) bare = .ok (.int 3) bare := by
    with_unfolding_all rfl
  refine ⟨reachable_bare disk, .of_run hsum trivial, settles_withMeta_iff.2 rfl, ?_⟩
  simp [sum, Value.plain]

end Session

end Lisplet
