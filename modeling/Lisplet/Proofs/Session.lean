import Lisplet.Proofs.Law.Run
import Lisplet.Repl

/-!
# What a session can come to

A session starts with a prelude and goes on from text to text; what one text leaves, a failure
included, is what the next one starts from.  `Session.Leads allowed s₀ s` says that a session can
get from `s₀` to `s`, each text being taken under whatever world and as far as `allowed` admits it,
and `Session.Reachable` that it can get to `s` at all, whatever its prelude.

Loading, printing and starting change the store only by evaluating a text at the top level
(`finalStore_load`, `finalStore_rep`, `finalStore_start`), and that changes it only by evaluating
the form that the text holds (`finalStore_eval`).  So what every such evaluation keeps holds
throughout a session (`Leads.induction`, `Leads.holds`).
-/

set_option autoImplicit false

namespace Lisplet

/-- The text of the file at a path, if it is known to have one. -/
def Disk.text? (disk : Disk) (path : String) : Option String :=
  if Path.isPlain path then
    match disk (Path.normalize path) with
    | some (.text content) => some (Text.unifyNewlines content)
    | _ => none
  else none

/-- **Reading a file** gives its text if it has one, and else the system's complaint or a failure.
Nothing else comes of it. -/
theorem Effect.readFile_cases (disk : Disk) (path : String) :
    (∃ text, disk.text? path = some text ∧ readFile disk path = pure (.ok text)) ∨
      disk.text? path = none ∧
        ((∃ fault, readFile disk path = pure (.error fault)) ∨
          ∃ failure, readFile disk path = throw failure) := by
  rw [readFile, Disk.text?]
  split
  · rcases disk (Path.normalize path) with _ | content | _ | f
    · exact .inr ⟨rfl, .inr ⟨_, rfl⟩⟩
    · exact .inl ⟨_, rfl, rfl⟩
    · exact .inr ⟨rfl, .inr ⟨_, rfl⟩⟩
    · exact .inr ⟨rfl, .inl ⟨f, rfl⟩⟩
  · exact .inr ⟨rfl, .inr ⟨_, rfl⟩⟩

/-- The program that a session starts with, if there is one and it can be had. -/
def PreludeSource.program? (w : World) : PreludeSource → Option String
  | standard => some Prelude.standard
  | absent => none
  | text program => some program
  | file path => w.disk.text? path

namespace Session

/-- What a session can come to by going on from `s₀`. -/
inductive Leads (allowed : World → String → Store → Prop) (s₀ : Store) : Store → Prop
  | refl : Leads allowed s₀ s₀
  | eval {s : Store} (w : World) (source : String) (h : Leads allowed s₀ s)
      (hs : allowed w source s) : Leads allowed s₀ (finalStore (Session.eval w source s))
  | load {s : Store} (w : World) (program : String) (h : Leads allowed s₀ s)
      (hs : allowed w (programText program) s) :
      Leads allowed s₀ (finalStore (Session.load w program s))
  | rep {s : Store} (w : World) (source : String) (h : Leads allowed s₀ s)
      (hs : allowed w source s) : Leads allowed s₀ (finalStore (Session.rep w source s))
  /-- The arguments of a script are bound. -/
  | arguments {s : Store} (args : List String) (h : Leads allowed s₀ s) :
      Leads allowed s₀ (s.define topLevel "*ARGV*" (.list none (args.map .str)))
  /-- The output is taken away. -/
  | flush {s : Store} (h : Leads allowed s₀ s) : Leads allowed s₀ { s with output := "" }

/-- The store with nothing but the built-in functions at the top level. -/
def bare : Store := ({} : Store).addTopLevel.2

/-- The states of all sessions, with whatever prelude they start. -/
def Reachable (allowed : World → String → Store → Prop) (s : Store) : Prop :=
  ∃ (w : World) (source : PreludeSource),
    (∀ program ∈ source.program? w, allowed w (programText program) bare) ∧
      Leads allowed (finalStore (Session.start w source {})) s

/-- Every text may be evaluated. -/
def anything : World → String → Store → Prop := fun _ _ _ ↦ True

variable {allowed : World → String → Store → Prop} {s₀ s s' : Store} {w : World}

theorem Leads.trans (h : Leads allowed s₀ s) (h' : Leads allowed s s') : Leads allowed s₀ s' := by
  induction h' with
  | refl => exact h
  | eval w source _ hs ih => exact ih.eval w source hs
  | load w program _ hs ih => exact ih.load w program hs
  | rep w source _ hs ih => exact ih.rep w source hs
  | arguments args _ ih => exact ih.arguments args
  | flush _ ih => exact ih.flush

theorem Reachable.trans (h : Reachable allowed s) (h' : Leads allowed s s') :
    Reachable allowed s' := by
  obtain ⟨w, source, hsource, h⟩ := h
  exact ⟨w, source, hsource, h.trans h'⟩

/-- A session can start with the bare top level. -/
theorem reachable_bare (disk : Disk) : Reachable allowed bare :=
  ⟨{ disk }, .absent, fun program hp ↦ by simp [PreludeSource.program?] at hp, .refl⟩

/-- The bare top level binds nothing but built-in functions. -/
theorem exists_of_mem_bare {f : FrameId} {fr : Frame} (hfr : bare.frames[f]? = some fr)
    {e : String × Value} (he : e ∈ fr.vars.entries) : ∃ op, e.2 = .builtin topLevel op := by
  obtain ⟨hlt, hfr⟩ := Array.getElem?_eq_some_iff.1 hfr
  have hsize : bare.frames.size = 1 := rfl
  obtain rfl : f = 0 := Nat.lt_one_iff.1 (hsize ▸ hlt)
  obtain rfl : bare.frames[0] = fr := hfr
  obtain ⟨op, -, rfl⟩ := List.mem_map.1 (Dict.mem_of_mem_entries_ofList he)
  exact ⟨op, rfl⟩

theorem atoms_bare : bare.atoms = #[] := rfl

/-! ## Reading, evaluating and printing -/

/-- A session reads a text and then evaluates it. -/
theorem eval_apply (w : World) (source : String) (s : Store) :
    Session.eval w source s =
      match Reader.read w.depth source with
      | .ok form => Session.evalForm w topLevel form s
      | .error f => .error (.ofReadFault f) s := by
  change (Session.read w source >>= Session.evalForm w topLevel) s = _
  rw [Session.read]
  cases Reader.read w.depth source <;> rfl

/-- A session evaluates a text and then prints the value. -/
theorem rep_apply (w : World) (source : String) (s : Store) :
    Session.rep w source s =
      match Session.eval w source s with
      | .ok v s' =>
        match v.print s'.atoms .readable w.depth with
        | some text => .ok text s'
        | none => .error .printTooDeep s'
      | .error t s' => .error t s' := by
  rw [Session.rep]
  simp only [Bind.bind, EStateM.bind]
  cases Session.eval w source s with
  | ok v s' =>
    change (match v.print s'.atoms .readable w.depth with
      | some text => (pure text : Session String)
      | none => throw Trouble.printTooDeep) s' = _
    dsimp only
    cases v.print s'.atoms .readable w.depth <;> rfl
  | error t s' => rfl

/-! ## What a session does to the store -/

/-- What only looks at the store afterwards does not change what a computation leaves. -/
theorem finalStore_bind {α β : Type} (x : Session α) (f : α → Session β)
    (hf : ∀ a s, finalStore (f a s) = s) (s : Store) :
    finalStore ((x >>= f) s) = finalStore (x s) := by
  simp only [bind, EStateM.bind]
  cases x s with
  | ok a s' => exact hf a s'
  | error e s' => rfl

theorem finalStore_load (program : String) (s : Store) :
    finalStore (Session.load w program s) =
      finalStore (Session.eval w (programText program) s) := by
  have hload : Session.load w program =
      Session.eval w (programText program) >>= fun _ ↦ pure () := by
    rw [bind_pure_comp, Session.load, discard, map_const]
    rfl
  rw [hload, finalStore_bind _ _ fun _ _ ↦ rfl]

theorem finalStore_rep (source : String) (s : Store) :
    finalStore (Session.rep w source s) = finalStore (Session.eval w source s) := by
  rw [rep_apply]
  cases Session.eval w source s with
  | ok v s' =>
    dsimp only
    cases v.print s'.atoms .readable w.depth <;> rfl
  | error t s' => rfl

/-- A session starts from what its prelude leaves. -/
theorem finalStore_start (w : World) (source : PreludeSource) :
    finalStore (Session.start w source {}) =
      (source.program? w).elim bare fun program ↦
        finalStore (Session.eval w (programText program) bare) := by
  have hset (x : Session Unit) : (set bare >>= fun _ ↦ x) {} = x bare := rfl
  have hload (program : String) := finalStore_load (w := w) program bare
  rw [Session.start.eq_def, ← bare, hset, PreludeSource.program?.eq_def]
  cases source with
  | standard =>
    rw [Option.elim_some]
    exact hload Prelude.standard
  | absent => rfl
  | text program =>
    rw [Option.elim_some]
    exact hload program
  | file path =>
    dsimp only
    obtain ⟨text, htext, hread⟩ | ⟨hnone, ⟨fault, hread⟩ | ⟨failure, hread⟩⟩ :=
      Effect.readFile_cases w.disk path
    · rw [htext, hread, Option.elim_some]
      exact hload text
    · rw [hnone, hread]
      rfl
    · rw [hnone, hread]
      rfl

theorem finalStore_perform {α : Type} (x : Eval α) (s : Store) :
    finalStore (perform x s) = finalStore (x s) := by
  rw [perform]
  cases x s <;> rfl

/-- A text that cannot be read changes nothing; any other leaves what its form leaves. -/
theorem finalStore_eval (w : World) (source : String) (s : Store) :
    finalStore (Session.eval w source s) =
      match Reader.read w.depth source with
      | .ok form => finalStore (run w.disk w.steps w.depth [] (.eval form topLevel) s)
      | .error _ => s := by
  rw [eval_apply]
  cases Reader.read w.depth source with
  | ok form => exact finalStore_perform (run w.disk w.steps w.depth [] (.eval form topLevel)) s
  | error f => rfl

/-! ## What holds throughout a session -/

section

variable {P : Store → Prop}
  (heval : ∀ (w : World) (source : String) (form : Value) (s : Store), allowed w source s →
    Reader.read w.depth source = .ok form → P s →
    P (finalStore (run w.disk w.steps w.depth [] (.eval form topLevel) s)))
  (harguments : ∀ (s : Store) (args : List String), P s →
    P (s.define topLevel "*ARGV*" (.list none (args.map .str))))
  (hflush : ∀ s : Store, P s → P { s with output := "" })
include heval

theorem of_eval (w : World) (source : String) (hs : allowed w source s) (h : P s) :
    P (finalStore (Session.eval w source s)) := by
  rw [finalStore_eval]
  split
  · rename_i form hread
    exact heval w source form s hs hread h
  · exact h

include harguments hflush

/-- **Whatever evaluation at the top level keeps holds throughout a session.** -/
theorem Leads.induction (h : Leads allowed s₀ s) (hs₀ : P s₀) : P s := by
  induction h with
  | refl => exact hs₀
  | eval w source _ hs ih => exact of_eval heval w source hs ih
  | load w program _ hs ih =>
    rw [finalStore_load]
    exact of_eval heval w _ hs ih
  | rep w source _ hs ih =>
    rw [finalStore_rep]
    exact of_eval heval w source hs ih
  | arguments args _ ih => exact harguments _ args ih
  | flush _ ih => exact hflush _ ih

theorem Reachable.induction (h : Reachable allowed s) (hbare : P bare) : P s := by
  obtain ⟨w, source, hsource, h⟩ := h
  refine h.induction heval harguments hflush ?_
  rw [finalStore_start]
  cases hprogram : source.program? w with
  | none => exact hbare
  | some program => exact of_eval heval w _ (hsource program hprogram) hbare

end

section

variable {L : Law} (htop : ∀ s, L.Holds s → L.active s topLevel)
include htop

theorem holds_arguments (s : Store) (args : List String) (h : L.Holds s) :
    L.Holds (s.define topLevel "*ARGV*" (.list none (args.map .str))) := by
  have hargs : ∀ v ∈ args.map Value.str, L.Good s v := fun v hv ↦ by
    obtain ⟨text, -, rfl⟩ := List.mem_map.1 hv
    exact Law.good_str text
  exact h.define (htop s h) (Law.good_list none hargs) _

variable (heval : ∀ (w : World) (source : String) (form : Value) (s : Store), allowed w source s →
    Reader.read w.depth source = .ok form → L.Holds s →
    L.Holds (finalStore (run w.disk w.steps w.depth [] (.eval form topLevel) s)))
include heval

/-- **A law that every text keeps holds throughout a session.** -/
theorem Leads.holds (h : Leads allowed s₀ s) (hs₀ : L.Holds s₀) : L.Holds s :=
  h.induction heval (holds_arguments htop) (fun _ hs ↦ hs.congr rfl rfl) hs₀

theorem Reachable.holds (h : Reachable allowed s) (hbare : L.Holds bare) : L.Holds s :=
  h.induction heval (holds_arguments htop) (fun _ hs ↦ hs.congr rfl rfl) hbare

end

end Session

end Lisplet
