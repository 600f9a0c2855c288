import Lisplet.Proofs.Choosing

/-!
# Conditions

The macro `cond` of the prelude, and what it comes to when room is left aside.  A call of it goes
through its forms two at a time: it evaluates the first of them where the call stands and then, if
its value is true, the second; otherwise it goes on with the forms behind (`chooseFirst`).  None is
left, and the value is `nil`; one is left, and that is a mistake, for which a string is thrown.

The macro does not know about all of this.  Its code is a choice with the first two forms and with
another call of `cond`, which is expanded only if the choice comes to it.  So what is proved of one
expansion (`settles_cond_pair`) has to hold again wherever evaluating the tests has led to, and for
that `cond` and the functions that it calls have to be what they were (`Stays`).  Of its own an
expansion leaves a frame and takes serial numbers, and nothing else.
-/

set_option autoImplicit false

namespace Lisplet.Prelude

open Value (call)
open Session (topLevel)

variable {disk : Disk} {s s₁ : Store} {f g h : FrameId} {l : Option Label}
  {v p q test form : Value} {xs rest : List Value} {n : Int}
  {r : EStateM.Result Failure Store Value}

/-- Seen from `f`, `cond` is bound as by the prelude in the frame `h`, and all the functions that it
can call are seen from there. -/
structure Decides (s : Store) (f h : FrameId) : Prop extends Chooses s f h where
  throw : s.Resolves h .throw

theorem Decides.keeps (hd : Decides s f h) (hs : s.Keeps s₁) : Decides s₁ f h where
  toChooses := hd.toChooses.keeps hs
  throw := hd.throw.keeps hs

/-! ## The textbook recursion -/

/-- What is thrown where a test has no form. -/
def oddForms : Value := .str "odd number of forms to cond"

/-- The store with the frame of a call of `cond`. -/
def entered (h : FrameId) (xs : List Value) (s : Store) : Store :=
  (s.nextSerial.2.addFrame (some h) (.ofList [("xs", .list (some ⟨s.serials, []⟩) xs)])).2

/-- The store with the frame of a call of `cond`, which has gone on to make its code. -/
def expanded (h : FrameId) (xs : List Value) (s : Store) : Store :=
  (entered h xs s).withSerials (s.serials + 5)

/-- **The first form whose test is true**, in the frame `f`.  Each turn leaves what a call of `cond`
leaves. -/
def chooseFirst (eng : Engine) (f h : FrameId) : List Value → Eval Value
  | [] => do
    modify (entered h [])
    return .nil
  | [last] => do
    modify (entered h [last])
    Eval.throwValue oddForms
  | test :: form :: rest => do
    modify (expanded h (test :: form :: rest))
    if (← eng.eval f test).isTruthy then eng.eval f form else chooseFirst eng f h rest

/-- A turn makes its frame and then evaluates the test. -/
theorem settles_chooseFirst_iff :
    Settles disk (fun eng ↦ chooseFirst eng f h (test :: form :: rest)) s r ↔
      Settles disk (fun eng ↦ do
        if (← eng.eval f test).isTruthy then eng.eval f form else chooseFirst eng f h rest)
        (expanded h (test :: form :: rest) s) r :=
  settles_bind_of_ok (settles_of_forall (r := .ok ⟨⟩ _) trivial fun _ ↦ rfl)

/-- `cond` is what it is by the prelude, now and whenever a test has turned out to be false. -/
def Stays (disk : Disk) (f h : FrameId) : List Value → Store → Prop
  | test :: form :: rest, s => Decides s f h ∧ ∀ v s',
      Evaluates disk (.eval test f) (expanded h (test :: form :: rest) s) (.ok v s') →
        v.isTruthy = false → Stays disk f h rest s'
  | _, s => Decides s f h

/-! ## Evaluating inside the frame of a call -/

theorem keeps_entered (h : FrameId) (xs : List Value) (s : Store) : s.Keeps (entered h xs s) :=
  .addFrame s.nextSerial.2 _ _

theorem keeps_expanded (h : FrameId) (xs : List Value) (s : Store) : s.Keeps (expanded h xs s) :=
  keeps_entered h xs s

/-- Seen from `g`, `xs` is the list of the forms, and the functions that `cond` calls are there. -/
structure IsInside (s : Store) (g : FrameId) (xs : List Value) : Prop where
  forms : ∃ l, s.get? g "xs" = some (.list l xs)
  resolves : ∀ op ∈ condUses, s.Resolves g op
  throw : s.Resolves g .throw

theorem Decides.isInside (hd : Decides s f h) (xs : List Value) :
    IsInside (entered h xs s) s.frames.size xs := by
  have hkept := hd.keeps (keeps_entered h xs s)
  have hopens : (entered h xs s).Opens s.frames.size h
      [("xs", .list (some ⟨s.serials, []⟩) xs)] :=
    .new (s := s.nextSerial.2) hd.throw.lt_size _
  exact ⟨⟨_, hopens.get?_own rfl⟩,
    fun op hop ↦ hopens.resolves (hkept.resolves op hop) (unbound_of_condUses _ op hop),
    hopens.resolves hkept.throw rfl⟩

/-- A call of `cond` evaluates the body of the macro and then, where the call stands, its code. -/
theorem settles_cond_iff (hd : Decides s f h) :
    Settles disk (fun eng ↦ eng.eval f (.list l (.sym "cond" :: xs))) s r ↔
      Settles disk (fun eng ↦ eng.eval s.frames.size condBody >>= eng.eval f)
        (entered h xs s) r := by
  obtain ⟨serial, v, hget, hv⟩ := hd.cond
  have hform (eng : Engine) : Direct.value eng (.eval (.list l (.sym "cond" :: xs)) f) =
      Direct.combination eng f (.sym "cond") xs := rfl
  refine settles_run_iff_value.trans ?_
  simp only [hform, Direct.combination]
  refine (settles_bind_of_ok (settles_name hget)).trans ?_
  simp only [hv, if_true, Direct.apply, bind_assoc]
  exact settles_bind_of_ok (settles_of_forall trivial fun eng ↦ rfl)

/-- A choice with two branches. -/
theorem settles_choice_iff {negative : Value} :
    Settles disk (fun eng ↦ eng.eval f (.list l [.sym "if", test, form, negative])) s r ↔
      Settles disk (fun eng ↦ do
        if (← eng.eval f test).isTruthy then eng.eval f form else eng.eval f negative) s r :=
  settles_run_iff_value

/-- A choice whose test settles goes on with a branch. -/
theorem settles_choice_of_ok {negative : Value}
    (htest : Settles disk (fun eng ↦ eng.eval f test) s (.ok v s₁)) :
    Settles disk (fun eng ↦ eng.eval f (.list l [.sym "if", test, form, negative])) s r ↔
      Settles disk (fun eng ↦ eng.eval f (if v.isTruthy then form else negative)) s₁ r := by
  rw [settles_choice_iff]
  refine (settles_bind_of_ok htest).trans ?_
  cases v.isTruthy <;> exact Iff.rfl

section

variable (hs : IsInside s g xs)

include hs

/-- Whether there are more forms than so many. -/
theorem settles_isMore (n : Int) :
    Settles disk (fun eng ↦ eng.eval g (call ">" [call "count" [.sym "xs"], .int n])) s
      (.ok (.bool (decide ((xs.length : Int) > n))) s) := by
  obtain ⟨l, hxs⟩ := hs.forms
  have hcount : Settles disk (fun eng ↦ eng.eval g (call "count" [.sym "xs"])) s
      (.ok (.int xs.length) s) :=
    (settles_call_of_args [(.sym "xs", .list l xs)] (hs.resolves .count (by decide))
      (by simpa using settles_name hxs)).2 (settles_of_forall trivial fun _ ↦ rfl)
  refine (settles_call_of_args [(call "count" [.sym "xs"], .int xs.length), (.int n, .int n)]
    (hs.resolves .greater (by decide)) ?_).2 (settles_of_forall trivial fun _ ↦ rfl)
  simpa using ⟨hcount, settles_itself fun _ ↦ rfl⟩

theorem settles_isMore_of_lt (hn : n < (xs.length : Int)) :
    Settles disk (fun eng ↦ eng.eval g (call ">" [call "count" [.sym "xs"], .int n])) s
      (.ok (.bool true) s) := by
  have hmore : decide ((xs.length : Int) > n) = true := decide_eq_true hn
  rw [← hmore]
  exact settles_isMore hs n

theorem settles_first {x : Value} (hx : xs.head? = some x) :
    Settles disk (fun eng ↦ eng.eval g (call "first" [.sym "xs"])) s (.ok x s) := by
  obtain ⟨l, hget⟩ := hs.forms
  obtain ⟨xs, rfl⟩ := List.head?_eq_some_iff.1 hx
  exact (settles_call_of_args [(.sym "xs", .list l (x :: xs))] (hs.resolves .first (by decide))
    (by simpa using settles_name hget)).2 (settles_of_forall trivial fun _ ↦ rfl)

end

/-- Without forms the body is `nil`. -/
theorem settles_condBody_nil (hs : IsInside s g []) :
    Settles disk (fun eng ↦ eng.eval g condBody) s (.ok .nil s) := by
  refine settles_run_iff_value.2 ((settles_bind_of_ok (settles_isMore hs 0)).2 ?_)
  exact settles_pure _

/-- With forms the body makes the code of the choice. -/
theorem settles_condBody_iff (hs : IsInside s g (p :: xs)) :
    Settles disk (fun eng ↦ eng.eval g condBody) s r ↔
      Settles disk (fun eng ↦ eng.eval g condCode) s r := by
  have hlt : 0 < ((p :: xs).length : Int) := by
    rw [List.length_cons]
    omega
  exact settles_run_iff_value.trans (settles_bind_of_ok (settles_isMore_of_lt hs hlt))

/-- With one form there is no code. -/
theorem settles_condCode_single (hs : IsInside s g [p]) :
    Settles disk (fun eng ↦ eng.eval g condCode) s (.error (.thrown oddForms) s) := by
  have hthrow : Settles disk (fun eng ↦ eng.eval g (call "throw" [oddForms])) s
      (.error (.thrown oddForms) s) :=
    (settles_call_of_args [(oddForms, oddForms)] hs.throw
      (by simpa using settles_itself fun _ ↦ rfl)).2 (settles_of_forall trivial fun _ ↦ rfl)
  have hthen : Settles disk (fun eng ↦ eng.eval g condThen) s (.error (.thrown oddForms) s) :=
    (settles_choice_of_ok (settles_isMore hs 1)).2 hthrow
  refine (settles_call_iff (hs.resolves .list (by decide))).2 (settles_bind_of_error ?_)
  simp only [List.mapM_cons]
  refine (settles_bind_of_ok (settles_quoted _)).2 (settles_bind_of_error ?_)
  exact (settles_bind_of_ok (settles_first hs rfl)).2 (settles_bind_of_error
    (settles_bind_of_error hthen))

/-- With more forms the code is a choice, and making it takes four serial numbers. -/
theorem settles_condCode_pair (hs : IsInside s g (p :: q :: rest)) :
    Settles disk (fun eng ↦ eng.eval g condCode) s
      (.ok (.list (some ⟨s.serials + 3, []⟩)
        [.sym "if", p, q, .list (some ⟨s.serials + 2, []⟩) (.sym "cond" :: rest)])
        (s.withSerials (s.serials + 4))) := by
  obtain ⟨l, hxs⟩ := hs.forms
  have hthen : Settles disk (fun eng ↦ eng.eval g condThen) s (.ok q s) := by
    have hlt : 1 < ((p :: q :: rest).length : Int) := by
      rw [List.length_cons, List.length_cons]
      omega
    refine (settles_choice_of_ok (settles_isMore_of_lt hs hlt)).2 ?_
    refine (settles_call_of_args [(.sym "xs", .list l (p :: q :: rest)), (.int 1, .int 1)]
      (hs.resolves .nth (by decide)) ?_).2 (settles_of_forall trivial fun _ ↦ rfl)
    simpa using ⟨settles_name hxs, settles_itself fun _ ↦ rfl⟩
  have htail : Settles disk (fun eng ↦ eng.eval g (call "rest" [.sym "xs"])) s
      (.ok (.list (some ⟨s.serials, []⟩) (q :: rest)) (s.withSerials (s.serials + 1))) :=
    (settles_call_of_args [(.sym "xs", .list l (p :: q :: rest))] (hs.resolves .rest (by decide))
      (by simpa using settles_name hxs)).2 (settles_of_forall trivial fun _ ↦ rfl)
  have hothers : Settles disk (fun eng ↦ eng.eval g (call "rest" [call "rest" [.sym "xs"]])) s
      (.ok (.list (some ⟨s.serials + 1, []⟩) rest) (s.withSerials (s.serials + 2))) :=
    (settles_call_iff (hs.resolves .rest (by decide))).2
      ((settles_bind_of_ok (settles_mapM_cons htail (settles_pure []))).2
        (settles_of_forall trivial fun _ ↦ rfl))
  have hcons : Settles disk (fun eng ↦ eng.eval g
        (call "cons" [quoted (.sym "cond"), call "rest" [call "rest" [.sym "xs"]]])) s
      (.ok (.list (some ⟨s.serials + 2, []⟩) (.sym "cond" :: rest))
        (s.withSerials (s.serials + 3))) :=
    (settles_call_iff (hs.resolves .cons (by decide))).2
      ((settles_bind_of_ok (settles_mapM_cons (settles_quoted _)
        (settles_mapM_cons hothers (settles_pure [])))).2
        (settles_of_forall trivial fun _ ↦ rfl))
  refine (settles_call_iff (hs.resolves .list (by decide))).2 ((settles_bind_of_ok ?_).2
    (settles_of_forall (s := s.withSerials (s.serials + 3)) trivial fun _ ↦ rfl))
  exact settles_mapM_cons (settles_quoted _) (settles_mapM_cons (settles_first hs rfl)
    (settles_mapM_cons hthen (settles_mapM_cons hcons (settles_pure []))))

/-! ## One expansion after the other -/

/-- Without forms `cond` is `nil`. -/
theorem settles_cond_nil (hd : Decides s f h) :
    Settles disk (fun eng ↦ eng.eval f (.list l [.sym "cond"])) s (.ok .nil (entered h [] s)) :=
  (settles_cond_iff hd).2 ((settles_bind_of_ok (settles_condBody_nil (hd.isInside []))).2
    (settles_itself fun _ ↦ rfl))

/-- A test without a form is not evaluated. -/
theorem settles_cond_single (hd : Decides s f h) :
    Settles disk (fun eng ↦ eng.eval f (.list l [.sym "cond", p])) s
      (.error (.thrown oddForms) (entered h [p] s)) :=
  (settles_cond_iff hd).2 (settles_bind_of_error
    ((settles_condBody_iff (hd.isInside [p])).2 (settles_condCode_single (hd.isInside [p]))))

/-- **One expansion of `cond`** leaves a choice between its second form and a `cond` of the others,
made where the call stands. -/
theorem settles_cond_pair (hd : Decides s f h) :
    Settles disk (fun eng ↦ eng.eval f (.list l (.sym "cond" :: p :: q :: rest))) s r ↔
      Settles disk (fun eng ↦ do
        if (← eng.eval f p).isTruthy then eng.eval f q
        else eng.eval f (.list (some ⟨s.serials + 3, []⟩) (.sym "cond" :: rest)))
        (expanded h (p :: q :: rest) s) r := by
  have hinside := hd.isInside (p :: q :: rest)
  refine (settles_cond_iff hd).trans ((settles_bind_of_ok
    ((settles_condBody_iff hinside).2 (settles_condCode_pair hinside))).trans ?_)
  exact settles_choice_iff

/-- **`cond` is the textbook recursion**, by induction on its forms, two at a time. -/
theorem settles_cond (xs : List Value) (s : Store) (l : Option Label)
    (hs : Stays disk f h xs s) :
    Settles disk (fun eng ↦ eng.eval f (.list l (.sym "cond" :: xs))) s r ↔
      Settles disk (fun eng ↦ chooseFirst eng f h xs) s r := by
  match xs, hs with
  | [], hs =>
    exact (settles_cond_nil hs).settles_iff (settles_of_forall trivial fun _ ↦ rfl)
  | [last], hs =>
    exact (settles_cond_single hs).settles_iff (settles_of_forall trivial fun _ ↦ rfl)
  | test :: form :: rest, hs =>
    obtain ⟨hd, hlater⟩ := hs
    refine (settles_cond_pair hd).trans (Iff.trans ?_ settles_chooseFirst_iff.symm)
    refine settles_bind_congr (.eval f test) (.eval f test) (fun _ ↦ Iff.rfl) fun v s₁ hv ↦ ?_
    cases hfalse : v.isTruthy with
    | true => exact Iff.rfl
    | false => exact settles_cond rest s₁ _ (hlater v s₁ hv hfalse)

/-! ## Where `cond` stays what it is -/

/-- The tests that have a form. -/
def testsOf : List Value → List Value
  | test :: _ :: rest => test :: testsOf rest
  | _ => []

/-- `cond` stays what it is if evaluating the tests leaves all frames as they are. -/
theorem stays_of_keeps (xs : List Value) (s : Store) (hd : Decides s f h)
    (htests : ∀ x ∈ testsOf xs, ∀ s v s', Evaluates disk (.eval x f) s (.ok v s') → s.Keeps s') :
    Stays disk f h xs s := by
  match xs, htests with
  | [], _ => exact hd
  | [_], _ => exact hd
  | test :: form :: rest, htests =>
    obtain ⟨htest, hrest⟩ := List.forall_mem_cons.1 htests
    refine ⟨hd, fun v s' hv _ ↦ stays_of_keeps rest s' ?_ hrest⟩
    exact hd.keeps ((keeps_expanded h _ s).trans (htest _ v s' hv))

/-- The function that the definition makes, under a serial number, and the macro made from it. -/
def chooser (serial : Nat) (isMacro : Bool) : Value :=
  .fn ⟨serial, ⟨[], some "xs"⟩, condBody, topLevel, isMacro⟩

/-- The store with `cond` bound by the prelude. -/
def chosen (s : Store) : Store :=
  (s.withSerials (s.serials + 2)).define topLevel "cond" (chooser (s.serials + 1) true)

/-- **The prelude defines `cond`**: loading the definition binds the name, and does nothing else. -/
theorem settles_load_choosing (disk : Disk) (s : Store) :
    Session.Settles disk (fun w ↦ Session.load w choosing) s (.ok () (chosen s)) := by
  have hfn : Settles disk (fun eng ↦ eng.eval topLevel
        (.list none [.sym "fn*", .list none [.sym "&", .sym "xs"], condBody])) s
      (.ok (chooser s.serials false) (s.withSerials (s.serials + 1))) :=
    settles_run_iff_value.2 (settles_of_forall trivial fun _ ↦ rfl)
  have hform : Settles disk (fun eng ↦ eng.eval topLevel choosingForm) s
      (.ok (chooser (s.serials + 1) true) (chosen s)) :=
    settles_run_iff_value.2 ((settles_bind_of_ok hfn).2
      (settles_of_forall trivial fun _ ↦ rfl))
  have hforms := Forms.single (Reader.parse_eq_ok_iff.1 parse_choosing)
  refine (Session.settles_load_iff hforms).2
    (Session.settles_evalForms_iff.2 ⟨.ok () (chosen s), rfl, ?_⟩)
  simp only [List.forM, discard_eq_bind, bind_assoc]
  exact (settles_bind_of_ok hform).2 (settles_pure _)

/-- What the prelude binds `cond` to decides among forms. -/
theorem decides_chosen (hs : ∀ op ∈ .throw :: condUses, s.Resolves topLevel op) :
    Decides (chosen s) topLevel topLevel := by
  have hnames : ∀ op ∈ Builtin.throw :: condUses, op.name ≠ "cond" := by decide
  have hresolves (op : Builtin) (hop : op ∈ Builtin.throw :: condUses) :
      (chosen s).Resolves topLevel op :=
    resolves_define (s := s.nextSerial.2) ((hs op hop).keeps (.of_frames_eq rfl)) (hnames op hop) _
  have htop := (hs .throw List.mem_cons_self).lt_size
  have hcond : (chosen s).own? topLevel "cond" = some (chooser (s.serials + 1) true) := by
    rw [chosen, Store.own?_define]
    exact if_pos ⟨rfl, htop, rfl⟩
  exact ⟨⟨⟨s.serials + 1, chooser (s.serials + 1) true, Store.get?_of_own? hcond, rfl⟩,
    fun op hop ↦ hresolves op (List.mem_cons_of_mem _ hop)⟩, hresolves .throw List.mem_cons_self⟩

/-- **What `cond` means.**  The prelude binds it to a macro, and does nothing else.  As long as it
stays bound so, and the functions that it calls are seen from the frame it was made in, a call of it
is the textbook recursion over its forms, whatever they are and wherever the call stands: it ends
exactly as that does, in the same value or failure and in the same store.  If a test without a form is
come to, then what is thrown goes to the handler of an attempt around the call. -/
theorem cond_chooses_first (disk : Disk) :
    (∀ s, Session.Settles disk (fun w ↦ Session.load w choosing) s (.ok () (chosen s)) ∧
      ((∀ op ∈ .throw :: condUses, s.Resolves topLevel op) →
        Decides (chosen s) topLevel topLevel)) ∧
    ∀ (f h : FrameId) (xs : List Value) (s : Store) (l : Option Label), Stays disk f h xs s →
      (∀ r, Evaluates disk (.eval (.list l (.sym "cond" :: xs)) f) s r ↔
        Settles disk (fun eng ↦ chooseFirst eng f h xs) s r) ∧
      ∀ s', Settles disk (fun eng ↦ chooseFirst eng f h xs) s (.error (.thrown oddForms) s') →
        ∀ (l' lc : Option Label) (name : String) (handler : Value)
          (r : EStateM.Result Failure Store Value),
          Evaluates disk (.eval (attemptOf l' (.list l (.sym "cond" :: xs))
              (catching lc name handler)) f) s r ↔
            Evaluates disk (.eval handler s'.frames.size)
              (s'.addFrame (some f) (.ofList [(name, oddForms)])).2 r := by
  refine ⟨fun s ↦ ⟨settles_load_choosing disk s, decides_chosen⟩, fun f h xs s l hs ↦
    ⟨fun r ↦ settles_cond xs s l hs, fun s' hthrown l' lc name handler r ↦ ?_⟩⟩
  have hprint : (oddForms.print s'.atoms .readable 1).isSome := rfl
  exact settles_attempt_of_thrown ((settles_cond xs s l hs).2 hthrown) hprint

/-- With `cond` from the prelude: a form whose test is true, behind one whose test is not, and a test
without a form, around which there is an attempt.  The name that is bound nowhere is never looked
up. -/
theorem cond_chooses_first_two :
    let disk : Disk := fun _ ↦ none
    let s := chosen Session.bare
    let xs : List Value := [.bool false, .sym "nowhere", .bool true, .int 7]
    let ys : List Value := [.bool false, .int 1, .sym "nowhere"]
    let s' := entered topLevel [.sym "nowhere"] (expanded topLevel ys s)
    (∀ op ∈ .throw :: condUses, Session.bare.Resolves topLevel op) ∧
    (Stays disk topLevel topLevel xs s ∧
      Evaluates disk (.eval (.list none (.sym "cond" :: xs)) topLevel) s
        (.ok (.int 7) (expanded topLevel [.bool true, .int 7] (expanded topLevel xs s)))) ∧
    Stays disk topLevel topLevel ys s ∧
    Settles disk (fun eng ↦ chooseFirst eng topLevel topLevel ys) s
      (.error (.thrown oddForms) s') ∧
    Evaluates disk (.eval (attemptOf none (.list none (.sym "cond" :: ys))
        (catching none "e" (.sym "e"))) topLevel) s
      (.ok oddForms (s'.addFrame (some topLevel) (.ofList [("e", oddForms)])).2) := by
  intro disk s xs ys s'
  obtain ⟨hload, hcond⟩ := cond_chooses_first disk
  have hbare : ∀ op ∈ .throw :: condUses, Session.bare.Resolves topLevel op :=
    fun op _ ↦ Session.resolves_bare op
  have hd : Decides s topLevel topLevel := (hload Session.bare).2 hbare
  have hbool (b : Bool) (s : Store) : Settles disk (fun eng ↦ eng.eval topLevel (.bool b)) s
      (.ok (.bool b) s) := settles_itself fun _ ↦ rfl
  have hkeeps (b : Bool) (s : Store) (v : Value) (s' : Store)
      (h : Evaluates disk (.eval (.bool b) topLevel) s (.ok v s')) : s.Keeps s' := by
    obtain ⟨-, rfl⟩ := EStateM.Result.ok.inj ((hbool b s).unique h)
    exact .of_frames_eq rfl
  have hxs : Stays disk topLevel topLevel xs s :=
    stays_of_keeps xs s hd (by simpa [xs, testsOf] using ⟨hkeeps false, hkeeps true⟩)
  have hys : Stays disk topLevel topLevel ys s :=
    stays_of_keeps ys s hd (by simpa [ys, testsOf] using hkeeps false)
  have hseven : Settles disk (fun eng ↦ chooseFirst eng topLevel topLevel xs) s
      (.ok (.int 7) (expanded topLevel [.bool true, .int 7] (expanded topLevel xs s))) := by
    refine settles_chooseFirst_iff.2 ((settles_bind_of_ok (hbool false _)).2 ?_)
    refine settles_chooseFirst_iff.2 ((settles_bind_of_ok (hbool true _)).2 ?_)
    exact settles_itself fun _ ↦ rfl
  have hodd : Settles disk (fun eng ↦ chooseFirst eng topLevel topLevel ys) s
      (.error (.thrown oddForms) s') := by
    refine settles_chooseFirst_iff.2 ((settles_bind_of_ok (hbool false _)).2 ?_)
    exact settles_of_forall trivial fun _ ↦ rfl
  obtain ⟨hvalue, -⟩ := hcond topLevel topLevel xs s none hxs
  obtain ⟨-, hcaught⟩ := hcond topLevel topLevel ys s none hys
  refine ⟨hbare, ⟨hxs, (hvalue _).2 hseven⟩, hys, hodd, (hcaught s' hodd none none "e" _ _).2 ?_⟩
  refine settles_name (Store.get?_of_own? ?_)
  rw [Store.own?_addFrame, if_pos rfl]
  rfl

end Lisplet.Prelude
