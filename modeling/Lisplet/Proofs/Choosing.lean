import Lisplet.Proofs.Calling

/-!
# Choosing among conditions

The prelude defines `cond` as a macro over its forms: its code is a choice with the first two of
them and, behind it, a `cond` of the others.  So a `cond` goes on as that choice, where it stands
(`chain_cond`), and whatever form it comes to in the end is in tail position.

Making the code takes four units of room, as its longest calls nest so deep, and they are given back
before the choice is made: in three units `cond` overflows (`overflows_cond`), in four any number of
conditions can be gone through.
-/

set_option autoImplicit false

namespace Lisplet.Prelude

open Moment
open Value (call)

variable {disk : Disk} {room : Nat} {s s₁ : Store} {f g h : FrameId} {l : Option Label}
  {p q : Value} {rest : List Value} {sites : List FrameId}

/-! ## The macro -/

/-- What `cond` takes behind its first form. -/
def condThen : Value :=
  .list none [.sym "if", call ">" [call "count" [.sym "xs"], .int 1],
    call "nth" [.sym "xs", .int 1], call "throw" [.str "odd number of forms to cond"]]

/-- The form whose value is the code of the choice. -/
def condCode : Value :=
  call "list" [quoted (.sym "if"), call "first" [.sym "xs"], condThen,
    call "cons" [quoted (.sym "cond"), call "rest" [call "rest" [.sym "xs"]]]]

/-- The body of `cond`. -/
def condBody : Value :=
  .list none [.sym "if", call ">" [call "count" [.sym "xs"], .int 0], condCode]

/-- The definition of `cond`. -/
def choosingForm : Value :=
  .list none [.sym "defmacro!", .sym "cond",
    .list none [.sym "fn*", .list none [.sym "&", .sym "xs"], condBody]]

set_option maxRecDepth 4000 in
theorem parse_choosing : Reader.parse choosing = .ok choosingForm := by
  rfl

/-- The functions that the body calls. -/
def condUses : List Builtin := [.greater, .count, .list, .first, .nth, .cons, .rest]

theorem unbound_of_condUses (xs : Value) :
    ∀ op ∈ condUses, (Dict.ofList [("xs", xs)]).get? op.name = none := by
  simp only [condUses, List.forall_mem_cons]
  exact ⟨rfl, rfl, rfl, rfl, rfl, rfl, rfl, fun _ h ↦ (List.not_mem_nil h).elim⟩

/-- Seen from `f`, `cond` is bound as by the prelude in the frame `h`, from which the functions that
it uses are seen. -/
structure Chooses (s : Store) (f h : FrameId) : Prop where
  cond : ∃ serial, s.Binds f "cond" ⟨serial, ⟨[], some "xs"⟩, condBody, h, true⟩
  resolves : ∀ op ∈ condUses, s.Resolves h op

theorem Chooses.keeps (hc : Chooses s f h) (hs : s.Keeps s₁) : Chooses s₁ f h where
  cond := by
    obtain ⟨serial, hbinds⟩ := hc.cond
    exact ⟨serial, hbinds.keeps hs⟩
  resolves op hop := (hc.resolves op hop).keeps hs

theorem Chooses.inside {vars : List (String × Value)} (hc : Chooses s g h)
    (hopens : s.Opens f g vars) (hname : (Dict.ofList vars).get? "cond" = none) :
    Chooses s f h where
  cond := by
    obtain ⟨serial, hbinds⟩ := hc.cond
    exact ⟨serial, hopens.binds hbinds hname⟩
  resolves := hc.resolves

/-! ## What it comes to -/

theorem ends_isMore (hcount : s.Resolves f .count) (hgreater : s.Resolves f .greater)
    (hxs : s.get? f "xs" = some (.list l (p :: q :: rest))) {n : Int} (hn : n ≤ 1) :
    (start (call ">" [call "count" [.sym "xs"], .int n]) f s).Ends disk (room + 2)
      (.ok (.bool true) s) := by
  have hlength : (start (call "count" [.sym "xs"]) f s).Ends disk (room + 1)
      (.ok (.int (rest.length + 1 + 1 : Nat)) s) :=
    ends_builtin hcount (.cons (ends_name hxs) (.nil s)) fun _ ↦ rfl
  refine ends_builtin hgreater (.cons hlength (.cons (ends_itself fun _ ↦ rfl) (.nil s))) fun m ↦ ?_
  have hmore : decide (((rest.length + 1 + 1 : Nat) : Int) > n) = true := by
    rw [decide_eq_true_iff]
    omega
  rw [← hmore]
  rfl

theorem ends_rest_rest (disk : Disk) (room : Nat) (hrest : s.Resolves f .rest)
    (hxs : s.get? f "xs" = some (.list l (p :: q :: rest))) :
    ∃ l' s', s'.frames = s.frames ∧
      (start (call "rest" [call "rest" [.sym "xs"]]) f s).Ends disk (room + 2)
        (.ok (.list l' rest) s') := by
  have hinner : (start (call "rest" [.sym "xs"]) f s).Ends disk (room + 1)
      (.ok (.list (some ⟨s.serials, []⟩) (q :: rest)) s.nextSerial.2) :=
    ends_builtin hrest (.cons (ends_name hxs) (.nil s)) fun _ ↦ rfl
  have houter : (start (call "rest" [call "rest" [.sym "xs"]]) f s).Ends disk (room + 2)
      (.ok (.list (some ⟨s.serials + 1, []⟩) rest) s.nextSerial.2.nextSerial.2) :=
    ends_builtin hrest (.cons hinner (.nil _)) fun _ ↦ rfl
  exact ⟨_, s.nextSerial.2.nextSerial.2, rfl, houter⟩

/-- In four units of room the code of the choice is made. -/
theorem steps_condCode (disk : Disk) (room : Nat) (sites : List FrameId)
    (hops : ∀ op ∈ condUses, s.Resolves f op)
    (hxs : s.get? f "xs" = some (.list l (p :: q :: rest))) :
    ∃ l' l'' s', s'.frames = s.frames ∧
      Moment.Steps disk (room + 4) ⟨sites, .eval condCode f, s⟩
        (.ok (.done (.list l' [.sym "if", p, q, .list l'' (.sym "cond" :: rest)])) s') := by
  have hfirst : (start (call "first" [.sym "xs"]) f s).Ends disk (room + 3) (.ok p s) :=
    ends_builtin (hops .first (by decide)) (.cons (ends_name hxs) (.nil s)) fun _ ↦ rfl
  have hthen : (start condThen f s).Ends disk (room + 3) (.ok q s) := by
    have hmore : (start (call ">" [call "count" [.sym "xs"], .int 1]) f s).Ends disk (room + 2)
        (.ok (.bool true) s) :=
      ends_isMore (hops .count (by decide)) (hops .greater (by decide)) hxs (Int.le_refl 1)
    have hnth : (start (call "nth" [.sym "xs", .int 1]) f s).Ends disk (room + 3) (.ok q s) :=
      ends_builtin (hops .nth (by decide))
        (.cons (ends_name hxs) (.cons (ends_itself fun _ ↦ rfl) (.nil s))) fun _ ↦ rfl
    exact (TailCall.positive hmore.inside rfl (by simp)).turn.ends_iff.2 hnth
  obtain ⟨l₁, s₁, hframes, hothers⟩ := ends_rest_rest disk room (hops .rest (by decide)) hxs
  have hcons : (start (call "cons" [quoted (.sym "cond"), call "rest" [call "rest" [.sym "xs"]]])
      f s).Ends disk (room + 3)
      (.ok (.list (some ⟨s₁.serials, []⟩) (.sym "cond" :: rest)) s₁.nextSerial.2) :=
    ends_builtin (hops .cons (by decide)) (.cons (ends_quoted _) (.cons hothers (.nil s₁)))
      fun _ ↦ rfl
  have hargs := ArgumentsEnd.cons (ends_quoted (.sym "if")) (.cons hfirst (.cons hthen
    (.cons hcons (.nil s₁.nextSerial.2))))
  refine ⟨some ⟨s₁.serials + 1, []⟩, some ⟨s₁.serials, []⟩, s₁.nextSerial.2.nextSerial.2, hframes,
    steps_builtin (hops .list (by decide)) hargs ?_⟩
  exact reaches_of_forall trivial fun _ ↦ rfl

/-- In three units it is not. -/
theorem steps_condCode_overflow
    (hops : ∀ op ∈ condUses, s.Resolves f op)
    (hxs : s.get? f "xs" = some (.list l (p :: q :: rest))) :
    Moment.Steps disk 3 ⟨sites, .eval condCode f, s⟩ (.error .overflow s) := by
  have hfirst : (start (call "first" [.sym "xs"]) f s).Ends disk 2 (.ok p s) :=
    ends_builtin (hops .first (by decide)) (.cons (ends_name hxs) (.nil s)) fun _ ↦ rfl
  have hcount : (start (call "count" [.sym "xs"]) f s).Ends disk 0 (.error .overflow s) :=
    (steps_zero rfl).ends_error
  have hmore : (start (call ">" [call "count" [.sym "xs"], .int 1]) f s).Ends disk 1
      (.error .overflow s) :=
    (steps_builtin_of_error [] [.int 1] (hops .greater (by decide)) (.nil s) hcount).ends_error
  have hthen : (start condThen f s).Ends disk 2 (.error .overflow s) :=
    (steps_choice_of_error hmore).ends_error
  exact steps_builtin_of_error [quoted (.sym "if"), call "first" [.sym "xs"]]
    [call "cons" [quoted (.sym "cond"), call "rest" [call "rest" [.sym "xs"]]]]
    (hops .list (by decide)) (.cons (ends_quoted (.sym "if")) (.cons hfirst (.nil s))) hthen

/-- A call of `cond` goes on with the form that makes the code, in a frame of its own. -/
theorem chain_condCode (hc : Chooses s f h) :
    ∃ s' f' l', s.Keeps s' ∧ s'.get? f' "xs" = some (.list l' (p :: q :: rest)) ∧
      (∀ op ∈ condUses, s'.Resolves f' op) ∧
      Chain disk (room + 3) ⟨sites, .eval (.list l (.sym "cond" :: p :: q :: rest)) f, s⟩
        ⟨f :: sites, .eval condCode f', s'⟩ := by
  obtain ⟨serial, hcond⟩ := hc.cond
  have hh : h < s.frames.size := (hc.resolves .count (by decide)).lt_size
  obtain ⟨s', f', l', hkeeps, hopens, hturn⟩ :=
    turn_macro disk (room + 2) sites l rfl hcond rfl rfl hh (p :: q :: rest)
  have hxs : s'.get? f' "xs" = some (.list l' (p :: q :: rest)) := hopens.get?_own rfl
  have hops : ∀ op ∈ condUses, s'.Resolves f' op := fun op hop ↦
    hopens.resolves ((hc.keeps hkeeps).resolves op hop) (unbound_of_condUses _ op hop)
  have hmore : (start (call ">" [call "count" [.sym "xs"], .int 0]) f' s').Ends disk (room + 2)
      (.ok (.bool true) s') :=
    ends_isMore (hops .count (by decide)) (hops .greater (by decide)) hxs (by decide)
  have hchoice : Turn disk (room + 3) ⟨f :: sites, .eval condBody f', s'⟩
      ⟨f :: sites, .eval condCode f', s'⟩ :=
    (TailCall.positive hmore.inside rfl (by simp)).turn
  exact ⟨s', f', l', hkeeps, hxs, hops, .head hturn (.single hchoice)⟩

/-- **In four units of room `cond` goes on as a choice**, with a `cond` of the other forms behind. -/
theorem chain_cond (disk : Disk) (room : Nat) (sites : List FrameId) (l : Option Label)
    (p q : Value) (rest : List Value) (hc : Chooses s f h) :
    ∃ s' l' l'', s.Keeps s' ∧
      Chain disk (room + 4) ⟨sites, .eval (.list l (.sym "cond" :: p :: q :: rest)) f, s⟩
        ⟨sites, .eval (.list l' [.sym "if", p, q, .list l'' (.sym "cond" :: rest)]) f, s'⟩ := by
  obtain ⟨s₁, f₁, l₁, hkeeps, hxs, hops, hchain⟩ := chain_condCode hc
  obtain ⟨l', l'', s', hframes, hsteps⟩ := steps_condCode disk room (f :: sites) hops hxs
  have hcode : Turn disk (room + 4) ⟨f :: sites, .eval condCode f₁, s₁⟩
      ⟨sites, .eval (.list l' [.sym "if", p, q, .list l'' (.sym "cond" :: rest)]) f, s'⟩ :=
    (TailCall.expansion hsteps).turn
  exact ⟨s', l', l'', hkeeps.trans (.of_frames_eq hframes), hchain.tail hcode⟩

/-- In three units it overflows. -/
theorem overflows_cond (hc : Chooses s f h) :
    Overflows disk 3 ⟨sites, .eval (.list l (.sym "cond" :: p :: q :: rest)) f, s⟩ := by
  obtain ⟨s', f', l', -, hxs, hops, hchain⟩ := chain_condCode hc
  exact hchain.overflows_iff.2 ⟨s', (steps_condCode_overflow hops hxs).ends_error⟩

end Lisplet.Prelude
