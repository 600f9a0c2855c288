import Lisplet.Proofs.Grammar
import Lisplet.Reader.Descent

/-!
# A form delimits itself

Where a form ends is seen from its own tokens.  What is read from the front of a stream does not
change when more tokens are put behind it; only the complaint that the tokens end does, and that one
is made when they have.  So a caller can tell input that is incomplete from input that is wrong, and
can read several forms from one stream.

The reader by recursive descent is shown to answer as the one with a stack does
(`form_eq_readForm`), and what is proved of the second is read off for the first.  The descent keeps
around a form, in its own calls, what the other reader keeps on its stack, so the induction is on
the levels that are left and uniform in the stack: a form that is read below a stack is a form that
goes to the top of it (`Meets`).

Looking at a token is asked about from outside.  Two streams with the same tokens to come cannot be
told apart by any requests (`replies_congr`), and looking leaves the tokens as they are.
-/

set_option autoImplicit false

namespace Lisplet.Reader

open Token (Stream)

variable {limit most depth : Nat} {stack : List Pending} {t : Token} {ts us left : List Token}
  {b : Bracket} {v : Value}

namespace Descent

variable {α β : Type} {s : Stream} {inner : Descent Value} {below : Option (Descent Value)}

theorem bind_of_ok {x : Descent α} {f : α → Descent β} {a : α} {s' : Stream}
    (h : x s = .ok a s') : (x >>= f) s = f a s' := by
  change EStateM.bind x f s = _
  rw [EStateM.bind, h]

theorem bind_of_error {x : Descent α} {f : α → Descent β} {e : ReadFault} {s' : Stream}
    (h : x s = .error e s') : (x >>= f) s = .error e s' := by
  change EStateM.bind x f s = _
  rw [EStateM.bind, h]

theorem look_apply (s : Stream) : look s = .ok s.tokens.head? s.peek.2 := by
  rw [← Stream.peek_fst]
  rfl

theorem take_apply (s : Stream) : take s = .ok () ⟨none, s.tokens.tail⟩ := by
  have h : take s = .ok () s.take.2 := rfl
  rw [h, Stream.take_eq]

/-! ## The descent and the stack -/

/-- What was read below a stack is what reading on answers: a form went to the top of the stack, and
an error is an error.  A form took a token, and no token waits that was looked at. -/
def Meets (limit : Nat) (stack : List Pending) (ts : List Token) :
    EStateM.Result ReadFault Stream Value → Prop
  | .ok v s => s.ahead = none ∧ s.tokens.length < ts.length ∧
      readFrom limit stack ts = resume limit (plug stack v) s.tokens
  | .error e s => s.ahead = none ∧ readFrom limit stack ts = (.error e, s.tokens)

/-- The forms of a bracket were read up to the token that closes it. -/
def MeetsClose (limit : Nat) (b : Bracket) (done : List Value) (stack : List Pending)
    (ts : List Token) : EStateM.Result ReadFault Stream (List Value) → Prop
  | .ok vs s => s.ahead = none ∧ s.tokens.length < ts.length ∧
      readFrom limit (.group b done :: stack) ts =
        match close b vs with
        | .ok v => resume limit (plug stack v) s.tokens
        | .error e => (.error (.error e), s.tokens)
  | .error e s => s.ahead = none ∧
      readFrom limit (.group b done :: stack) ts = (.error e, s.tokens)

/-- What is unfinished wants a form of the tokens.  An open bracket wants one only if its own end
does not come first, nor that of the tokens. -/
def Wants : List Pending → List Token → Prop
  | .group _ _ :: _, ts => ∃ t us, ts = t :: us ∧ closed? t = none
  | _, _ => True

/-- A way to read forms meets reading on below every stack of a given depth that wants a form. -/
def Reads (limit depth : Nat) (read : Descent Value) : Prop :=
  ∀ (stack : List Pending) (s : Stream), stack.length = depth → Wants stack s.tokens →
    Meets limit stack s.tokens (read s)

/-- There is a way to read the forms inside, or there is no room for them. -/
def ReadsInside (limit depth : Nat) : Option (Descent Value) → Prop
  | some inner => depth < limit ∧ Reads limit (depth + 1) inner
  | none => depth = limit

theorem meets_of_feed_eq_error {f : ReadFault} (h : feed stack t = .error f) :
    Meets limit stack (t :: us) ((throw f : Descent Value) ⟨none, us⟩) :=
  ⟨rfl, by rw [readFrom, h]; rfl⟩

theorem meets_of_feed_eq_ok (hl : stack.length ≤ limit) (h : feed stack t = .ok (plug stack v)) :
    Meets limit stack (t :: us) (pure (f := Descent) v ⟨none, us⟩) :=
  ⟨rfl, Nat.lt_succ_self _,
    readFrom_cons_of_feed h (Nat.le_trans length_pending_plug hl)⟩

theorem meets_accept {x : Except ReadFault Value} (hl : stack.length ≤ limit)
    (h : feed stack t = x.map (plug stack)) :
    Meets limit stack (t :: us) (accept x ⟨none, us⟩) := by
  cases x with
  | ok v => exact meets_of_feed_eq_ok hl h
  | error e => exact meets_of_feed_eq_error h

/-- A token that leaves something waiting is answered for by what is read inside. -/
theorem meets_nest {p : Pending} {read : Descent Value → Descent Value}
    (hbelow : ReadsInside limit stack.length below)
    (h : feed stack t = .ok (.waiting (p :: stack)))
    (hread : ∀ inner, stack.length < limit → Reads limit (stack.length + 1) inner →
      readFrom limit stack (t :: us) = readFrom limit (p :: stack) us →
        Meets limit stack (t :: us) (read inner ⟨none, us⟩)) :
    Meets limit stack (t :: us) (nest below read ⟨none, us⟩) := by
  cases below with
  | none =>
    have hl : stack.length = limit := hbelow
    refine ⟨rfl, ?_⟩
    rw [readFrom, h]
    dsimp only
    rw [if_neg (by rw [List.length_cons]; omega)]
    rfl
  | some inner =>
    obtain ⟨hl, hform⟩ := hbelow
    exact hread inner hl hform (readFrom_cons_of_feed h hl)

theorem meets_marked {m : Mark} (hform : Reads limit (stack.length + 1) inner)
    (hfrom : readFrom limit stack (t :: us) = readFrom limit (.mark m :: stack) us) :
    Meets limit stack (t :: us) (marked m inner ⟨none, us⟩) := by
  have h := hform (.mark m :: stack) ⟨none, us⟩ rfl trivial
  rw [marked]
  cases hresult : inner ⟨none, us⟩ with
  | error e s =>
    rw [hresult] at h
    rw [bind_of_error hresult]
    exact ⟨h.1, hfrom.trans h.2⟩
  | ok v s =>
    rw [hresult] at h
    obtain ⟨hahead, hlength, h⟩ := h
    rw [bind_of_ok hresult]
    exact ⟨hahead, Nat.lt_succ_of_lt hlength, hfrom.trans h⟩

theorem meets_annotated (hform : Reads limit (stack.length + 1) inner)
    (hfrom : readFrom limit stack (t :: us) = readFrom limit (.metadata :: stack) us) :
    Meets limit stack (t :: us) (annotated inner ⟨none, us⟩) := by
  have hdata := hform (.metadata :: stack) ⟨none, us⟩ rfl trivial
  rw [annotated]
  cases hresult : inner ⟨none, us⟩ with
  | error e s =>
    rw [hresult] at hdata
    rw [bind_of_error hresult]
    exact ⟨hdata.1, hfrom.trans hdata.2⟩
  | ok data s =>
    rw [hresult] at hdata
    obtain ⟨-, hlength, hdata⟩ := hdata
    have h := hform (.subject data :: stack) s rfl trivial
    rw [bind_of_ok hresult]
    cases hresult' : inner s with
    | error e s' =>
      rw [hresult'] at h
      rw [bind_of_error hresult']
      exact ⟨h.1, hfrom.trans (hdata.trans h.2)⟩
    | ok v s' =>
      rw [hresult'] at h
      obtain ⟨hahead, hlength', h⟩ := h
      rw [bind_of_ok hresult']
      exact ⟨hahead, Nat.lt_succ_of_lt (Nat.lt_trans hlength' hlength),
        hfrom.trans (hdata.trans h)⟩

theorem feed_of_closed? (h : closed? t = some b) :
    feed stack t = (closeTop b stack).mapError .error := by
  obtain ⟨kind, text⟩ := t
  rw [closed?] at h
  cases kind with
  | special =>
    obtain rfl : text = b.closer := closer_of_ofCloser? h
    exact feed_closer stack b
  | string | keyword | atom | error | other => simp at h

/-- A token that closes a bracket is no form, and closes nothing where one is wanted. -/
theorem closeTop_of_wants (hwants : Wants stack (t :: us)) (h : closed? t = some b) :
    closeTop b stack = .error (.unmatched b) := by
  match stack, hwants with
  | .group opened done :: rest, hwants =>
    obtain ⟨_, _, heq, hopen⟩ := hwants
    obtain rfl := (List.cons.inj heq).1
    simp [h] at hopen
  | [], _ | .mark _ :: _, _ | .metadata :: _, _ | .subject _ :: _, _ => rfl

/-- The token that closes a bracket ends the forms in it, or closes another one. -/
theorem meetsClose_of_closed? {closed : Bracket} {done : List Value} (hl : stack.length < limit)
    (h : closed? t = some closed) :
    MeetsClose limit b done stack (t :: us)
      ((if closed = b then pure done.reverse else complain (.unmatched closed) :
        Descent (List Value)) ⟨none, us⟩) := by
  have hfeed : feed (.group b done :: stack) t = _ := feed_of_closed? h
  rw [closeTop] at hfeed
  split
  · rename_i heq
    rw [if_pos heq, heq] at hfeed
    refine ⟨rfl, Nat.lt_succ_self _, ?_⟩
    cases hclose : close b done.reverse with
    | ok w =>
      rw [hclose] at hfeed
      exact readFrom_cons_of_feed hfeed (Nat.le_trans length_pending_plug (Nat.le_of_lt hl))
    | error e =>
      rw [hclose] at hfeed
      rw [readFrom, hfeed]
      rfl
  · rename_i hne
    rw [if_neg hne] at hfeed
    refine ⟨rfl, ?_⟩
    rw [readFrom, hfeed]
    rfl

/-- Inside a bracket the forms go into it one after the other. -/
theorem meets_items (hl : stack.length < limit) (hform : Reads limit (stack.length + 1) inner)
    (done : List Value) (s : Stream) (hmost : s.tokens.length < most) :
    MeetsClose limit b done stack s.tokens (items b inner most done s) := by
  -- Each form takes a token at least, so there are never more forms to come than tokens.
  induction most generalizing done s with
  | zero => exact absurd hmost (Nat.not_lt_zero _)
  | succ most ih =>
    rw [items, bind_of_ok (look_apply s)]
    cases hs : s.tokens with
    | nil =>
      rw [Stream.peek_of_tokens_eq_nil hs]
      exact ⟨rfl, rfl⟩
    | cons t us =>
      rw [hs, List.length_cons] at hmost
      have hpeek : s.peek.2.tokens = t :: us := by rw [Stream.tokens_peek, hs]
      dsimp only [List.head?_cons]
      cases hclosed : closed? t with
      | some closed =>
        dsimp only
        rw [bind_of_ok (take_apply _), hpeek]
        exact meetsClose_of_closed? hl hclosed
      | none =>
        have h := hform (.group b done :: stack) s.peek.2 rfl ⟨t, us, hpeek, hclosed⟩
        rw [hpeek] at h
        dsimp only
        cases hresult : inner s.peek.2 with
        | error e s' =>
          rw [hresult] at h
          rw [bind_of_error hresult]
          exact h
        | ok v s' =>
          rw [hresult] at h
          obtain ⟨-, hlength, h⟩ := h
          rw [List.length_cons] at hlength
          have hrest := ih (v :: done) s' (by omega)
          rw [bind_of_ok hresult]
          cases hresult' : items b inner most (v :: done) s' with
          | error e s'' =>
            rw [hresult'] at hrest
            exact ⟨hrest.1, h.trans hrest.2⟩
          | ok vs s'' =>
            rw [hresult'] at hrest
            obtain ⟨hahead, hlength', hrest⟩ := hrest
            exact ⟨hahead, by rw [List.length_cons]; omega, h.trans hrest⟩

theorem meets_group (hl : stack.length < limit) (hform : Reads limit (stack.length + 1) inner)
    (hfrom : readFrom limit stack (t :: us) = readFrom limit (.group b [] :: stack) us) :
    Meets limit stack (t :: us) (group b inner ⟨none, us⟩) := by
  have h := meets_items (b := b) hl hform [] ⟨none, us⟩ (Nat.lt_succ_self us.length)
  have hget : (get : Descent Stream) ⟨none, us⟩ = .ok ⟨none, us⟩ ⟨none, us⟩ := rfl
  rw [group, bind_of_ok hget]
  dsimp only [Stream.tokens_none]
  cases hresult : items b inner (us.length + 1) [] ⟨none, us⟩ with
  | error e s =>
    rw [hresult] at h
    rw [bind_of_error hresult]
    exact ⟨h.1, hfrom.trans h.2⟩
  | ok vs s =>
    rw [hresult] at h
    obtain ⟨hahead, hlength, h⟩ := h
    rw [bind_of_ok hresult]
    cases hclose : close b vs with
    | ok v =>
      rw [hclose] at h
      exact ⟨hahead, Nat.lt_succ_of_lt hlength, hfrom.trans h⟩
    | error e =>
      rw [hclose] at h
      exact ⟨hahead, hfrom.trans h⟩

/-- What a special token starts, goes by the same three questions about its text in both readers. -/
theorem meets_special (hbelow : ReadsInside limit stack.length below)
    (hwants : Wants stack (t :: us)) (ht : t.kind = .special) :
    Meets limit stack (t :: us) (special below t ⟨none, us⟩) := by
  have hfeed : feed stack t = (feedSpecial stack t).mapError .error := by rw [feed, ht]
  rw [feedSpecial, Pending.ofMark?] at hfeed
  rw [special]
  by_cases htext : t.text = metadataMark
  · rw [if_pos htext] at hfeed ⊢
    exact meets_nest hbelow hfeed fun inner _ hform hfrom ↦ meets_annotated hform hfrom
  rw [if_neg htext] at hfeed ⊢
  cases hm : Mark.ofToken? t.text with
  | some m =>
    rw [hm] at hfeed
    exact meets_nest hbelow hfeed fun inner _ hform hfrom ↦ meets_marked hform hfrom
  | none =>
    rw [hm] at hfeed
    dsimp only [Option.map_none] at hfeed ⊢
    cases ho : Bracket.ofOpener? t.text with
    | some b =>
      rw [ho] at hfeed
      exact meets_nest hbelow hfeed fun inner hl hform hfrom ↦ meets_group hl hform hfrom
    | none =>
      rw [ho] at hfeed
      cases hc : Bracket.ofCloser? t.text with
      | some b =>
        rw [hc] at hfeed
        have hclosed : closed? t = some b := by
          rw [closed?, ht]
          exact hc
        dsimp only at hfeed
        rw [closeTop_of_wants hwants hclosed] at hfeed
        exact meets_of_feed_eq_error hfeed
      | none =>
        rw [hc] at hfeed
        exact meets_of_feed_eq_error hfeed

theorem meets_start (hbelow : ReadsInside limit stack.length below) (hl : stack.length ≤ limit)
    (hwants : Wants stack (t :: us)) :
    Meets limit stack (t :: us) (start below t ⟨none, us⟩) := by
  obtain ⟨kind, text⟩ := t
  cases kind with
  | special => exact meets_special hbelow hwants rfl
  | string => exact meets_of_feed_eq_ok hl rfl
  | keyword => exact meets_of_feed_eq_ok hl rfl
  | atom => exact meets_accept hl rfl
  | error => exact meets_of_feed_eq_error rfl
  | other name => exact meets_of_feed_eq_error rfl

theorem unfinished_of_wants (hwants : Wants stack []) : unfinished stack = .unexpectedEnd none := by
  match stack, hwants with
  | .group _ _ :: _, ⟨_, _, heq, _⟩ => simp at heq
  | [], _ | .mark _ :: _, _ | .metadata :: _, _ | .subject _ :: _, _ => rfl

theorem reads_formOver (hl : depth ≤ limit) (hbelow : ReadsInside limit depth below) :
    Reads limit depth (formOver below) := by
  rintro stack s rfl hwants
  rw [formOver, bind_of_ok (look_apply s)]
  cases hs : s.tokens with
  | nil =>
    rw [hs] at hwants
    rw [Stream.peek_of_tokens_eq_nil hs]
    exact ⟨rfl, by rw [readFrom, unfinished_of_wants hwants]; rfl⟩
  | cons t us =>
    rw [hs] at hwants
    dsimp only [List.head?_cons]
    rw [bind_of_ok (take_apply _), Stream.tokens_peek, hs]
    exact meets_start hbelow hl hwants

/-- **The descent meets reading on**: what it keeps in its own calls, the stack keeps. -/
theorem reads_form (room : Nat) (h : depth + room = limit) : Reads limit depth (form room) := by
  -- The descent spends room where the stack grows: what is left and the depth make the limit.
  induction room generalizing depth with
  | zero => exact reads_formOver (by omega) h
  | succ room ih => exact reads_formOver (by omega) ⟨by omega, ih (by omega)⟩

/-- What reading with a stack answers, as the answer of a reader that takes from a stream. -/
def ofPair : Except ReadFault Value × List Token → EStateM.Result ReadFault Stream Value
  | (.ok v, left) => .ok v ⟨none, left⟩
  | (.error e, left) => .error e ⟨none, left⟩

/-- **Both readers answer alike**, and leave the same tokens. -/
theorem form_eq_readForm (limit : Nat) (s : Stream) :
    form limit s = ofPair (readForm limit s.tokens) := by
  have h := reads_form limit (Nat.zero_add limit) [] s rfl trivial
  rw [readForm]
  cases hresult : form limit s with
  | ok v s' =>
    rw [hresult] at h
    obtain ⟨hahead, -, h⟩ := h
    obtain ⟨_, left⟩ := s'
    obtain rfl := hahead
    rw [h]
    rfl
  | error e s' =>
    rw [hresult] at h
    obtain ⟨hahead, h⟩ := h
    obtain ⟨_, left⟩ := s'
    obtain rfl := hahead
    rw [h]
    rfl

end Descent

/-! ## Requests to a stream -/

/-- What may be asked of a stream. -/
inductive Request
  /-- Which token comes next? -/
  | look
  /-- The next token. -/
  | take
  /-- The next form, nested no deeper than the given number of levels. -/
  | form (limit : Nat)

/-- What a stream gives. -/
inductive Reply
  | token (t : Option Token)
  | form (v : Value)
  | fault (e : ReadFault)

/-- The reply to a request, and the stream after it. -/
def Request.reply : Request → Stream → Reply × Stream
  | .look, s => (.token s.peek.1, s.peek.2)
  | .take, s => (.token s.take.1, s.take.2)
  | .form limit, s =>
    match Descent.form limit s with
    | .ok v s' => (.form v, s')
    | .error e s' => (.fault e, s')

/-- The replies to requests that are made one after the other. -/
def replies : List Request → Stream → List Reply
  | [], _ => []
  | r :: rs, s => (r.reply s).1 :: replies rs (r.reply s).2

theorem Request.reply_congr (r : Request) {s s' : Stream} (h : s.tokens = s'.tokens) :
    (r.reply s).1 = (r.reply s').1 ∧ (r.reply s).2.tokens = (r.reply s').2.tokens := by
  cases r with
  | look => simp only [reply, Stream.peek_fst, Stream.tokens_peek, h, and_self]
  | take => simp only [reply, Stream.take_eq, h, and_self]
  | form limit => simp only [reply, Descent.form_eq_readForm, h, and_self]

/-- **Streams with the same tokens to come cannot be told apart.** -/
theorem replies_congr (rs : List Request) {s s' : Stream} (h : s.tokens = s'.tokens) :
    replies rs s = replies rs s' := by
  induction rs generalizing s s' with
  | nil => rfl
  | cons r rs ih =>
    obtain ⟨hreply, htokens⟩ := r.reply_congr h
    rw [replies, replies, hreply, ih htokens]

/-! ## Where a form ends -/

theorem ofWord_ne_unexpectedEnd {word : String} {inside : Option Bracket} :
    ofWord word ≠ .error (.error (.unexpectedEnd inside)) := by
  intro h
  obtain ⟨n, -, ⟨-, hf⟩ | ⟨-, -, hf⟩⟩ := ofWord_eq_error_iff.1 h
  · cases hf
  · cases hf

theorem close_ne_unexpectedEnd {vs : List Value} {inside : Option Bracket} :
    close b vs ≠ .error (.unexpectedEnd inside) := by
  intro h
  cases b with
  | round | square => simp [close] at h
  | curly =>
    rw [close, ofEntries] at h
    split at h
    · simp at h
    · obtain h | ⟨_, -, h⟩ := error_of_bind_eq_error h
      · obtain ⟨p, -, hp⟩ := exists_of_mapM_eq_error h
        split at hp <;> simp at hp
      · simp at h

theorem closeTop_ne_unexpectedEnd {inside : Option Bracket} :
    closeTop b stack ≠ .error (.unexpectedEnd inside) := by
  intro h
  rw [closeTop.eq_def] at h
  split at h
  · split at h
    · exact close_ne_unexpectedEnd (map_eq_error_iff.1 h)
    · simp at h
  · simp at h

/-- No token makes the complaint that the tokens end. -/
theorem feed_ne_unexpectedEnd {inside : Option Bracket} :
    feed stack t ≠ .error (.error (.unexpectedEnd inside)) := by
  intro h
  obtain ⟨kind, text⟩ := t
  cases kind with
  | special =>
    obtain ⟨e, h, he⟩ := mapError_eq_error_iff.1 h
    obtain rfl := ReadFault.error.inj he
    rw [feedSpecial] at h
    split at h
    · simp at h
    · split at h
      · simp at h
      · exact closeTop_ne_unexpectedEnd h
      · simp at h
  | string | keyword | error | other => simp [feed] at h
  | atom => exact ofWord_ne_unexpectedEnd (map_eq_error_iff.1 h)

/-- **Only the end of the tokens is complained about as such.** -/
theorem eq_nil_of_unexpectedEnd {inside : Option Bracket}
    (h : readFrom limit stack ts = (.error (.error (.unexpectedEnd inside)), left)) :
    left = [] := by
  induction ts generalizing stack with
  | nil => exact (Prod.mk.inj h).2.symm
  | cons t ts ih =>
    rw [readFrom] at h
    split at h
    · rename_i f hfeed
      obtain rfl := Except.error.inj (Prod.mk.inj h).1
      exact absurd hfeed feed_ne_unexpectedEnd
    · simp at h
    · split at h
      · exact ih h
      · simp at h

/-- Whatever reading ends in, it has taken tokens from the front. -/
theorem exists_taken_of_readFrom {r : Except ReadFault Value}
    (h : readFrom limit stack ts = (r, left)) : ∃ taken, ts = taken ++ left := by
  induction ts generalizing stack with
  | nil =>
    obtain rfl := (Prod.mk.inj h).2
    exact ⟨[], rfl⟩
  | cons t ts ih =>
    rw [readFrom] at h
    split at h
    · obtain rfl := (Prod.mk.inj h).2
      exact ⟨[t], rfl⟩
    · obtain rfl := (Prod.mk.inj h).2
      exact ⟨[t], rfl⟩
    · split at h
      · obtain ⟨taken, rfl⟩ := ih h
        exact ⟨t :: taken, rfl⟩
      · obtain rfl := (Prod.mk.inj h).2
        exact ⟨[t], rfl⟩

/-- A complaint that the tokens end is the only answer that more tokens may change. -/
theorem eq_unexpectedEnd_of_append {r : Except ReadFault Value} (hne : us ≠ [])
    (h : readFrom limit stack (ts ++ us) = (r, [])) :
    ∃ inside, readFrom limit stack ts = (.error (.error (.unexpectedEnd inside)), []) := by
  cases hfrom : readFrom limit stack ts with | mk r' left
  by_cases hend : ∃ inside, r' = .error (.error (.unexpectedEnd inside))
  · obtain ⟨inside, rfl⟩ := hend
    exact ⟨inside, by rw [eq_nil_of_unexpectedEnd hfrom]⟩
  -- Any other answer would stand with more tokens, and these would then be left.
  · have happend : readFrom limit stack (ts ++ us) = (r', left ++ us) :=
      readFrom_append hfrom fun b hb ↦ hend ⟨b, hb⟩
    rw [h] at happend
    exact absurd (List.append_eq_nil_iff.1 (Prod.mk.inj happend).2.symm).2 hne

namespace Descent

theorem form_eq_ok_iff {s s' : Stream} :
    form limit s = .ok v s' ↔ s'.ahead = none ∧ readForm limit s.tokens = (.ok v, s'.tokens) := by
  obtain ⟨ahead, unseen⟩ := s'
  rw [form_eq_readForm]
  rcases readForm limit s.tokens with ⟨e | w, left⟩
  · simp [ofPair]
  · constructor
    · intro h
      cases h
      exact ⟨rfl, rfl⟩
    · rintro ⟨rfl, h⟩
      cases h
      rfl

theorem form_eq_error_iff {s s' : Stream} {e : ReadFault} :
    form limit s = .error e s' ↔
      s'.ahead = none ∧ readForm limit s.tokens = (.error e, s'.tokens) := by
  obtain ⟨ahead, unseen⟩ := s'
  rw [form_eq_readForm]
  rcases readForm limit s.tokens with ⟨f | w, left⟩
  · constructor
    · intro h
      cases h
      exact ⟨rfl, rfl⟩
    · rintro ⟨rfl, h⟩
      cases h
      rfl
  · simp [ofPair]

end Descent

/-- **A form delimits itself, and reading decides as early as it can.**  The descent answers as the
reader with the stack does.

If it reads a form, it reads the same one whatever follows, and leaves what follows.  It has taken
the tokens of the form and no others, and none that it has looked at waits.  If these were all
tokens, any fewer of them from the front get the complaint that they end.

If it complains about anything but the end, it complains alike whatever follows, and about the end
only when it has taken everything.

Looking at the next token changes no later reply. -/
theorem form_delimits (limit : Nat) (s : Stream) :
    Descent.form limit s = Descent.ofPair (readForm limit s.tokens) ∧
      (∀ v s', Descent.form limit s = .ok v s' →
        (∀ rest, Descent.form limit (s.followedBy rest) = .ok v (s'.followedBy rest)) ∧
        (s'.tokens = [] → ∀ ts t us, s.tokens = ts ++ t :: us →
          ∃ inside, Descent.form limit ⟨none, ts⟩ =
            .error (.error (.unexpectedEnd inside)) ⟨none, []⟩) ∧
        s'.ahead = none ∧ ∃ taken, s.tokens = taken ++ s'.tokens ∧ Form taken v) ∧
      (∀ e s', Descent.form limit s = .error e s' →
        ((∀ inside, e ≠ .error (.unexpectedEnd inside)) →
          ∀ rest, Descent.form limit (s.followedBy rest) = .error e (s'.followedBy rest)) ∧
        (∀ inside, e = .error (.unexpectedEnd inside) → s'.tokens = []) ∧
        s'.ahead = none ∧ ∃ taken, s.tokens = taken ++ s'.tokens) ∧
      ∀ rs, replies rs s.peek.2 = replies rs s := by
  refine ⟨Descent.form_eq_readForm limit s, fun v s' h ↦ ?_, fun e s' h ↦ ?_,
    fun rs ↦ replies_congr rs (Stream.tokens_peek s)⟩
  · obtain ⟨hahead, hread⟩ := Descent.form_eq_ok_iff.1 h
    refine ⟨fun rest ↦ ?_, fun hall ts t us hts ↦ ?_, hahead, ?_⟩
    · rw [Descent.form_eq_ok_iff, Stream.tokens_followedBy, Stream.tokens_followedBy]
      exact ⟨hahead, readFrom_append hread (by simp)⟩
    · rw [hall, hts] at hread
      obtain ⟨inside, hprefix⟩ := eq_unexpectedEnd_of_append (List.cons_ne_nil t us) hread
      exact ⟨inside, Descent.form_eq_error_iff.2 ⟨rfl, hprefix⟩⟩
    · exact form_of_readFrom .nil hread
  · obtain ⟨hahead, hread⟩ := Descent.form_eq_error_iff.1 h
    refine ⟨fun hend rest ↦ ?_, fun inside hend ↦ ?_, hahead, exists_taken_of_readFrom hread⟩
    · rw [Descent.form_eq_error_iff, Stream.tokens_followedBy, Stream.tokens_followedBy]
      exact ⟨hahead, readFrom_append hread fun b hb ↦ hend b (Except.error.inj hb)⟩
    · rw [hend] at hread
      exact eq_nil_of_unexpectedEnd hread

/-- A list is read off the front of a stream in which its first token waits, whether one token
follows or two. -/
theorem form_delimits_list :
    Descent.form 1 ⟨some (.ofMark "("), Token.scan "a) b"⟩ =
        .ok (.list none [.sym "a"]) ⟨none, [⟨.atom, "b"⟩]⟩ ∧
      Descent.form 1 ⟨some (.ofMark "("), Token.scan "a) b c"⟩ =
        .ok (.list none [.sym "a"]) ⟨none, [⟨.atom, "b"⟩, ⟨.atom, "c"⟩]⟩ := by
  have h : Descent.form 1 ⟨some (.ofMark "("), Token.scan "a) b"⟩ =
      .ok (.list none [.sym "a"]) ⟨none, [⟨.atom, "b"⟩]⟩ := rfl
  exact ⟨h, ((form_delimits 1 _).2.1 _ _ h).1 [⟨.atom, "c"⟩]⟩

end Lisplet.Reader
