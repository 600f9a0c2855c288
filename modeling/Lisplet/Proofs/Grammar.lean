import Lisplet.Proofs.Numerals.Reading
import Lisplet.Proofs.Room
import Lisplet.Proofs.Written

/-!
# The grammar of source text

What a list of tokens writes, said without a word about how it is read.  A string and a keyword
write themselves; a word writes a number, a constant or a name (`Denotes`); a mark stands for a list
of two or three elements; a pair of brackets encloses any number of forms and writes a collection of
them (`Collects`).  `Form ts v` says that all of `ts` is one form and that `v` is what it writes.

Nothing in the grammar says where a form ends, and nothing has to: the reader accepts exactly what
the grammar derives (`parse_eq_ok_iff`), and the grammar derives one value at most
(`form_unique`).

* *What is derived is read* (`readFrom_of_form`).  A form may stand anywhere, so the statement is
  about the reader with a stack of what waits around the form and with tokens behind it.
* *What is read is derived.*  The tokens read so far and the stack that they have led to are related
  (`Opened`): a waiting bracket has been opened and holds forms, a waiting mark has been written.
  One token keeps the relation (`writes_feed`), so a run does (`form_of_readFrom`).
* *Whatever else is read ends in an error of syntax.*  The marks and brackets that the scanner makes
  tokens of are all known to the reader, and no more things can wait than there are tokens.

One thing is neither: a numeral with thousands of leading zeros is not converted, and reading gives
up as soon as it comes to one.  Such a numeral writes nothing, and when reading comes to it is again
a question to the grammar (`Stumbles`): when the tokens in front of it begin a form and do not end
it.
-/

set_option autoImplicit false

namespace Lisplet

/-! ## The grammar -/

/-- What a word writes.  A numeral that is out of range or too long to be converted writes
nothing. -/
inductive Denotes : String → Value → Prop
  | int {word : String} {n : Int} (h : Integer.numeral? word = some n) (hn : Integer.InRange n)
      (hlength : (Integer.unsigned word).length ≤ Integer.maxConverted) : Denotes word (.int n)
  | nil : Denotes "nil" .nil
  | true : Denotes "true" (.bool true)
  | false : Denotes "false" (.bool false)
  | name {word : String} (hnum : Integer.numeral? word = none) (hnil : word ≠ "nil")
      (htrue : word ≠ "true") (hfalse : word ≠ "false") : Denotes word (.sym word)

/-- What forms between brackets write.  Between curly ones every other form is a key; the map is
built from left to right, so that a repeated key keeps its place and takes the later value. -/
inductive Collects : Bracket → List Value → Value → Prop
  | list (vs : List Value) : Collects .round vs (.list none vs)
  | vec (vs : List Value) : Collects .square vs (.vec vs)
  | map (entries : List (Key × Value)) :
      Collects .curly (entries.flatMap fun e ↦ [.ofKey e.1, e.2]) (.map none (.ofList entries))

open Token (ofMark)

/-- **The tokens are one form**, which writes the value. -/
inductive Form : List Token → Value → Prop
  | string (text : String) : Form [⟨.string, text⟩] (.str text)
  | keyword (text : String) : Form [⟨.keyword, text⟩] (.keyword text)
  | word {word : String} {v : Value} (h : Denotes word v) : Form [⟨.atom, word⟩] v
  | mark (m : Mark) {ts : List Token} {v : Value} (h : Form ts v) :
      Form (ofMark m.token :: ts) (.list none [.sym m.head, v])
  | metadata {ts us : List Token} {data v : Value} (hdata : Form ts data) (hv : Form us v) :
      Form (ofMark metadataMark :: (ts ++ us)) (.list none [.sym "with-meta", v, data])
  | group (b : Bracket) {parts : List (List Token × Value)} {v : Value}
      (hparts : ∀ p ∈ parts, Form p.1 p.2) (hv : Collects b (parts.map Prod.snd) v) :
      Form (ofMark b.opener :: (parts.flatMap Prod.fst ++ [ofMark b.closer])) v

/-- The token is a numeral of so many digits that it is not converted. -/
def Token.Unconverted (t : Token) (digits : Nat) : Prop :=
  t.kind = .atom ∧ Integer.isNumeral t.text = true ∧ Integer.Unconverted t.text ∧
    digits = (Integer.unsigned t.text).length

/-- Zero in too many digits is such a numeral. -/
theorem Numeral.unconverted_token {more : Nat} (h : Integer.maxConverted ≤ more) :
    Token.Unconverted ⟨.atom, String.ofList (List.replicate (more + 1) '0')⟩ (more + 1) := by
  rw [← text_zeros]
  refine ⟨rfl, isNumeral_iff.2 ⟨_, rfl⟩, unconverted_zeros h, ?_⟩
  rw [length_unsigned_text, zeros, List.length_replicate]

/-- The tokens are some forms, one after the other, which write the values. -/
def Forms (ts : List Token) (vs : List Value) : Prop :=
  ∃ parts : List (List Token × Value), (∀ p ∈ parts, Form p.1 p.2) ∧
    parts.flatMap Prod.fst = ts ∧ parts.map Prod.snd = vs

section

variable {ts us : List Token} {v : Value} {vs : List Value}

theorem Collects.bare_eq {b : Bracket} (h : Collects b vs v) : v.bare = v := by
  cases h <;> rfl

/-- A form has no metadata; what asks for some is a list. -/
theorem Form.bare_eq (h : Form ts v) : v.bare = v := by
  cases h with
  | string | mark | metadata => rfl
  | keyword text =>
    rw [Value.keyword]
    split <;> rfl
  | word h => cases h <;> rfl
  | group b _ hv => exact hv.bare_eq

namespace Forms

theorem nil : Forms [] [] := ⟨[], by simp, rfl, rfl⟩

theorem append {ws : List Value} (h : Forms ts vs) (h' : Forms us ws) :
    Forms (ts ++ us) (vs ++ ws) := by
  obtain ⟨parts, hparts, rfl, rfl⟩ := h
  obtain ⟨parts', hparts', rfl, rfl⟩ := h'
  refine ⟨parts ++ parts', List.forall_mem_append.2 ⟨hparts, hparts'⟩, ?_, ?_⟩
  · rw [List.flatMap_append]
  · rw [List.map_append]

theorem single (h : Form ts v) : Forms ts [v] :=
  ⟨[(ts, v)], by simpa using h, by simp, rfl⟩

theorem enclosed {b : Bracket} (h : Forms ts vs) (hv : Collects b vs v) :
    Form (ofMark b.opener :: (ts ++ [ofMark b.closer])) v := by
  obtain ⟨parts, hparts, rfl, rfl⟩ := h
  exact .group b hparts hv

theorem bare_eq (h : Forms ts vs) (hv : v ∈ vs) : v.bare = v := by
  obtain ⟨parts, hparts, rfl, rfl⟩ := h
  obtain ⟨p, hp, rfl⟩ := List.mem_map.1 hv
  exact (hparts p hp).bare_eq

end Forms

end

namespace Reader

/-! ## Words and brackets -/

variable {word : String} {v : Value} {vs : List Value} {b : Bracket}

/-- **The reader takes a word for what it denotes.** -/
theorem ofWord_eq_ok_iff : ofWord word = .ok v ↔ Denotes word v := by
  constructor
  · intro h
    rw [ofWord_eq] at h
    split at h
    · rename_i n hn
      split at h
      · simp at h
      rename_i hlong
      split at h
      · rename_i hrange
        rw [Integer.unconverted_iff hn hrange, Nat.not_lt] at hlong
        exact Except.ok.inj h ▸ .int hn hrange hlong
      · simp at h
    · rename_i hnum
      obtain rfl := Except.ok.inj h
      split
      · rename_i hnil
        exact hnil ▸ .nil
      split
      · rename_i htrue
        exact htrue ▸ .true
      split
      · rename_i hfalse
        exact hfalse ▸ .false
      · exact .name hnum ‹_› ‹_› ‹_›
  · intro h
    cases h with
    | int h hn hlength =>
      rw [ofWord_eq, h]
      exact (if_neg (Integer.not_unconverted hlength)).trans (if_pos hn)
    | nil | true | false => rfl
    | name hnum hnil htrue hfalse => rw [ofWord_eq, hnum, if_neg hnil, if_neg htrue, if_neg hfalse]

/-- **How the reader fails at a word**: at a numeral, for its range or for its length. -/
theorem ofWord_eq_error_iff {f : ReadFault} :
    ofWord word = .error f ↔ ∃ n, Integer.numeral? word = some n ∧
      (Integer.Unconverted word ∧ f = .unconverted (Integer.unsigned word).length ∨
        ¬Integer.Unconverted word ∧ ¬Integer.InRange n ∧ f = .error (.numeralRange word)) := by
  rw [ofWord_eq]
  cases Integer.numeral? word with
  | none => simp
  | some n =>
    by_cases hlong : Integer.Unconverted word
    · simp [hlong, eq_comm]
    · by_cases hn : Integer.InRange n <;> simp [hlong, hn, eq_comm]

theorem eq_ofKey_of_key? {k : Key} (hv : v.bare = v) (h : v.key? = some k) : v = .ofKey k := by
  rw [Value.key?, hv] at h
  split at h
  · exact Option.some.inj h ▸ rfl
  · exact Option.some.inj h ▸ rfl
  · simp at h

/-- **Closing a bracket makes the collection of the forms in it**, and fails if there is none. -/
theorem close_eq_ok_iff (hbare : ∀ w ∈ vs, w.bare = w) :
    close b vs = .ok v ↔ Collects b vs v := by
  constructor
  · intro h
    cases b with
    | round => exact Except.ok.inj h ▸ .list vs
    | square => exact Except.ok.inj h ▸ .vec vs
    | curly =>
      rw [close, ofEntries] at h
      split at h
      · simp at h
      · rename_i pairs hpairs
        obtain ⟨entries, hentries, h⟩ := exists_of_bind_eq_ok h
        obtain rfl := Except.ok.inj h
        have hkeys : pairs = entries.map fun e ↦ (Value.ofKey e.1, e.2) := by
          refine eq_map_of_mapM (fun p hp e he ↦ ?_) hentries
          have hp : p.1.bare = p.1 := hbare _ (mem_of_mem_pairs? hpairs hp).1
          split at he
          · rename_i k hk
            obtain rfl := Except.ok.inj he
            rw [← eq_ofKey_of_key? hp hk]
          · simp at he
        rw [eq_flatMap_of_pairs? hpairs, hkeys, List.flatMap_map]
        exact .map entries
  · intro h
    cases h with
    | list | vec => rfl
    | map entries =>
      have hpairs := pairs?_flatMap (fun e ↦ (Value.ofKey e.1, e.2)) entries
      rw [close, ofEntries, hpairs]
      dsimp only
      rw [mapM_map_eq_ok]
      · rfl
      · intro e
        simp only [Value.key?_ofKey]

/-! ## Marks and brackets -/

theorem feed_mark (stack : List Pending) (m : Mark) :
    feed stack (ofMark m.token) = .ok (.waiting (.mark m :: stack)) := by
  cases m <;> rfl

theorem feed_metadataMark (stack : List Pending) :
    feed stack (ofMark metadataMark) = .ok (.waiting (.metadata :: stack)) := rfl

theorem feed_opener (stack : List Pending) (b : Bracket) :
    feed stack (ofMark b.opener) = .ok (.waiting (.group b [] :: stack)) := by
  cases b <;> rfl

theorem feed_closer (stack : List Pending) (b : Bracket) :
    feed stack (ofMark b.closer) = (closeTop b stack).mapError .error := by
  cases b <;> rfl

theorem token_of_ofToken? {text : String} {m : Mark} (h : Mark.ofToken? text = some m) :
    text = m.token := by
  rw [Mark.ofToken?] at h
  have htoken := List.find?_some h
  exact (beq_iff_eq.1 htoken).symm

theorem opener_of_ofOpener? {text : String} (h : Bracket.ofOpener? text = some b) :
    text = b.opener := by
  rw [Bracket.ofOpener?] at h
  have htoken := List.find?_some h
  exact (beq_iff_eq.1 htoken).symm

theorem closer_of_ofCloser? {text : String} (h : Bracket.ofCloser? text = some b) :
    text = b.closer := by
  rw [Bracket.ofCloser?] at h
  have htoken := List.find?_some h
  exact (beq_iff_eq.1 htoken).symm

/-- What a special token does, it does as a mark or as half a bracket. -/
theorem feedSpecial_cases {stack : List Pending} {text : String} {p : Progress}
    (h : feedSpecial stack (ofMark text) = .ok p) :
    (∃ m : Mark, text = m.token ∧ p = .waiting (.mark m :: stack)) ∨
      (text = metadataMark ∧ p = .waiting (.metadata :: stack)) ∨
      (∃ b : Bracket, text = b.opener ∧ p = .waiting (.group b [] :: stack)) ∨
      ∃ b : Bracket, text = b.closer ∧ closeTop b stack = .ok p := by
  rw [feedSpecial] at h
  split at h
  · rename_i q hq
    obtain rfl := Except.ok.inj h
    rw [Pending.ofMark?] at hq
    split at hq
    · rename_i htext
      obtain rfl := Option.some.inj hq
      exact .inr (.inl ⟨htext, rfl⟩)
    · obtain ⟨m, hm, rfl⟩ := Option.map_eq_some_iff.1 hq
      exact .inl ⟨m, token_of_ofToken? hm, rfl⟩
  · split at h
    · rename_i b hb
      obtain rfl := Except.ok.inj h
      exact .inr (.inr (.inl ⟨b, opener_of_ofOpener? hb, rfl⟩))
    · rename_i b _ hb
      exact .inr (.inr (.inr ⟨b, closer_of_ofCloser? hb, h⟩))
    · simp at h

/-! ## What can wait

A form that is complete leaves no more waiting than there was, and any token at most one thing
more.  So with room for all tokens reading does not run out of it. -/

/-- What waits for more tokens. -/
def Progress.pending : Progress → List Pending
  | finished _ => []
  | waiting stack => stack

variable {limit : Nat} {stack : List Pending} {t : Token} {ts us left : List Token}

theorem length_pending_plug : (plug stack v).pending.length ≤ stack.length := by
  fun_induction plug stack v with
  | case1 v => exact Nat.le_refl _
  | case2 b items rest v => simp [Progress.pending]
  | case3 m rest v ih => exact Nat.le_succ_of_le ih
  | case4 rest v => simp [Progress.pending]
  | case5 data rest v ih => exact Nat.le_succ_of_le ih

theorem length_pending_map_plug {ε : Type} {x : Except ε Value} {p : Progress}
    (h : x.map (plug stack) = .ok p) : p.pending.length ≤ stack.length := by
  cases x with
  | error e => simp [Except.map] at h
  | ok v =>
    obtain rfl := Except.ok.inj h
    exact length_pending_plug

theorem length_pending_closeTop {p : Progress} (h : closeTop b stack = .ok p) :
    p.pending.length ≤ stack.length := by
  rw [closeTop.eq_def] at h
  split at h
  · split at h
    · exact Nat.le_succ_of_le (length_pending_map_plug h)
    · simp at h
  · simp at h

theorem length_pending_feed {p : Progress} (h : feed stack t = .ok p) :
    p.pending.length ≤ stack.length + 1 := by
  obtain ⟨kind, text⟩ := t
  cases kind with
  | special =>
    obtain ⟨m, -, rfl⟩ | ⟨-, rfl⟩ | ⟨b, -, rfl⟩ | ⟨b, -, h⟩ :=
      feedSpecial_cases (mapError_eq_ok_iff.1 h)
    · exact Nat.le_refl _
    · exact Nat.le_refl _
    · exact Nat.le_refl _
    · exact Nat.le_succ_of_le (length_pending_closeTop h)
  | string =>
    obtain rfl := Except.ok.inj h
    exact Nat.le_succ_of_le length_pending_plug
  | keyword =>
    obtain rfl := Except.ok.inj h
    exact Nat.le_succ_of_le length_pending_plug
  | atom => exact Nat.le_succ_of_le (length_pending_map_plug h)
  | error => simp [feed] at h
  | other name => simp [feed] at h

theorem feed_ne_tooDeep : feed stack t ≠ .error .tooDeep := by
  intro h
  obtain ⟨kind, text⟩ := t
  cases kind with
  | special =>
    obtain ⟨e, -, he⟩ := mapError_eq_error_iff.1 h
    cases he
  | atom =>
    obtain ⟨n, -, ⟨-, hf⟩ | ⟨-, -, hf⟩⟩ := ofWord_eq_error_iff.1 (map_eq_error_iff.1 h)
    · cases hf
    · cases hf
  | string | keyword | error | other => simp [feed] at h

theorem readFrom_ne_tooDeep (hl : stack.length + ts.length ≤ limit) :
    (readFrom limit stack ts).1 ≠ .error .tooDeep := by
  induction ts generalizing stack with
  | nil => simp [readFrom]
  | cons t ts ih =>
    rw [List.length_cons] at hl
    rw [readFrom]
    split
    · rename_i f hfeed
      intro hf
      obtain rfl : f = .tooDeep := Except.error.inj hf
      exact feed_ne_tooDeep hfeed
    · simp
    · rename_i stack' hfeed
      have hlength : stack'.length ≤ stack.length + 1 :=
        length_pending_feed (p := .waiting stack') hfeed
      rw [if_pos (by omega)]
      exact ih (by omega)

/-! ## What is derived is read -/

/-- Reading goes on if more tokens are wanted. -/
def resume (limit : Nat) : Progress → List Token → Except ReadFault Value × List Token
  | .finished v, ts => (.ok v, ts)
  | .waiting stack, ts => readFrom limit stack ts

theorem readFrom_cons_of_feed {p : Progress} (h : feed stack t = .ok p)
    (hl : p.pending.length ≤ limit) : readFrom limit stack (t :: ts) = resume limit p ts := by
  rw [readFrom, h]
  cases p with
  | finished v => rfl
  | waiting stack' => exact if_pos hl

/-- Forms in a bracket come to be in it, one after the other, if each of them is read. -/
theorem readFrom_of_parts {parts : List (List Token × Value)}
    (hparts : ∀ p ∈ parts, ∀ stack rest, stack.length + p.1.length ≤ limit →
      readFrom limit stack (p.1 ++ rest) = resume limit (plug stack p.2) rest)
    (items : List Value) (rest : List Token)
    (hl : stack.length + 1 + (parts.flatMap Prod.fst).length ≤ limit) :
    readFrom limit (.group b items :: stack) (parts.flatMap Prod.fst ++ rest) =
      readFrom limit (.group b ((parts.map Prod.snd).reverse ++ items) :: stack) rest := by
  induction parts generalizing items with
  | nil => rfl
  | cons p parts ih =>
    obtain ⟨hp, hparts⟩ := List.forall_mem_cons.1 hparts
    rw [List.flatMap_cons, List.length_append] at hl
    rw [List.flatMap_cons, List.append_assoc, hp _ _ (by rw [List.length_cons]; omega)]
    calc readFrom limit (.group b (p.2 :: items) :: stack) (parts.flatMap Prod.fst ++ rest)
        = readFrom limit (.group b ((parts.map Prod.snd).reverse ++ p.2 :: items) :: stack) rest :=
          ih hparts _ (by omega)
      _ = _ := by rw [List.map_cons, List.reverse_cons, List.append_assoc, List.singleton_append]

/-- **What is derived is read**, wherever it stands. -/
theorem readFrom_of_form (h : Form ts v) (stack : List Pending) (rest : List Token)
    (hl : stack.length + ts.length ≤ limit) :
    readFrom limit stack (ts ++ rest) = resume limit (plug stack v) rest := by
  have hplug {w : Value} : (plug stack w).pending.length ≤ limit :=
    Nat.le_trans length_pending_plug (by omega)
  induction h generalizing stack rest with
  | string text => exact readFrom_cons_of_feed rfl hplug
  | keyword text => exact readFrom_cons_of_feed rfl hplug
  | word h =>
    refine readFrom_cons_of_feed ?_ hplug
    rw [feed, ofWord_eq_ok_iff.2 h]
    rfl
  | mark m h ih =>
    rw [List.length_cons] at hl
    have hstack : (Pending.mark m :: stack).length = stack.length + 1 := rfl
    rw [List.cons_append,
      readFrom_cons_of_feed (feed_mark stack m) (by rw [Progress.pending]; omega)]
    exact ih _ _ (by omega) (Nat.le_trans length_pending_plug (by omega))
  | metadata hdata hv ihdata ihv =>
    rename_i ts us data v
    rw [List.length_cons, List.length_append] at hl
    have hstack : (Pending.metadata :: stack).length = stack.length + 1 := rfl
    have hstack' : (Pending.subject data :: stack).length = stack.length + 1 := rfl
    rw [List.cons_append, List.append_assoc,
      readFrom_cons_of_feed (feed_metadataMark stack) (by rw [Progress.pending]; omega), resume,
      ihdata _ _ (by omega) (Nat.le_trans length_pending_plug (by omega))]
    exact ihv _ _ (by omega) (Nat.le_trans length_pending_plug (by omega))
  | group b hparts hv ih =>
    rename_i parts v
    simp only [List.length_cons, List.length_append, List.length_nil] at hl
    have hbare : ∀ w ∈ parts.map Prod.snd, w.bare = w := by
      intro w hw
      obtain ⟨p, hp, rfl⟩ := List.mem_map.1 hw
      exact (hparts p hp).bare_eq
    have hstack : (Pending.group b [] :: stack).length = stack.length + 1 := rfl
    have hclose : feed (.group b (parts.map Prod.snd).reverse :: stack) (ofMark b.closer) =
        .ok (plug stack v) := by
      rw [feed_closer, closeTop, if_pos rfl, List.reverse_reverse, (close_eq_ok_iff hbare).2 hv]
      rfl
    rw [List.cons_append, List.append_assoc,
      readFrom_cons_of_feed (feed_opener stack b) (by rw [Progress.pending]; omega), resume,
      readFrom_of_parts
        (fun p hp stack rest hl ↦
          ih p hp stack rest hl (Nat.le_trans length_pending_plug (by omega)))
        _ _ (by omega),
      List.append_nil]
    exact readFrom_cons_of_feed hclose hplug

/-! ## What is read is derived -/

/-- The tokens have left the stack behind. -/
inductive Opened : List Token → List Pending → Prop
  | nil : Opened [] []
  | group {ts us : List Token} {stack : List Pending} {b : Bracket} {items : List Value}
      (h : Opened ts stack) (hitems : Forms us items.reverse) :
      Opened (ts ++ ofMark b.opener :: us) (.group b items :: stack)
  | mark {ts : List Token} {stack : List Pending} (m : Mark) (h : Opened ts stack) :
      Opened (ts ++ [ofMark m.token]) (.mark m :: stack)
  | metadata {ts : List Token} {stack : List Pending} (h : Opened ts stack) :
      Opened (ts ++ [ofMark metadataMark]) (.metadata :: stack)
  | subject {ts us : List Token} {stack : List Pending} {data : Value} (h : Opened ts stack)
      (hdata : Form us data) : Opened (ts ++ ofMark metadataMark :: us) (.subject data :: stack)

/-- The tokens have led to where reading is. -/
def Writes (ts : List Token) : Progress → Prop
  | .finished v => Form ts v
  | .waiting stack => Opened ts stack

theorem writes_plug (hs : Opened ts stack) (hv : Form us v) : Writes (ts ++ us) (plug stack v) := by
  induction hs generalizing us v with
  | nil => exact hv
  | group h hitems ih =>
    rw [List.append_assoc, List.cons_append]
    refine .group h ?_
    rw [List.reverse_cons]
    exact hitems.append (.single hv)
  | mark m h ih =>
    rw [List.append_assoc]
    exact ih (.mark m hv)
  | metadata h ih =>
    rw [List.append_assoc]
    exact .subject h hv
  | subject h hdata ih =>
    rw [List.append_assoc]
    exact ih (.metadata hdata hv)

theorem writes_closeTop {p : Progress} (hs : Opened ts stack) (h : closeTop b stack = .ok p) :
    Writes (ts ++ [ofMark b.closer]) p := by
  cases hs with
  | group hs hitems =>
    rename_i ts us stack opened items
    rw [closeTop] at h
    split at h
    · rename_i heq
      subst heq
      cases hclose : close b items.reverse with
      | error e => simp [hclose, Except.map] at h
      | ok v =>
        rw [hclose] at h
        obtain rfl := Except.ok.inj h
        rw [List.append_assoc, List.cons_append]
        exact writes_plug hs
          (hitems.enclosed ((close_eq_ok_iff fun w hw ↦ hitems.bare_eq hw).1 hclose))
    · simp at h
  | nil | mark | metadata | subject => simp [closeTop] at h

/-- **One more token** leads from what the tokens so far have led to, to where reading is then. -/
theorem writes_feed {p : Progress} (hs : Opened ts stack) (h : feed stack t = .ok p) :
    Writes (ts ++ [t]) p := by
  obtain ⟨kind, text⟩ := t
  cases kind with
  | special =>
    obtain ⟨m, rfl, rfl⟩ | ⟨rfl, rfl⟩ | ⟨b, rfl, rfl⟩ | ⟨b, rfl, hclose⟩ :=
      feedSpecial_cases (mapError_eq_ok_iff.1 h)
    · exact .mark m hs
    · exact .metadata hs
    · exact .group hs .nil
    · exact writes_closeTop hs hclose
  | string =>
    obtain rfl := Except.ok.inj h
    exact writes_plug hs (.string text)
  | keyword =>
    obtain rfl := Except.ok.inj h
    exact writes_plug hs (.keyword text)
  | atom =>
    cases hword : ofWord text with
    | error e => simp [feed, hword, Except.map] at h
    | ok v =>
      simp only [feed, hword] at h
      obtain rfl := Except.ok.inj h
      exact writes_plug hs (.word (ofWord_eq_ok_iff.1 hword))
  | error => simp [feed] at h
  | other name => simp [feed] at h

/-- **What is read is derived**: the tokens that led to the stack, together with those that were
read, are a form. -/
theorem form_of_readFrom (hs : Opened ts stack) (h : readFrom limit stack us = (.ok v, left)) :
    ∃ taken, us = taken ++ left ∧ Form (ts ++ taken) v := by
  induction us generalizing ts stack with
  | nil => simp [readFrom] at h
  | cons t us ih =>
    rw [readFrom] at h
    split at h
    · simp at h
    · rename_i w hfeed
      obtain ⟨hw, rfl⟩ := Prod.mk.inj h
      obtain rfl := Except.ok.inj hw
      exact ⟨[t], rfl, writes_feed (p := .finished _) hs hfeed⟩
    · rename_i stack' hfeed
      split at h
      · obtain ⟨taken, rfl, hform⟩ := ih (writes_feed (p := .waiting _) hs hfeed) h
        rw [List.append_assoc] at hform
        exact ⟨t :: taken, rfl, hform⟩
      · simp at h

/-! ## Numerals that are not converted -/

theorem length_le_of_opened (h : Opened ts stack) : stack.length ≤ ts.length := by
  induction h with
  | nil => exact Nat.le_refl _
  | group | mark | metadata | subject =>
    simp only [List.length_append, List.length_cons, List.length_nil]
    omega

/-- **What the tokens have left behind is what reading them leaves.** -/
theorem readFrom_of_opened (h : Opened ts stack) (rest : List Token) (hl : ts.length ≤ limit) :
    readFrom limit [] (ts ++ rest) = readFrom limit stack rest := by
  induction h generalizing rest with
  | nil => rfl
  | group h hitems ih =>
    rename_i ts us stack b items
    obtain ⟨parts, hparts, rfl, hvs⟩ := hitems
    have hlength := length_le_of_opened h
    rw [List.length_append, List.length_cons] at hl
    rw [List.append_assoc, List.cons_append, ih _ (by omega),
      readFrom_cons_of_feed (feed_opener stack b)
        (by rw [Progress.pending, List.length_cons]; omega), resume,
      readFrom_of_parts (fun p hp stack rest hl ↦ readFrom_of_form (hparts p hp) stack rest hl)
        _ _ (by omega), hvs, List.reverse_reverse, List.append_nil]
  | mark m h ih =>
    rename_i ts stack
    have hlength := length_le_of_opened h
    rw [List.length_append, List.length_singleton] at hl
    rw [List.append_assoc, ih _ (by omega)]
    exact readFrom_cons_of_feed (feed_mark stack m)
      (by rw [Progress.pending, List.length_cons]; omega)
  | metadata h ih =>
    rename_i ts stack
    have hlength := length_le_of_opened h
    rw [List.length_append, List.length_singleton] at hl
    rw [List.append_assoc, ih _ (by omega)]
    exact readFrom_cons_of_feed (feed_metadataMark stack)
      (by rw [Progress.pending, List.length_cons]; omega)
  | subject h hdata ih =>
    rename_i ts us stack data
    have hlength := length_le_of_opened h
    rw [List.length_append, List.length_cons] at hl
    rw [List.append_assoc, List.cons_append, ih _ (by omega),
      readFrom_cons_of_feed (feed_metadataMark stack)
        (by rw [Progress.pending, List.length_cons]; omega)]
    exact readFrom_of_form hdata _ rest (by rw [List.length_cons]; omega)

/-- The reader gives up at a token exactly if it is such a numeral. -/
theorem feed_eq_unconverted_iff {digits : Nat} :
    feed stack t = .error (.unconverted digits) ↔ t.Unconverted digits := by
  obtain ⟨kind, text⟩ := t
  rw [Token.Unconverted]
  cases kind with
  | special =>
    refine iff_of_false (fun h ↦ ?_) (by simp)
    obtain ⟨e, -, he⟩ := mapError_eq_error_iff.1 h
    cases he
  | atom =>
    rw [feed, map_eq_error_iff, ofWord_eq_error_iff]
    constructor
    · rintro ⟨n, hn, ⟨hlong, hf⟩ | ⟨-, -, hf⟩⟩
      · exact ⟨rfl, by rw [← Integer.isSome_numeral?, hn, Option.isSome_some], hlong,
          ReadFault.unconverted.inj hf⟩
      · cases hf
    · rintro ⟨-, hnum, hlong, rfl⟩
      rw [← Integer.isSome_numeral?] at hnum
      obtain ⟨n, hn⟩ := Option.isSome_iff_exists.1 hnum
      exact ⟨n, hn, .inl ⟨hlong, rfl⟩⟩
  | string | keyword | error | other => simp [feed]

theorem exists_of_readFrom_eq_unconverted {digits : Nat} (hs : Opened ts stack)
    (h : (readFrom limit stack us).1 = .error (.unconverted digits)) :
    ∃ before t after stack', us = before ++ t :: after ∧ Opened (ts ++ before) stack' ∧
      t.Unconverted digits := by
  induction us generalizing ts stack with
  | nil => simp [readFrom] at h
  | cons t us ih =>
    rw [readFrom] at h
    split at h
    · rename_i f hfeed
      obtain rfl := Except.error.inj h
      exact ⟨[], t, us, stack, rfl, by rwa [List.append_nil], feed_eq_unconverted_iff.1 hfeed⟩
    · simp at h
    · rename_i stack' hfeed
      split at h
      · obtain ⟨before, t', after, stack'', rfl, hopened, ht'⟩ :=
          ih (writes_feed (p := .waiting _) hs hfeed) h
        rw [List.append_assoc] at hopened
        exact ⟨t :: before, t', after, stack'', rfl, hopened, ht'⟩
      · simp at h

/-- Reading comes to a numeral that is not converted: the tokens in front of it begin a form and do
not end it. -/
def Stumbles (ts : List Token) (digits : Nat) : Prop :=
  ∃ before t after stack, ts = before ++ t :: after ∧ Opened before stack ∧ t.Unconverted digits

/-- **Reading gives up exactly if it comes to such a numeral.** -/
theorem readForm_eq_unconverted_iff {digits : Nat} (hl : ts.length ≤ limit) :
    (readForm limit ts).1 = .error (.unconverted digits) ↔ Stumbles ts digits := by
  rw [readForm]
  constructor
  · intro h
    obtain ⟨before, t, after, stack, hts, hopened, ht⟩ :=
      exists_of_readFrom_eq_unconverted .nil h
    exact ⟨before, t, after, stack, hts, hopened, ht⟩
  · rintro ⟨before, t, after, stack, rfl, hopened, ht⟩
    rw [List.length_append, List.length_cons] at hl
    rw [readFrom_of_opened hopened _ (by omega), readFrom, feed_eq_unconverted_iff.2 ht]

end Reader

/-! ## Errors of syntax -/

/-- What a text is told that holds tokens and is not one form.  The reader has two further
complaints, about marks and tokens that no rule is for. -/
def ReadError.IsSyntactic : ReadError → Prop
  | unexpectedEnd _ | trailing _ | unmatched _ | lexical _ | numeralRange _ | oddMap | badKey _ =>
    True
  | emptyInput | unknownToken _ | unknownMark _ => False

/-- Every mark that the scanner makes a token of is one that the reader has a rule for. -/
theorem Token.mark_cases {c : Char} (h : Token.isMark c = true) :
    (∃ m : Mark, String.singleton c = m.token) ∨ String.singleton c = metadataMark ∨
      (∃ b : Bracket, String.singleton c = b.opener) ∨
        ∃ b : Bracket, String.singleton c = b.closer := by
  simp only [Token.isMark, List.contains_iff_mem, List.mem_cons, List.not_mem_nil, or_false] at h
  rcases h with rfl | rfl | rfl | rfl | rfl | rfl | rfl | rfl | rfl | rfl
  · exact .inr (.inr (.inl ⟨.square, rfl⟩))
  · exact .inr (.inr (.inr ⟨.square, rfl⟩))
  · exact .inr (.inr (.inl ⟨.curly, rfl⟩))
  · exact .inr (.inr (.inr ⟨.curly, rfl⟩))
  · exact .inr (.inr (.inl ⟨.round, rfl⟩))
  · exact .inr (.inr (.inr ⟨.round, rfl⟩))
  · exact .inl ⟨.quote, rfl⟩
  · exact .inl ⟨.quasiquote, rfl⟩
  · exact .inr (.inl rfl)
  · exact .inl ⟨.deref, rfl⟩

namespace Reader

variable {word : String} {vs : List Value} {b : Bracket} {limit : Nat} {stack : List Pending}
  {t : Token} {ts : List Token} {e : ReadError}

theorem isSyntactic_unfinished (stack : List Pending) : (unfinished stack).IsSyntactic := by
  rw [unfinished.eq_def]
  split <;> trivial

theorem isSyntactic_trailing (t : Token) : (trailing t).IsSyntactic := by
  rw [trailing]
  split <;> trivial

theorem isSyntactic_ofWord (h : ofWord word = .error (.error e)) : e.IsSyntactic := by
  obtain ⟨n, -, ⟨-, hf⟩ | ⟨-, -, hf⟩⟩ := ofWord_eq_error_iff.1 h
  · cases hf
  · exact ReadFault.error.inj hf ▸ trivial

theorem isSyntactic_close (h : close b vs = .error e) : e.IsSyntactic := by
  cases b with
  | round | square => simp [close] at h
  | curly =>
    rw [close, ofEntries] at h
    split at h
    · exact Except.error.inj h ▸ trivial
    · obtain h | ⟨_, -, h⟩ := error_of_bind_eq_error h
      · obtain ⟨p, -, hp⟩ := exists_of_mapM_eq_error h
        split at hp
        · simp at hp
        · exact Except.error.inj hp ▸ trivial
      · simp at h

theorem isSyntactic_closeTop (h : closeTop b stack = .error e) : e.IsSyntactic := by
  rw [closeTop.eq_def] at h
  split at h
  · split at h
    · exact isSyntactic_close (map_eq_error_iff.1 h)
    · exact Except.error.inj h ▸ trivial
  · exact Except.error.inj h ▸ trivial

theorem isSyntactic_feed (ht : t.Made) (h : feed stack t = .error (.error e)) :
    e.IsSyntactic := by
  cases ht with
  | mark hc =>
    obtain ⟨m, hm⟩ | hm | ⟨b, hb⟩ | ⟨b, hb⟩ := Token.mark_cases hc
    · simp [hm, feed_mark] at h
    · simp [hm, feed_metadataMark] at h
    · simp [hb, feed_opener] at h
    · rw [hb, feed_closer] at h
      obtain ⟨e', hclose, he⟩ := mapError_eq_error_iff.1 h
      exact ReadFault.error.inj he ▸ isSyntactic_closeTop hclose
  | tilde => exact absurd ((feed_mark stack .unquote).symm.trans h) (by simp)
  | tildeAt => exact absurd ((feed_mark stack .spliceUnquote).symm.trans h) (by simp)
  | literal l =>
    rw [Token.ofLiteral] at h
    split at h
    · simp [feed] at h
    · exact ReadFault.error.inj (Except.error.inj h) ▸ trivial
  | unclosed => exact ReadFault.error.inj (Except.error.inj h) ▸ trivial
  | word =>
    rw [Token.ofWord] at h
    split at h
    · simp [feed] at h
    · exact isSyntactic_ofWord (map_eq_error_iff.1 h)

theorem isSyntactic_of_readFrom (hts : ∀ t ∈ ts, t.Made)
    (h : (readFrom limit stack ts).1 = .error (.error e)) : e.IsSyntactic := by
  induction ts generalizing stack with
  | nil =>
    obtain rfl := ReadFault.error.inj (Except.error.inj h)
    exact isSyntactic_unfinished stack
  | cons t ts ih =>
    obtain ⟨ht, hts⟩ := List.forall_mem_cons.1 hts
    rw [readFrom] at h
    split at h
    · rename_i f hfeed
      obtain rfl := Except.error.inj h
      exact isSyntactic_feed ht hfeed
    · simp at h
    · split at h
      · exact ih hts h
      · simp at h

/-! ## The reader and the grammar -/

variable {source : String} {v : Value}

/-- **The tokens of a form are read as what it writes**, if there is room for all of them. -/
theorem readAll_eq_ok_iff (hl : ts.length ≤ limit) : readAll limit ts = .ok v ↔ Form ts v := by
  rw [readAll]
  constructor
  · intro h
    split at h
    · simp at h
    split at h
    · rename_i w hread
      obtain rfl := Except.ok.inj h
      obtain ⟨taken, htaken, hform⟩ := form_of_readFrom .nil hread
      rw [List.append_nil] at htaken
      exact htaken ▸ hform
    · simp at h
    · simp at h
  · intro h
    have hread : readForm limit ts = (.ok v, []) := by
      have hlength : ([] : List Pending).length + ts.length ≤ limit := by simpa using hl
      have := readFrom_of_form h [] [] hlength
      rwa [List.append_nil] at this
    have hne : ts ≠ [] := by
      rintro rfl
      simp [readForm, readFrom] at hread
    rw [if_neg (by simpa using hne), hread]

/-- **A list of tokens writes one value at most.** -/
theorem form_unique {w : Value} (hv : Form ts v) (hw : Form ts w) : v = w := by
  have hv := (readAll_eq_ok_iff (Nat.le_refl _)).2 hv
  have hw := (readAll_eq_ok_iff (Nat.le_refl _)).2 hw
  exact Except.ok.inj (hv.symm.trans hw)

/-- No tokens are one complaint; tokens that are no form are another one, unless reading comes to a
numeral that is not converted. -/
theorem readAll_eq_error {f : ReadFault} (hl : ts.length ≤ limit) (hts : ∀ t ∈ ts, t.Made)
    (h : readAll limit ts = .error f) :
    (∃ e, f = .error e ∧ (ts = [] ∧ e = .emptyInput ∨ ts ≠ [] ∧ e.IsSyntactic)) ∨
      ∃ digits, f = .unconverted digits := by
  rw [readAll] at h
  split at h
  · rename_i hnil
    exact .inl ⟨_, (Except.error.inj h).symm, .inl ⟨by simpa using hnil, rfl⟩⟩
  rename_i hnil
  have hnil : ts ≠ [] := by simpa using hnil
  split at h
  · simp at h
  · exact .inl ⟨_, (Except.error.inj h).symm, .inr ⟨hnil, isSyntactic_trailing _⟩⟩
  · rename_i f' left hread
    obtain rfl := Except.error.inj h
    have hread : (readFrom limit [] ts).1 = .error f' := by rw [← readForm, hread]
    cases f' with
    | tooDeep => exact absurd hread (readFrom_ne_tooDeep (by simpa using hl))
    | error e => exact .inl ⟨e, rfl, .inr ⟨hnil, isSyntactic_of_readFrom hts hread⟩⟩
    | unconverted digits => exact .inr ⟨digits, rfl⟩

theorem readAll_eq_unconverted_iff {digits : Nat} (hl : ts.length ≤ limit) :
    readAll limit ts = .error (.unconverted digits) ↔ Stumbles ts digits := by
  rw [← readForm_eq_unconverted_iff hl, readAll]
  split
  · rename_i hnil
    obtain rfl : ts = [] := by simpa using hnil
    simp [readForm, readFrom]
  · split
    · rename_i hread
      simp [hread]
    · rename_i hread
      simp [hread]
    · rename_i hread
      simp [hread]

/-- What a source text is read as with room for all of its tokens. -/
def parse (source : String) : Except ReadFault Value := read (Token.scan source).length source

theorem read_ne_tooDeep (hl : (Token.scan source).length ≤ limit) :
    read limit source ≠ .error .tooDeep := fun hdeep ↦ by
  obtain ⟨e, he, -⟩ | ⟨digits, he⟩ :=
    readAll_eq_error hl (fun t ht ↦ Token.made_of_mem_scan ht) hdeep
  · simp at he
  · simp at he

/-- **The room for reading is enough or it is not**: any answer but the one that it is not is the
same with room for all tokens. -/
theorem read_eq_parse (h : read limit source ≠ .error .tooDeep) :
    read limit source = parse source := by
  calc read limit source
      = read (max limit (Token.scan source).length) source :=
        (read_sameUnless (Nat.le_max_left _ _) source h).symm
    _ = parse source :=
        read_sameUnless (Nat.le_max_right _ _) source (read_ne_tooDeep (Nat.le_refl _))

theorem parse_eq_ok_iff : parse source = .ok v ↔ Form (Token.scan source) v :=
  readAll_eq_ok_iff (Nat.le_refl _)

theorem parse_eq_error {f : ReadFault} (h : parse source = .error f) :
    (∃ e, f = .error e ∧
      (Token.scan source = [] ∧ e = .emptyInput ∨ Token.scan source ≠ [] ∧ e.IsSyntactic)) ∨
      ∃ digits, f = .unconverted digits :=
  readAll_eq_error (Nat.le_refl _) (fun _ ht ↦ Token.made_of_mem_scan ht) h

theorem parse_eq_unconverted_iff {digits : Nat} :
    parse source = .error (.unconverted digits) ↔ Stumbles (Token.scan source) digits :=
  readAll_eq_unconverted_iff (Nat.le_refl _)

theorem parse_eq_emptyInput_iff :
    parse source = .error (.error .emptyInput) ↔ Token.scan source = [] := by
  constructor
  · intro h
    obtain ⟨e, he, ⟨hnil, -⟩ | ⟨-, hsyntactic⟩⟩ | ⟨digits, he⟩ := parse_eq_error h
    · exact hnil
    · exact (ReadFault.error.inj he ▸ hsyntactic : ReadError.IsSyntactic .emptyInput).elim
    · cases he
  · intro h
    rw [parse, read, h]
    rfl

/-- **The reader accepts exactly the grammar.**  If the room for reading is enough, and it is if
there is room for every token, then a source text is read as a value exactly if its tokens are a
form that writes the value.  Any other text is told that it is empty, which it is told exactly if it
holds no tokens, or gets an error of syntax, unless reading comes to a numeral in it that is not
converted.  And a list of tokens writes one value at most. -/
theorem read_iff_form (source : String) :
    (∀ limit, (Token.scan source).length ≤ limit → read limit source ≠ .error .tooDeep) ∧
      (∀ limit, read limit source ≠ .error .tooDeep →
        (∀ v, read limit source = .ok v ↔ Form (Token.scan source) v) ∧
          (read limit source = .error (.error .emptyInput) ↔ Token.scan source = []) ∧
          (∀ digits, read limit source = .error (.unconverted digits) ↔
            Stumbles (Token.scan source) digits) ∧
          ∀ f, read limit source = .error f →
            (∃ e, f = .error e ∧ (e = .emptyInput ∨ e.IsSyntactic)) ∨
              ∃ digits, f = .unconverted digits) ∧
      ∀ (ts : List Token) (v w : Value), Form ts v → Form ts w → v = w := by
  refine ⟨fun limit hl ↦ read_ne_tooDeep hl, fun limit hdeep ↦ ?_, fun ts v w ↦ form_unique⟩
  rw [read_eq_parse hdeep]
  refine ⟨fun v ↦ parse_eq_ok_iff, parse_eq_emptyInput_iff,
    fun digits ↦ parse_eq_unconverted_iff, fun f h ↦ ?_⟩
  obtain ⟨e, rfl, ⟨-, he⟩ | ⟨-, he⟩⟩ | hlong := parse_eq_error h
  · exact .inl ⟨e, rfl, .inl he⟩
  · exact .inl ⟨e, rfl, .inr he⟩
  · exact .inr hlong

/-- Zero in 4301 digits is one token and denotes an integer in range, and is read neither as a value
nor with a complaint. -/
theorem zeros_unread :
    let source := String.ofList (List.replicate 4301 '0')
    Token.scan source = [⟨.atom, source⟩] ∧ Integer.numeral? source = some 0 ∧
      Integer.InRange 0 ∧ parse source = .error (.unconverted 4301) := by
  intro source
  have htext : (Numeral.zeros 4300).text = source := Numeral.text_zeros 4300
  have hvalue : Integer.numeral? source = some 0 := by
    rw [← htext, Numeral.numeral?_text, Numeral.value_zeros]
  exact ⟨Numeral.scan_zeros 4300, hvalue, by decide, Numeral.read_zeros (Nat.le_refl _) _⟩

example : parse "[:a 'x]" = .ok (.vec [.kw "a", .list none [.sym "quote", .sym "x"]]) := by rfl

end Reader

end Lisplet
