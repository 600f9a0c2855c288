import Lisplet.Proofs.Mapping
import Lisplet.Proofs.Numerals
import Lisplet.Proofs.Parts
import Lisplet.Proofs.Words

/-!
# What a source text can write

A source text writes constants, integers in range, strings, symbols, keywords and collections of
these.  It writes no function, no atom and no metadata: `^m x` is only the list that asks for
metadata.  Names are words, and a word that is a numeral or the name of a constant is not the name
of a symbol.

Whatever the reader makes of whatever text is of this kind, at every depth
(`all_isWritten_of_read`).  The proof follows the reader: what waits on its stack is written
(`Pending.IsWritten`), and a proper token keeps it so.
-/

set_option autoImplicit false

namespace Lisplet

/-! ## Names -/

/-- The name of a symbol: a word that does not start with a colon, is no numeral and is not the name
of a constant. -/
def IsSymbolName (name : String) : Prop :=
  Token.IsRun name.toList ∧ name.toList.head? ≠ some ':' ∧ Integer.numeral? name = none ∧
    name ≠ "nil" ∧ name ≠ "true" ∧ name ≠ "false"

instance (name : String) : Decidable (IsSymbolName name) :=
  inferInstanceAs (Decidable (_ ∧ _ ∧ _ ∧ _ ∧ _ ∧ _))

/-- The name of a keyword, without its colon: any word characters, or none. -/
def IsKeywordName (name : String) : Prop := ∀ c ∈ name.toList, Token.isWordChar c = true

theorem IsSymbolName.isKeywordName {name : String} (h : IsSymbolName name) : IsKeywordName name :=
  h.1.2

theorem isSymbolName_head (m : Mark) : IsSymbolName m.head := by
  cases m <;> decide

namespace Value

/-- What a source text can write, apart from what is inside it. -/
def IsWritten : Value → Prop
  | int n => Integer.InRange n
  | sym name => IsSymbolName name
  | kw name => IsKeywordName name
  | nil | bool _ | str _ | list _ _ | vec _ | map _ _ => True
  | fn _ | builtin _ _ | atom _ | withMeta _ _ => False

/-- The keyword of a run of word characters, with or without a leading colon. -/
theorem isWritten_keyword {name : String} (h : IsKeywordName name) : (keyword name).IsWritten := by
  rw [keyword]
  split
  · rename_i rest heq
    intro c hc
    rw [String.toList_ofList] at hc
    exact h c (heq ▸ List.mem_cons_of_mem _ hc)
  · exact h

end Value

/-! ## The reader -/

namespace Reader

open Value (IsWritten)

/-- The forms that wait on the stack are written. -/
def Pending.IsWritten : Pending → Prop
  | group _ items => ∀ v ∈ items, v.All Value.IsWritten
  | subject data => data.All Value.IsWritten
  | mark _ | metadata => True

/-- A form that is complete is written, and so is what waits for more tokens. -/
def Progress.IsWritten : Progress → Prop
  | finished form => form.All Value.IsWritten
  | waiting stack => ∀ p ∈ stack, p.IsWritten

variable {stack : List Pending} {v : Value}

/-- The list that abbreviates a form is written if the parts of it are. -/
theorem all_isWritten_abbreviation {head : String} (hh : IsSymbolName head) {vs : List Value}
    (h : ∀ v ∈ vs, v.All IsWritten) : (Value.list none (.sym head :: vs)).All IsWritten := by
  refine .list trivial fun w hw ↦ ?_
  rcases List.mem_cons.1 hw with rfl | hw
  · exact .of_parts_eq_nil hh rfl
  · exact h w hw

theorem isWritten_plug (hs : ∀ p ∈ stack, p.IsWritten) (hv : v.All IsWritten) :
    (plug stack v).IsWritten := by
  induction stack generalizing v with
  | nil => exact hv
  | cons p rest ih =>
    have hp := hs p List.mem_cons_self
    have hrest : ∀ q ∈ rest, q.IsWritten := fun q hq ↦ hs q (List.mem_cons_of_mem _ hq)
    cases p with
    | group b items =>
      intro q hq
      rcases List.mem_cons.1 hq with rfl | hq
      · exact List.forall_mem_cons.2 ⟨hv, hp⟩
      · exact hrest q hq
    | mark m =>
      refine ih hrest (all_isWritten_abbreviation (isSymbolName_head m) ?_)
      simpa using hv
    | metadata =>
      intro q hq
      rcases List.mem_cons.1 hq with rfl | hq
      · exact hv
      · exact hrest q hq
    | subject data =>
      refine ih hrest (all_isWritten_abbreviation (by decide) ?_)
      simpa using ⟨hv, hp⟩

theorem isWritten_ofWord {word : String} (hw : Token.IsRun word.toList)
    (hc : word.toList.head? ≠ some ':') (h : ofWord word = .ok v) : v.All IsWritten := by
  rw [ofWord_eq] at h
  split at h
  · split at h
    · simp at h
    split at h
    · rename_i hn
      obtain rfl := Except.ok.inj h
      exact .of_parts_eq_nil hn rfl
    · simp at h
  · rename_i hnum
    obtain rfl := Except.ok.inj h
    split
    · exact .of_parts_eq_nil trivial rfl
    split
    · exact .of_parts_eq_nil trivial rfl
    split
    · exact .of_parts_eq_nil trivial rfl
    · rename_i hnil htrue hfalse
      exact .of_parts_eq_nil ⟨hw, hc, hnum, hnil, htrue, hfalse⟩ rfl

/-- The keys and values of a map come from the forms between its brackets. -/
theorem isWritten_ofEntries {items : List Value} (hi : ∀ w ∈ items, w.All IsWritten)
    (h : ofEntries items = .ok v) : v.All IsWritten := by
  rw [ofEntries] at h
  split at h
  · simp at h
  · rename_i entries hpairs
    obtain ⟨keyed, hkeyed, h⟩ := exists_of_bind_eq_ok h
    obtain rfl := Except.ok.inj h
    refine .map trivial fun e he ↦ ?_
    obtain ⟨p, hp, hpe⟩ := exists_of_mem_mapM hkeyed (Dict.mem_of_mem_entries_ofList he)
    obtain ⟨h1, h2⟩ := mem_of_mem_pairs? hpairs hp
    split at hpe
    · rename_i k hk
      obtain rfl := Except.ok.inj hpe
      exact ⟨(hi _ h1).key hk, hi _ h2⟩
    · simp at hpe

theorem isWritten_close {b : Bracket} {items : List Value} (hi : ∀ w ∈ items, w.All IsWritten)
    (h : close b items = .ok v) : v.All IsWritten := by
  cases b with
  | round =>
    obtain rfl := Except.ok.inj h
    exact .list trivial hi
  | square =>
    obtain rfl := Except.ok.inj h
    exact .vec trivial hi
  | curly => exact isWritten_ofEntries hi h

/-- A form that was made in place of a token goes to the stack. -/
theorem isWritten_map_plug {ε : Type} {x : Except ε Value} {r : Progress}
    (hs : ∀ p ∈ stack, p.IsWritten) (hx : ∀ v, x = .ok v → v.All IsWritten)
    (h : x.map (plug stack) = .ok r) : r.IsWritten := by
  cases x with
  | error e => simp [Except.map] at h
  | ok v =>
    obtain rfl := Except.ok.inj h
    exact isWritten_plug hs (hx v rfl)

theorem isWritten_closeTop {b : Bracket} {r : Progress} (hs : ∀ p ∈ stack, p.IsWritten)
    (h : closeTop b stack = .ok r) : r.IsWritten := by
  rw [closeTop.eq_def] at h
  split at h
  · rename_i opened items rest
    split at h
    · have hi : ∀ w ∈ items.reverse, w.All IsWritten := fun w hw ↦
        hs _ List.mem_cons_self w (List.mem_reverse.1 hw)
      refine isWritten_map_plug (fun q hq ↦ hs q (List.mem_cons_of_mem _ hq)) (fun v hv ↦ ?_) h
      exact isWritten_close hi hv
    · simp at h
  · simp at h

theorem isWritten_feedSpecial {t : Token} {r : Progress} (hs : ∀ p ∈ stack, p.IsWritten)
    (h : feedSpecial stack t = .ok r) : r.IsWritten := by
  have push {p : Pending} (hp : p.IsWritten) : (Progress.waiting (p :: stack)).IsWritten :=
    List.forall_mem_cons.2 ⟨hp, hs⟩
  rw [feedSpecial] at h
  split at h
  · rename_i p hmark
    obtain rfl := Except.ok.inj h
    refine push ?_
    rw [Pending.ofMark?] at hmark
    split at hmark
    · exact Option.some.inj hmark ▸ trivial
    · obtain ⟨m, -, rfl⟩ := Option.map_eq_some_iff.1 hmark
      trivial
  · split at h
    · obtain rfl := Except.ok.inj h
      exact push (p := .group _ []) (by simp [Pending.IsWritten])
    · exact isWritten_closeTop hs h
    · simp at h

theorem isWritten_feed {t : Token} {r : Progress} (hs : ∀ p ∈ stack, p.IsWritten)
    (ht : t.IsProper) (h : feed stack t = .ok r) : r.IsWritten := by
  rw [Token.IsProper] at ht
  rw [feed] at h
  split at h <;> rename_i hk <;> simp only [hk] at ht
  · exact isWritten_feedSpecial hs (mapError_eq_ok_iff.1 h)
  · obtain rfl := Except.ok.inj h
    exact isWritten_plug hs (.of_parts_eq_nil trivial rfl)
  · obtain rfl := Except.ok.inj h
    refine isWritten_plug hs (.of_parts_eq_nil (Value.isWritten_keyword ht.1.2) ?_)
    rw [Value.keyword]
    split <;> rfl
  · exact isWritten_map_plug hs (fun v hv ↦ isWritten_ofWord ht.1 ht.2 hv) h
  · simp at h
  · simp at h

theorem isWritten_readFrom {limit : Nat} {ts : List Token} (hs : ∀ p ∈ stack, p.IsWritten)
    (hts : ∀ t ∈ ts, t.IsProper) (h : (readFrom limit stack ts).1 = .ok v) : v.All IsWritten := by
  induction ts generalizing stack with
  | nil => simp [readFrom] at h
  | cons t ts ih =>
    have ht := hts t List.mem_cons_self
    rw [readFrom] at h
    split at h
    · simp at h
    · rename_i form hfeed
      obtain rfl := Except.ok.inj h
      exact isWritten_feed (r := .finished _) hs ht hfeed
    · rename_i stack' hfeed
      split at h
      · exact ih (isWritten_feed (r := .waiting _) hs ht hfeed)
          (fun t' ht' ↦ hts t' (List.mem_cons_of_mem _ ht')) h
      · simp at h

/-- **Whatever the reader makes of a source text is written**, at every depth. -/
theorem all_isWritten_of_read {limit : Nat} {source : String} (h : read limit source = .ok v) :
    v.All IsWritten := by
  rw [read, readAll] at h
  split at h
  · simp at h
  · split at h
    · rename_i form heq
      obtain rfl := Except.ok.inj h
      have hr : (readFrom limit [] (Token.scan source)).1 = .ok form := by
        rw [← readForm, heq]
      exact isWritten_readFrom (by simp) (fun t ht ↦ Token.isProper_of_mem_scan ht) hr
    · simp at h
    · simp at h

end Reader

end Lisplet
