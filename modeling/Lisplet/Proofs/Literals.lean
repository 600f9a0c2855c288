import Lisplet.Proofs.InsertionOrder
import Lisplet.Proofs.Program

/-!
# Map literals and calls of `hash-map`

There are two ways to write a map.  Of a literal the reader makes a map of forms, in which a repeated
key has its first place and its last form, and evaluation goes through the entries that are left.  A
call of `hash-map` evaluates the forms of all pairs, the keys among them, and then makes the map of
the values.

As long as no key is repeated these are the same evaluations in the same order, since a string or a
keyword is its own value (`settles_interleaved_iff`), and the two maps have the same entries.  Where
a key is repeated, the literal drops forms that the call evaluates.  That cannot be seen if
evaluating them does nothing: assigning the values from left to right keeps for each key the value of
the form that the reader has kept.
-/

set_option autoImplicit false

namespace Lisplet

variable {disk : Disk} {f : FrameId} {s s₁ : Store} {l : Option Label}
  {entries : List (Key × Value)}

/-! ## Keys and values in turn -/

/-- The keys and the values of some entries, alternately. -/
def interleaved (entries : List (Key × Value)) : List Value :=
  entries.flatMap fun e ↦ [.ofKey e.1, e.2]

theorem interleaved_cons (e : Key × Value) (entries : List (Key × Value)) :
    interleaved (e :: entries) = .ofKey e.1 :: e.2 :: interleaved entries :=
  rfl

/-- Each key with the value of its form. -/
def evalEntry (x : Value → Eval Value) (e : Key × Value) : Eval (Key × Value) :=
  return (e.1, ← x e.2)

theorem assignments?_interleaved (entries : List (Key × Value)) :
    assignments? (interleaved entries) = some entries := by
  induction entries with
  | nil => rfl
  | cons e entries ih =>
    rw [interleaved_cons, assignments?, Value.key?_ofKey, ih]
    rfl

theorem hashMap_interleaved (entries : List (Key × Value)) :
    Builtin.Table.hashMap (interleaved entries) = .ok (.map none (.ofList entries)) :=
  Builtin.Table.extend_of_assignments (assignments?_interleaved entries)

/-- Evaluation keeps the keys. -/
theorem keys_of_mapM {x : Value → Eval Value} {values : List (Key × Value)}
    (h : entries.mapM (evalEntry x) s = .ok values s₁) :
    values.map Prod.fst = entries.map Prod.fst := by
  induction entries generalizing s values with
  | nil =>
    cases h
    rfl
  | cons e entries ih =>
    rw [List.mapM_cons] at h
    obtain ⟨e', s₂, he, h⟩ := exists_of_bind_ok h
    obtain ⟨es, s₃, hes, h⟩ := exists_of_bind_ok h
    obtain ⟨v, s₄, -, hv⟩ := exists_of_bind_ok he
    cases h
    cases hv
    rw [List.map_cons, List.map_cons, ih hes]

theorem growing_entries (entries : List (Key × Value)) :
    Growing disk fun eng ↦ entries.mapM (evalEntry (eng.eval f)) :=
  .mapM (fun e ↦ .bind (.eval f e.2) fun v ↦ .const (pure (e.1, v))) entries

/-- **Keys are their own values**, so evaluating keys and forms alternately is evaluating the forms in
order. -/
theorem settles_interleaved_iff {α : Type} {g : Engine → List Value → Eval α}
    {q : EStateM.Result Failure Store α} :
    Settles disk (fun eng ↦ (interleaved entries).mapM (eng.eval f) >>= g eng) s q ↔
      Settles disk (fun eng ↦ entries.mapM (evalEntry (eng.eval f)) >>= fun values ↦
        g eng (interleaved values)) s q := by
  induction entries generalizing s g with
  | nil => exact Iff.rfl
  | cons e entries ih =>
    have hkey : Settles disk (fun eng ↦ eng.eval f (.ofKey e.1)) s (.ok (.ofKey e.1) s) :=
      settles_itself fun _ ↦ by cases e.1 <;> rfl
    simp only [interleaved_cons, List.mapM_cons, evalEntry, bind_assoc, pure_bind]
    refine (settles_bind_of_ok hkey).trans ?_
    exact settles_bind_congr (.eval f e.2) (.eval f e.2) (fun _ ↦ Iff.rfl) fun v s₁ _ ↦
      ih (g := fun eng vs ↦ g eng (.ofKey e.1 :: v :: vs))

/-! ## The two ways to a map -/

/-- What evaluating the pairs from left to right and making the map of them comes to. -/
def makeMap (eng : Engine) (f : FrameId) (entries : List (Key × Value)) : Eval Value :=
  entries.mapM (evalEntry (eng.eval f)) >>= fun values ↦
    Eval.labelled (.map none (.ofList values))

/-- **The call** evaluates all pairs. -/
theorem settles_hashMap_iff {r : EStateM.Result Failure Store Value} (h : s.Resolves f .hashMap) :
    Settles disk (fun eng ↦ eng.eval f (.list l (.sym "hash-map" :: interleaved entries))) s r ↔
      Settles disk (fun eng ↦ makeMap eng f entries) s r := by
  refine (settles_call_iff h).trans (settles_interleaved_iff.trans ?_)
  simp only [Builtin.call, hashMap_interleaved]
  exact Iff.rfl

/-- **The literal** evaluates the pairs that the reader has left. -/
theorem settles_literal_iff {r : EStateM.Result Failure Store Value} {d : Dict Key Value}
    (hd : d.keys.Nodup) :
    Settles disk (fun eng ↦ eng.eval f (.map l d)) s r ↔
      Settles disk (fun eng ↦ makeMap eng f d.entries) s r := by
  refine settles_run_iff_value.trans ?_
  refine settles_bind_congr (growing_entries d.entries) (growing_entries d.entries)
    (fun _ ↦ Iff.rfl) fun values s₁ hvalues ↦ ?_
  obtain ⟨-, n, hn⟩ := hvalues
  have hkeys := keys_of_mapM (hn n n (Nat.le_refl n) (Nat.le_refl n))
  rw [Dict.ofList_of_nodup (by rw [hkeys]; exact hd)]

/-! ## Forms that have no effect -/

/-- The form is its own value, and evaluating it does nothing. -/
def IsConstant (disk : Disk) (f : FrameId) (v : Value) : Prop :=
  ∀ s, Evaluates disk (.eval v f) s (.ok v s)

/-- The map of constants is made of them, and no more than that is done. -/
theorem settles_makeMap_of_constant (h : ∀ e ∈ entries, IsConstant disk f e.2) (s : Store) :
    Settles disk (fun eng ↦ makeMap eng f entries) s
      (.ok (.map (some ⟨s.serials, []⟩) (.ofList entries)) (s.withSerials (s.serials + 1))) := by
  have hentries : Settles disk (fun eng ↦ entries.mapM (evalEntry (eng.eval f))) s
      (.ok entries s) := by
    induction entries with
    | nil => exact settles_pure []
    | cons e entries ih =>
      obtain ⟨he, hes⟩ := List.forall_mem_cons.1 h
      have hvalue : Settles disk (fun eng ↦ eng.eval f e.2) s (.ok e.2 s) := he s
      simp only [List.mapM_cons, evalEntry, bind_assoc, pure_bind]
      exact (settles_bind_of_ok hvalue).2 ((settles_bind_of_ok (ih hes)).2 (settles_pure _))
  exact (settles_bind_of_ok hentries).2 (settles_const_iff.2 ⟨trivial, rfl⟩)

/-- The map of data is the map of the same data, up to metadata and labels, and making it takes
nothing but serial numbers. -/
theorem exists_settles_makeMap_of_inert (disk : Disk) (f : FrameId) (s : Store)
    (h : ∀ e ∈ entries, Inert e.2) : ∃ v n,
      Settles disk (fun eng ↦ makeMap eng f entries) s (.ok v (s.withSerials n)) ∧
        v.plain = (Value.map none (.ofList entries)).plain := by
  have hentry : ∀ e ∈ entries, ∀ s : Store, ∃ e' n,
      Settles disk (fun eng ↦ evalEntry (eng.eval f) e) s (.ok e' (s.withSerials n)) ∧
        (e'.1, e'.2.plain) = (e.1, e.2.plain) := by
    intro e he s
    obtain ⟨w, n, hw, hplain⟩ := (h e he).settles s
    exact ⟨(e.1, w), n, (settles_bind_of_ok hw).2 (settles_pure _), by rw [hplain]⟩
  obtain ⟨values, n, hvalues, hplain⟩ := settles_mapM_of_forall hentry s
  refine ⟨.map (some ⟨n, []⟩) (.ofList values), n + 1, ?_, ?_⟩
  · exact (settles_bind_of_ok hvalues).2 (settles_const_iff.2 ⟨trivial, rfl⟩)
  · have hmap (l : Option Label) (es : List (Key × Value)) :
        (Value.map l (.ofList es)).plain =
          .map none (.ofList (es.map fun e ↦ (e.1, e.2.plain))) := by
      rw [Value.plain_map, ← Dict.map_ofList]
      rfl
    rw [hmap, hmap, hplain]

/-- What is true of the forms of all pairs is true of those that the reader has left. -/
theorem forall_mem_entries_ofList {p : Value → Prop} (h : ∀ e ∈ entries, p e.2) :
    ∀ e ∈ (Dict.ofList entries).entries, p e.2 :=
  fun e he ↦ h e (Dict.mem_of_mem_entries_ofList he)

/-! ## In source texts -/

/-- The tokens between two brackets. -/
def Bracket.around (b : Bracket) (ts : List Token) : List Token :=
  Token.ofMark b.opener :: (ts ++ [Token.ofMark b.closer])

variable {ts : List Token} {text : String}

theorem parse_literal (hts : Forms ts (interleaved entries))
    (htext : Token.scan text = Bracket.curly.around ts) :
    Reader.parse text = .ok (.map none (.ofList entries)) := by
  refine Reader.parse_eq_ok_iff.2 ?_
  rw [htext]
  exact hts.enclosed (.map entries)

theorem parse_hashMap (hts : Forms ts (interleaved entries))
    (htext : Token.scan text = Bracket.round.around (⟨.atom, "hash-map"⟩ :: ts)) :
    Reader.parse text = .ok (.list none (.sym "hash-map" :: interleaved entries)) := by
  have hname : Denotes "hash-map" (.sym "hash-map") :=
    .name (by decide) (by decide) (by decide) (by decide)
  refine Reader.parse_eq_ok_iff.2 ?_
  rw [htext]
  exact ((Forms.single (.word hname)).append hts).enclosed (b := .round) (.list _)

namespace Session

/-- **A map literal and the call of `hash-map` with the same keys and forms.**

If no key is repeated then both end alike, in the same map or failure and in the same store: as
forms, whatever stands in them, and so as texts with the same tokens between their brackets.  If keys
are repeated, and the forms are constants, both texts end in the map that assigning them from left to
right leads to, and all that has happened is that the map has got its label.  With other data in the
place of constants it is the same up to metadata and labels. -/
theorem literals_agree_with_calls (disk : Disk) (f : FrameId) (s : Store)
    (h : s.Resolves f .hashMap) (entries : List (Key × Value)) :
    ((entries.map Prod.fst).Nodup → ∀ l l' r,
      Evaluates disk (.eval (.map l (.ofList entries)) f) s r ↔
        Evaluates disk (.eval (.list l' (.sym "hash-map" :: interleaved entries)) f) s r) ∧
    ∀ (ts : List Token) (literal call : String), Forms ts (interleaved entries) →
      Token.scan literal = Bracket.curly.around ts →
      Token.scan call = Bracket.round.around (⟨.atom, "hash-map"⟩ :: ts) →
      ((entries.map Prod.fst).Nodup → ∀ r,
        Settles disk (fun w ↦ evalIn w f literal) s r ↔
          Settles disk (fun w ↦ evalIn w f call) s r) ∧
      ((∀ e ∈ entries, IsConstant disk f e.2) → ∀ source ∈ [literal, call],
        Settles disk (fun w ↦ evalIn w f source) s
          (.ok (.map (some ⟨s.serials, []⟩) (.ofList entries)) (s.withSerials (s.serials + 1)))) ∧
      ((∀ e ∈ entries, Inert e.2) → ∀ source ∈ [literal, call], ∃ v n,
        Settles disk (fun w ↦ evalIn w f source) s (.ok v (s.withSerials n)) ∧
          v.plain = (Value.map none (.ofList entries)).plain) := by
  have hnodup := Dict.nodup_keys_ofList entries
  have hofList : Dict.ofList (Dict.ofList entries).entries = Dict.ofList entries :=
    Dict.ofList_of_nodup hnodup
  have hforms (hkeys : (entries.map Prod.fst).Nodup) (l l' : Option Label)
      (r : EStateM.Result Failure Store Value) :
      Lisplet.Settles disk (fun eng ↦ eng.eval f (.map l (.ofList entries))) s r ↔
        Lisplet.Settles disk
          (fun eng ↦ eng.eval f (.list l' (.sym "hash-map" :: interleaved entries))) s r := by
    rw [settles_literal_iff hnodup, settles_hashMap_iff h, Dict.ofList_of_nodup hkeys]
  refine ⟨hforms, fun ts literal call hts hliteral hcall ↦ ?_⟩
  have hread {r : EStateM.Result Trouble Store Value} :
      Settles disk (fun w ↦ evalIn w f literal) s r ↔ ∃ q, r = performed q ∧
        Lisplet.Settles disk (fun eng ↦ eng.eval f (.map none (.ofList entries))) s q :=
    settles_evalIn_iff (parse_literal hts hliteral)
  have hcalled {r : EStateM.Result Trouble Store Value} :
      Settles disk (fun w ↦ evalIn w f call) s r ↔ ∃ q, r = performed q ∧
        Lisplet.Settles disk
          (fun eng ↦ eng.eval f (.list none (.sym "hash-map" :: interleaved entries))) s q :=
    settles_evalIn_iff (parse_hashMap hts hcall)
  refine ⟨fun hkeys r ↦ ?_, fun hconstant ↦ ?_, fun hinert ↦ ?_⟩
  · rw [hread, hcalled]
    simp only [hforms hkeys none none]
  · have hmake := settles_makeMap_of_constant (forall_mem_entries_ofList hconstant) s
    rw [hofList] at hmake
    refine List.forall_mem_cons.2 ⟨hread.2 ⟨.ok _ _, rfl, (settles_literal_iff hnodup).2 hmake⟩,
      List.forall_mem_singleton.2 (hcalled.2 ⟨.ok _ _, rfl, (settles_hashMap_iff h).2 ?_⟩)⟩
    exact settles_makeMap_of_constant hconstant s
  · obtain ⟨v, n, hv, hplain⟩ :=
      exists_settles_makeMap_of_inert disk f s (forall_mem_entries_ofList hinert)
    obtain ⟨w, m, hw, hplain'⟩ := exists_settles_makeMap_of_inert disk f s hinert
    rw [hofList] at hplain
    refine List.forall_mem_cons.2 ⟨⟨v, n, ?_, hplain⟩,
      List.forall_mem_singleton.2 ⟨w, m, ?_, hplain'⟩⟩
    · exact hread.2 ⟨.ok _ _, rfl, (settles_literal_iff hnodup).2 hv⟩
    · exact hcalled.2 ⟨.ok _ _, rfl, (settles_hashMap_iff h).2 hw⟩

/-- A literal and a call with two keys, which go through the same evaluations, and with a key that
is repeated. -/
theorem literals_agree_with_calls_two :
    let disk : Disk := fun _ ↦ none
    let made (entries : List (Key × Value)) : EStateM.Result Trouble Store Value :=
      .ok (.map (some ⟨bare.serials, []⟩) ⟨entries⟩) (bare.withSerials (bare.serials + 1))
    bare.Resolves topLevel .hashMap ∧
    (([.kw "a", .str "b"] : List Key).Nodup ∧
      Settles disk (fun w ↦ evalIn w topLevel "\x7b:a 1 \"b\" 2\x7d") bare
        (made [(.kw "a", .int 1), (.str "b", .int 2)]) ∧
      Settles disk (fun w ↦ evalIn w topLevel "(hash-map :a 1 \"b\" 2)") bare
        (made [(.kw "a", .int 1), (.str "b", .int 2)])) ∧
    Settles disk (fun w ↦ evalIn w topLevel "\x7b:a 1 \"b\" 2 :a 3\x7d") bare
      (made [(.kw "a", .int 3), (.str "b", .int 2)]) ∧
    Settles disk (fun w ↦ evalIn w topLevel "(hash-map :a 1 \"b\" 2 :a 3)") bare
      (made [(.kw "a", .int 3), (.str "b", .int 2)]) := by
  intro disk made
  have hresolves : bare.Resolves topLevel .hashMap := resolves_bare .hashMap
  have hint (n : Int) : IsConstant disk topLevel (.int n) := fun s ↦ settles_itself fun _ ↦ rfl
  have hone : Form [⟨.atom, "1"⟩] (.int 1) := .word (Reader.ofWord_eq_ok_iff.1 rfl)
  have htwo : Form [⟨.atom, "2"⟩] (.int 2) := .word (Reader.ofWord_eq_ok_iff.1 rfl)
  have hthree : Form [⟨.atom, "3"⟩] (.int 3) := .word (Reader.ofWord_eq_ok_iff.1 rfl)
  have hfirst := (Forms.single (.keyword ":a")).append (.single hone)
  have hboth := (hfirst.append (.single (.string "b"))).append (.single htwo)
  have hagain := (hboth.append (.single (.keyword ":a"))).append (.single hthree)
  obtain ⟨-, htexts⟩ := literals_agree_with_calls disk topLevel bare hresolves
    [(.kw "a", .int 1), (.str "b", .int 2)]
  obtain ⟨-, hlong⟩ := literals_agree_with_calls disk topLevel bare hresolves
    [(.kw "a", .int 1), (.str "b", .int 2), (.kw "a", .int 3)]
  obtain ⟨hagree, hconstant, -⟩ := htexts _ "\x7b:a 1 \"b\" 2\x7d" "(hash-map :a 1 \"b\" 2)"
    hboth rfl rfl
  obtain ⟨-, hrepeated, -⟩ := hlong _ "\x7b:a 1 \"b\" 2 :a 3\x7d"
    "(hash-map :a 1 \"b\" 2 :a 3)" hagain rfl rfl
  have hcall := hconstant (by simp [hint]) _ (List.mem_cons_of_mem _ List.mem_cons_self)
  have hmaps := hrepeated (by simp [hint])
  refine ⟨hresolves, ⟨by decide, (hagree (by decide) _).2 hcall, hcall⟩,
    hmaps _ List.mem_cons_self, hmaps _ (List.mem_cons_of_mem _ List.mem_cons_self)⟩

end Session

end Lisplet
