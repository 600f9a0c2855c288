import Lisplet.Builtin.Kind
import Lisplet.Proofs.Grammar
import Lisplet.Proofs.Spelling
import Mathlib.Tactic.Choose

/-!
# Printing and reading

A value is *readable* if a source text can write it, save that its collections may have metadata
(`Value.Readable`).  Printing leaves metadata out, so what is read of a printed value is the value
without it (`Value.plain`).

Three layers lie between a value and the value that is read of its text: escaping and the bounds of
tokens, which `Token.Spells` deals with, the grouping of tokens, which is a matter of the grammar
(`Form`), and the reader.  `Printed` holds all that is needed at once, so that one induction over
readable values is enough (`Value.Readable.exists_printed`).

The other way round, what a form writes is readable (`Form.readable`); so printing and reading what
has been read changes nothing.
-/

set_option autoImplicit false

namespace Lisplet

namespace Value

/-- A value that can be written in a source text, save that its collections may have metadata. -/
inductive Readable : Value → Prop
  | nil : Readable nil
  | bool (b : Bool) : Readable (bool b)
  | int {n : Int} (h : Integer.InRange n) : Readable (int n)
  | str (text : String) : Readable (str text)
  | sym {name : String} (h : IsSymbolName name) : Readable (sym name)
  | kw {name : String} (h : IsKeywordName name) : Readable (kw name)
  | list (label : Option Label) {items : List Value} (h : ∀ w ∈ items, Readable w) :
      Readable (list label items)
  | vec {items : List Value} (h : ∀ w ∈ items, Readable w) : Readable (vec items)
  | map (label : Option Label) {d : Dict Key Value} (hnodup : d.keys.Nodup)
      (hkeys : ∀ e ∈ d.entries, Readable (ofKey e.1)) (h : ∀ e ∈ d.entries, Readable e.2) :
      Readable (map label d)
  | withMeta {v : Value} (data : Value) (h : Readable v)
      (hv : Builtin.Kind.takesMetadata v = true) : Readable (withMeta v data)

/-- The value without the metadata in it, and without the labels, which nothing computes with. -/
def plain : Value → Value
  | list _ items => list none (items.map plain)
  | vec items => vec (items.map plain)
  | map _ d => map none ⟨d.entries.map fun e ↦ (e.1, plain e.2)⟩
  | withMeta v _ => plain v
  | v => v
termination_by v => sizeOf v
decreasing_by
  · have hlt := List.sizeOf_lt_of_mem ‹_ ∈ items›
    simp only [list.sizeOf_spec]
    omega
  · have hlt := List.sizeOf_lt_of_mem ‹_ ∈ items›
    simp only [vec.sizeOf_spec]
    omega
  · have hlt := sizeOf_lt_of_mem_entries ‹_ ∈ d.entries›
    simp only [map.sizeOf_spec]
    omega
  · simp only [withMeta.sizeOf_spec]
    omega

theorem plain_list (l : Option Label) (items : List Value) :
    (list l items).plain = list none (items.map plain) := by
  rw [plain]

theorem plain_vec (items : List Value) : (vec items).plain = vec (items.map plain) := by
  rw [plain]

theorem plain_map (l : Option Label) (d : Dict Key Value) :
    (map l d).plain = map none ⟨d.entries.map fun e ↦ (e.1, e.2.plain)⟩ := by
  rw [plain]

theorem plain_withMeta (v data : Value) : (withMeta v data).plain = v.plain := by
  rw [plain]

theorem plain_ofKey (k : Key) : (ofKey k).plain = ofKey k := by
  cases k <;> simp [ofKey, plain]

/-! ## Keys and keywords in print -/

theorem key_of_print_ofKey {heap : Heap} {style : PrintStyle} {room : Nat} {k : Key} {t : String}
    (h : (ofKey k).print heap style room = some t) : style.key k = t := by
  cases room with
  | zero => simp [print] at h
  | succ room => cases k <;> exact Option.some.inj h

theorem toList_colon_append (name : String) : (":" ++ name).toList = ':' :: name.toList := by
  rw [String.toList_append]
  rfl

theorem keyword_colon_append (name : String) : keyword (":" ++ name) = kw name := by
  rw [keyword, toList_colon_append]
  exact congrArg kw String.ofList_toList

end Value

open Token (Spells ofMark)
open Value (Readable)

/-! ## The text of a name -/

/-- A word without a colon in front makes an atom. -/
theorem spells_atom {word : String} (hword : Token.IsRun word.toList)
    (hcolon : word.toList.head? ≠ some ':') : Spells word [⟨.atom, word⟩] := by
  have hspells := Spells.word hword
  rwa [Token.ofWord, if_neg hcolon] at hspells

theorem IsSymbolName.spells {name : String} (h : IsSymbolName name) : Spells name [⟨.atom, name⟩] :=
  spells_atom h.1 h.2.1

theorem IsKeywordName.spells {name : String} (h : IsKeywordName name) :
    Spells (":" ++ name) [⟨.keyword, ":" ++ name⟩] := by
  have hrun : Token.IsRun (":" ++ name).toList := by
    rw [Value.toList_colon_append]
    exact ⟨by simp, List.forall_mem_cons.2 ⟨by decide, h⟩⟩
  have hspells := Spells.word hrun
  rwa [Token.ofWord, if_pos (by rw [Value.toList_colon_append]; rfl)] at hspells

/-! ## What is printed -/

/-- The value prints as the text, which makes the tokens of a form of it. -/
structure Printed (v : Value) (text : String) (ts : List Token) : Prop where
  room : ∃ room, ∀ heap, v.print heap .readable room = some text
  spells : Spells text ts
  form : Form ts v.plain

/-- A word that a leaf prints as. -/
theorem Printed.of_word {v : Value} {word : String}
    (hprint : ∀ heap, v.print heap .readable 1 = some word) (hword : Token.IsRun word.toList)
    (hcolon : word.toList.head? ≠ some ':') (h : Denotes word v.plain) :
    Printed v word [⟨.atom, word⟩] where
  room := ⟨1, hprint⟩
  spells := spells_atom hword hcolon
  form := .word h

variable {ws : List Value} {text : Value → String} {ts : Value → List Token}

/-- Some room is enough for all values of a list. -/
theorem exists_room (h : ∀ w ∈ ws, Printed w (text w) (ts w)) :
    ∃ room, ∀ heap, ∀ w ∈ ws, w.print heap .readable room = some (text w) := by
  induction ws with
  | nil => exact ⟨0, by simp⟩
  | cons w ws ih =>
    obtain ⟨hw, hws⟩ := List.forall_mem_cons.1 h
    obtain ⟨m, hm⟩ := hw.room
    obtain ⟨n, hn⟩ := ih hws
    refine ⟨max m n, fun heap ↦ List.forall_mem_cons.2 ⟨?_, fun u hu ↦ ?_⟩⟩
    · exact Value.print_within (Nat.le_max_left m n) w _ (hm heap)
    · exact Value.print_within (Nat.le_max_right m n) u _ (hn heap u hu)

/-- Values between brackets are printed if each of them is. -/
theorem Printed.collection {v : Value} {b : Bracket} (h : ∀ w ∈ ws, Printed w (text w) (ts w))
    (hprint : ∀ heap room, (∀ w ∈ ws, w.print heap .readable room = some (text w)) →
      v.print heap .readable (room + 1) =
        some (Value.bracketed b.opener (ws.map text) b.closer))
    (hv : Collects b (ws.map Value.plain) v.plain) :
    Printed v (Value.bracketed b.opener (ws.map text) b.closer)
      (ofMark b.opener :: (ws.flatMap ts ++ [ofMark b.closer])) where
  room := by
    obtain ⟨room, hroom⟩ := exists_room h
    exact ⟨room + 1, fun heap ↦ hprint heap room (hroom heap)⟩
  spells := .bracketed b fun w hw ↦ (h w hw).spells
  form := by
    refine Forms.enclosed ⟨ws.map fun w ↦ (ts w, w.plain), fun p hp ↦ ?_, ?_, ?_⟩ hv
    · obtain ⟨w, hw, rfl⟩ := List.mem_map.1 hp
      exact (h w hw).form
    · rw [List.flatMap_map]
    · rw [List.map_map]
      rfl

/-- **A readable value is printed as a form of it.** -/
theorem Value.Readable.exists_printed {v : Value} (h : v.Readable) :
    ∃ text ts, Printed v text ts := by
  induction h with
  | nil =>
    exact ⟨_, _, .of_word (fun _ ↦ rfl) (by decide) (by decide) (by simpa [plain] using .nil)⟩
  | bool b =>
    cases b with
    | true =>
      exact ⟨_, _, .of_word (fun _ ↦ rfl) (by decide) (by decide) (by simpa [plain] using .true)⟩
    | false =>
      exact ⟨_, _, .of_word (fun _ ↦ rfl) (by decide) (by decide) (by simpa [plain] using .false)⟩
  | @int n h =>
    have hnum := Integer.numeral?_repr n
    refine ⟨_, _, .of_word (fun _ ↦ rfl) (Token.isRun_repr n)
      (Integer.head?_ne_colon_of_numeral? hnum) ?_⟩
    simpa [plain] using .int hnum h (Integer.length_unsigned_repr_le h)
  | str text =>
    exact ⟨_, _, ⟨1, fun _ ↦ rfl⟩, .quote text, by simpa [plain] using .string text⟩
  | sym h =>
    obtain ⟨hrun, hcolon, hnum, hnil, htrue, hfalse⟩ := h
    refine ⟨_, _, .of_word (fun _ ↦ rfl) hrun hcolon ?_⟩
    simpa [plain] using .name hnum hnil htrue hfalse
  | @kw name h =>
    have hform := Form.keyword (":" ++ name)
    rw [keyword_colon_append] at hform
    exact ⟨_, _, ⟨1, fun _ ↦ rfl⟩, IsKeywordName.spells h, by simpa [plain] using hform⟩
  | @list label items h ih =>
    choose! text ts hprinted using ih
    refine ⟨_, _, .collection (b := .round) hprinted (fun heap room hroom ↦ ?_) ?_⟩
    · rw [print, mapM_eq_some_map hroom]
      rfl
    · rw [plain_list]
      exact .list _
  | @vec items h ih =>
    choose! text ts hprinted using ih
    refine ⟨_, _, .collection (b := .square) hprinted (fun heap room hroom ↦ ?_) ?_⟩
    · rw [print, mapM_eq_some_map hroom]
      rfl
    · rw [plain_vec]
      exact .vec _
  | @map label d hnodup hkeys h ihkeys ih =>
    have ih : ∀ w ∈ d.entries.flatMap fun e ↦ [ofKey e.1, e.2], ∃ text ts, Printed w text ts := by
      intro w hw
      obtain ⟨e, he, hw⟩ := List.mem_flatMap.1 hw
      rcases List.mem_cons.1 hw with rfl | hw
      · exact ihkeys e he
      · exact List.mem_singleton.1 hw ▸ ih e he
    choose! text ts hprinted using ih
    refine ⟨_, _, .collection (b := .curly) hprinted (fun heap room hroom ↦ ?_) ?_⟩
    · have hentry : ∀ e ∈ d.entries, ((e.2.print heap .readable room).map fun t ↦
          [PrintStyle.readable.key e.1, t]) = some [text (ofKey e.1), text e.2] := by
        intro e he
        have hmem (w : Value) (hw : w ∈ [ofKey e.1, e.2]) :=
          hroom w (List.mem_flatMap.2 ⟨e, he, hw⟩)
        rw [hmem e.2 (by simp), ← key_of_print_ofKey (hmem (ofKey e.1) (by simp))]
        rfl
      rw [print, mapM_eq_some_map hentry, List.map_flatMap, List.flatMap_def]
      rfl
    · have hplain : (d.entries.flatMap fun e ↦ [ofKey e.1, e.2]).map plain =
          (d.entries.map fun e ↦ (e.1, e.2.plain)).flatMap fun e ↦ [ofKey e.1, e.2] := by
        rw [List.map_flatMap, List.flatMap_map]
        simp only [List.map_cons, List.map_nil, plain_ofKey]
      rw [hplain, plain_map, ← Dict.ofList_of_nodup (by rwa [List.map_map])]
      exact .map _
  | withMeta data h hv ih =>
    obtain ⟨text, ts, ⟨room, hroom⟩, hspells, hform⟩ := ih
    refine ⟨text, ts, ⟨room + 1, fun heap ↦ ?_⟩, hspells, ?_⟩
    · rw [print]
      exact hroom heap
    · rwa [plain_withMeta]

/-! ## What is read -/

theorem Value.readable_keyword {text : String} (h : IsKeywordName text) :
    (keyword text).Readable ∧ (keyword text).plain = keyword text := by
  have hname : ∃ name, keyword text = kw name := by
    rw [keyword]
    split
    · exact ⟨_, rfl⟩
    · exact ⟨_, rfl⟩
  obtain ⟨name, hname⟩ := hname
  have hwritten := isWritten_keyword h
  rw [hname] at hwritten ⊢
  exact ⟨.kw hwritten, by simp [plain]⟩

theorem Denotes.readable {word : String} {v : Value} (h : Denotes word v)
    (hrun : Token.IsRun word.toList) (hcolon : word.toList.head? ≠ some ':') :
    v.Readable ∧ v.plain = v := by
  cases h with
  | int _ hn _ => exact ⟨.int hn, by simp [Value.plain]⟩
  | nil => exact ⟨.nil, by simp [Value.plain]⟩
  | true => exact ⟨.bool _, by simp [Value.plain]⟩
  | false => exact ⟨.bool _, by simp [Value.plain]⟩
  | name hnum hnil htrue hfalse =>
    exact ⟨.sym ⟨hrun, hcolon, hnum, hnil, htrue, hfalse⟩, by simp [Value.plain]⟩

/-- A collection is readable if what is in it is. -/
theorem Collects.readable {b : Bracket} {vs : List Value} {v : Value} (h : Collects b vs v)
    (hvs : ∀ w ∈ vs, w.Readable ∧ w.plain = w) : v.Readable ∧ v.plain = v := by
  have hreadable : ∀ w ∈ vs, w.Readable := fun w hw ↦ (hvs w hw).1
  have hplain : vs.map Value.plain = vs :=
    (List.map_congr_left fun w hw ↦ (hvs w hw).2).trans (List.map_id' vs)
  cases h with
  | list => exact ⟨.list none hreadable, by rw [Value.plain_list, hplain]⟩
  | vec => exact ⟨.vec hreadable, by rw [Value.plain_vec, hplain]⟩
  | map entries =>
    have hmem {e : Key × Value} (he : e ∈ (Dict.ofList entries).entries) {w : Value}
        (hw : w ∈ [.ofKey e.1, e.2]) : w.Readable ∧ w.plain = w :=
      hvs w (List.mem_flatMap.2 ⟨e, Dict.mem_of_mem_entries_ofList he, hw⟩)
    refine ⟨.map none (Dict.nodup_keys_ofList entries) (fun e he ↦ (hmem he (by simp)).1)
      fun e he ↦ (hmem he (by simp)).1, ?_⟩
    have hentries : (Dict.ofList entries).entries.map (fun e ↦ (e.1, e.2.plain)) =
        (Dict.ofList entries).entries := by
      have hid : ∀ e ∈ (Dict.ofList entries).entries, (e.1, e.2.plain) = e :=
        fun e he ↦ Prod.ext rfl (hmem he (w := e.2) (by simp)).2
      rw [List.map_congr_left hid, List.map_id']
    rw [Value.plain_map, hentries]

/-- **What a form writes is readable**, and has no metadata anywhere. -/
theorem Form.readable {ts : List Token} {v : Value} (h : Form ts v) (hts : ∀ t ∈ ts, t.IsProper) :
    v.Readable ∧ v.plain = v := by
  -- Behind a mark stands the head of a list that has the marked forms as its further elements.
  have abbreviation {head : String} (hh : IsSymbolName head) {vs : List Value}
      (hvs : ∀ w ∈ vs, w.Readable ∧ w.plain = w) :=
    (Collects.list (.sym head :: vs)).readable
      (List.forall_mem_cons.2 ⟨⟨.sym hh, by simp [Value.plain]⟩, hvs⟩)
  induction h with
  | string text => exact ⟨.str text, by simp [Value.plain]⟩
  | keyword text =>
    have ht := hts _ List.mem_cons_self
    exact Value.readable_keyword ht.1.2
  | word h =>
    have ht := hts _ List.mem_cons_self
    exact h.readable ht.1 ht.2
  | mark m h ih =>
    have hv := ih fun t ht ↦ hts t (List.mem_cons_of_mem _ ht)
    exact abbreviation (isSymbolName_head m) (by simpa using hv)
  | metadata hdata hv ihdata ihv =>
    obtain ⟨-, hts⟩ := List.forall_mem_cons.1 hts
    obtain ⟨hts, hus⟩ := List.forall_mem_append.1 hts
    exact abbreviation (by decide) (by simpa using ⟨ihv hus, ihdata hts⟩)
  | group b hparts hv ih =>
    obtain ⟨-, hts⟩ := List.forall_mem_cons.1 hts
    refine hv.readable fun w hw ↦ ?_
    obtain ⟨p, hp, rfl⟩ := List.mem_map.1 hw
    exact ih p hp fun t ht ↦
      hts t (List.mem_append_left _ (List.mem_flatMap.2 ⟨p, hp, ht⟩))

/-! ## The two together -/

/-- What is printed is read in enough room. -/
theorem Printed.exists_enough {v : Value} {text : String} {ts : List Token}
    (h : Printed v text ts) : ∃ enough, ∀ n ≥ enough,
      (∀ heap, v.print heap .readable n = some text) ∧ Reader.read n text = .ok v.plain := by
  obtain ⟨room, hroom⟩ := h.room
  refine ⟨max room ts.length, fun n hn ↦ ⟨fun heap ↦ ?_, ?_⟩⟩
  · exact Value.print_within (Nat.le_trans (Nat.le_max_left _ _) hn) v _ (hroom heap)
  · rw [Reader.read, h.spells.scan_eq]
    exact (Reader.readAll_eq_ok_iff (Nat.le_trans (Nat.le_max_right _ _) hn)).2 h.form

/-- **Printing then reading is the identity.**  A readable value prints as a single line that is
read as the value without its metadata, and whatever is read of whatever text is readable and has no
metadata, so that it is read back as it is. -/
theorem read_print :
    (∀ v : Value, v.Readable → ∃ text enough, '\n' ∉ text.toList ∧ ∀ n ≥ enough,
      (∀ heap, v.print heap .readable n = some text) ∧ Reader.read n text = .ok v.plain) ∧
    ∀ (limit : Nat) (source : String) (v : Value), Reader.read limit source = .ok v →
      v.Readable ∧ v.plain = v ∧ ∃ text enough, ∀ n ≥ enough,
        (∀ heap, v.print heap .readable n = some text) ∧ Reader.read n text = .ok v := by
  refine ⟨fun v hv ↦ ?_, fun limit source v hread ↦ ?_⟩
  · obtain ⟨text, ts, hprinted⟩ := hv.exists_printed
    obtain ⟨enough, henough⟩ := hprinted.exists_enough
    exact ⟨text, enough, hprinted.spells.line, henough⟩
  · have hform : Form (Token.scan source) v := by
      rwa [Reader.read_eq_parse (by simp [hread]), Reader.parse_eq_ok_iff] at hread
    obtain ⟨hv, hplain⟩ := hform.readable fun t ht ↦ Token.isProper_of_mem_scan ht
    obtain ⟨text, ts, hprinted⟩ := hv.exists_printed
    obtain ⟨enough, henough⟩ := hprinted.exists_enough
    rw [hplain] at henough
    exact ⟨hv, hplain, text, enough, henough⟩

/-- A vector with metadata and with a line feed in a string is printed on one line and read back. -/
theorem read_print_vector :
    let v := Value.withMeta (.vec [.kw "a", .str "\n"]) (.int 1)
    let w := Value.vec [.kw "a", .str "\n"]
    let text := "[:a \"\\n\"]"
    v.Readable ∧ v.plain = w ∧ Reader.read 3 text = .ok w ∧ w.Readable ∧
      ∃ enough, ∀ n ≥ enough,
        (∀ heap, v.print heap .readable n = some text) ∧ Reader.read n text = .ok w := by
  intro v w text
  obtain ⟨hprinted, hread⟩ := read_print
  have hv : v.Readable := by
    refine .withMeta _ (.vec fun w hw ↦ ?_) rfl
    rcases List.mem_cons.1 hw with rfl | hw
    · have hletter : Token.isWordChar 'a' = true := by decide
      exact .kw (List.forall_mem_singleton.2 hletter)
    · exact List.mem_singleton.1 hw ▸ .str _
  have hplain : v.plain = w := by simp [v, w, Value.plain]
  have hparsed : Reader.read 3 "[:a \"\\n\"]" = .ok w := by rfl
  refine ⟨hv, hplain, hparsed, (hread 3 text w hparsed).1, ?_⟩
  obtain ⟨line, enough, -, henough⟩ := hprinted v hv
  obtain rfl : line = text := by
    have h : v.print #[] .readable (max enough 3) = some text :=
      Value.print_within (Nat.le_max_right enough 3) v text rfl
    exact Option.some.inj (((henough _ (Nat.le_max_left _ _)).1 #[]).symm.trans h)
  exact ⟨enough, hplain ▸ henough⟩

end Lisplet
