import Lisplet.Builtin.Call
import Lisplet.Proofs.Interchange.Builtin
import Lisplet.Proofs.RoundTrip

/-!
# Built-in functions and equal arguments

Most built-in functions cannot tell equal arguments apart (`Builtin.lenient`): they take a list for
a vector, do not mind in which order a map has its entries, and look under metadata.  For arguments
that are equal they have results that are equal, or fail for the same kind of reason.  A few
functions are to tell lists from vectors or to show the order of entries (`Builtin.exact`), and
these still look under metadata (`equal_arguments_interchangeable`).
-/

set_option autoImplicit false

namespace Lisplet

open Value (Alike IsMade)

/-! ## Functions by what they tell apart -/

namespace Builtin

/-- The functions that do not tell equal arguments apart. -/
def lenient : List Builtin :=
  [equal, list, vector, vec, isSequential, isEmpty, count, cons, concat, first, rest, nth, seq,
   hashMap, isMap, get, contains, assoc, dissoc,
   isNil, isTrue, isFalse, isSymbol, isKeyword, isString, isNumber, isFn, isMacro]

/-- The functions that tell lists from vectors or show the order of entries. -/
def exact : List Builtin := [isList, isVector, conj, prStr, str]

end Builtin

/-! ## Values that differ in metadata -/

namespace Value

variable {heap : Heap} {style : PrintStyle} {v w : Value}

theorem canonical_plain (v : Value) : v.plain.canonical = v.canonical := by
  cases v with
  | list l items =>
    rw [plain_list, canonical, canonical, List.map_map]
    exact congrArg Canonical.seq (List.map_congr_left fun w _ ↦ canonical_plain w)
  | vec items =>
    rw [plain_vec, canonical, canonical, List.map_map]
    exact congrArg Canonical.seq (List.map_congr_left fun w _ ↦ canonical_plain w)
  | map l d =>
    have hentries : d.entries.map (fun e ↦ (e.1, e.2.plain.canonical)) =
        d.entries.map fun e ↦ (e.1, e.2.canonical) :=
      List.map_congr_left fun e _ ↦ by rw [canonical_plain e.2]
    rw [plain_map, canonical, canonical, List.map_map, ← hentries]
    rfl
  | withMeta u data => rw [plain_withMeta, canonical, canonical_plain u]
  | _ => simp only [plain]
termination_by sizeOf v
decreasing_by
  · have hlt := List.sizeOf_lt_of_mem ‹w ∈ items›
    simp only [list.sizeOf_spec]
    omega
  · have hlt := List.sizeOf_lt_of_mem ‹w ∈ items›
    simp only [vec.sizeOf_spec]
    omega
  · have hlt := sizeOf_lt_of_mem_entries ‹e ∈ d.entries›
    simp only [map.sizeOf_spec]
    omega
  · simp only [withMeta.sizeOf_spec]
    omega

/-- A value without its metadata prints as the value does, in no more room. -/
theorem print_plain_within (room : Nat) (v : Value) :
    Within (v.print heap style room) (v.plain.print heap style room) := by
  induction room generalizing v with
  | zero => exact .none _
  | succ room ih =>
    cases v with
    | list l items =>
      rw [plain_list, print, print, List.mapM_map]
      exact .map (.mapM fun w _ ↦ ih w) _
    | vec items =>
      rw [plain_vec, print, print, List.mapM_map]
      exact .map (.mapM fun w _ ↦ ih w) _
    | map l d =>
      rw [plain_map, print, print, List.mapM_map]
      exact .map (.mapM fun e _ ↦ .map (ih e.2) _) _
    | withMeta u data =>
      rw [plain_withMeta, print]
      exact fun text htext ↦ print_within (Nat.le_succ room) _ text (ih u text htext)
    | _ => simp only [plain, Within.refl]

/-- A value prints as it does without its metadata, in some more room. -/
theorem print_within_plain (room : Nat) (v : Value) :
    Within (v.plain.print heap style room) (v.print heap style (room + sizeOf v)) := by
  cases room with
  | zero => exact .none _
  | succ room =>
    -- There is room enough for what is inside.
    have hpart (w : Value) (hw : sizeOf w < sizeOf v) :
        Within (w.plain.print heap style room) (w.print heap style (room + sizeOf v)) :=
      fun text htext ↦ print_within (by omega) w text (print_within_plain room w text htext)
    have hroom : room + 1 + sizeOf v = room + sizeOf v + 1 := by omega
    rw [hroom]
    cases v with
    | list l items =>
      rw [plain_list, print, print, List.mapM_map]
      refine .map (.mapM fun w hw ↦ hpart w ?_) _
      have hlt := List.sizeOf_lt_of_mem hw
      rw [list.sizeOf_spec]
      omega
    | vec items =>
      rw [plain_vec, print, print, List.mapM_map]
      refine .map (.mapM fun w hw ↦ hpart w ?_) _
      have hlt := List.sizeOf_lt_of_mem hw
      rw [vec.sizeOf_spec]
      omega
    | map l d =>
      rw [plain_map, print, print, List.mapM_map]
      refine .map (.mapM fun e he ↦ .map (hpart e.2 ?_) _) _
      have hlt := sizeOf_lt_of_mem_entries he
      rw [map.sizeOf_spec]
      omega
    | withMeta u data =>
      rw [plain_withMeta, print]
      have hlt : sizeOf u + 1 ≤ sizeOf (withMeta u data) := by
        rw [withMeta.sizeOf_spec]
        omega
      exact fun text htext ↦
        print_within (by omega) u text (print_within_plain (room + 1) u text htext)
    | _ =>
      simp only [plain]
      exact print_within (by omega) _
termination_by sizeOf v
decreasing_by all_goals omega

theorem exists_printAll_plain_iff {sep : String} {vs : List Value} {text : String} :
    (∃ room, printAll heap style room sep (vs.map plain) = some text) ↔
      ∃ room, printAll heap style room sep vs = some text := by
  simp only [printAll, List.mapM_map]
  constructor
  · rintro ⟨room, hroom⟩
    refine ⟨room + sizeOf vs, Within.map (.mapM fun v hv t ht ↦ ?_) _ text hroom⟩
    have hlt := List.sizeOf_lt_of_mem hv
    exact print_within (by omega) v t (print_within_plain room v t ht)
  · rintro ⟨room, hroom⟩
    exact ⟨room, Within.map (.mapM fun v _ ↦ print_plain_within room v) _ text hroom⟩

end Value

/-! ## Calls -/

section

variable {macros : Nat → Bool} {vs ws : List Value} {s : Store} {scope : FrameId} {op : Builtin}

/-- Comparing gives the same answer for values that are alike. -/
theorem equal?_of_alike {v v' w w' : Value} {room : Nat} {r : Bool} (hv : Alike macros v v')
    (hw : Alike macros w w') (h : v.equal? room w = some r) : ∃ room, v'.equal? room w' = some r := by
  have hiff := Value.iff_of_equal? (Value.all_hasDistinctKeys hv.left)
    (Value.all_hasDistinctKeys hw.left) h
  obtain ⟨r', hr'⟩ :=
    Option.isSome_iff_exists.1 (Value.isSome_equal? (w := w') (Nat.lt_succ_self (sizeOf v')))
  have hiff' := Value.iff_of_equal? (Value.all_hasDistinctKeys hv.right)
    (Value.all_hasDistinctKeys hw.right) hr'
  refine ⟨_, hr'.trans (congrArg some ?_)⟩
  rw [Bool.eq_iff_iff, hiff', hiff, hv.canonical, hw.canonical]

theorem interchanged_equal (h : List.Forall₂ (Alike macros) vs ws) :
    Interchanged s (Alike macros) (fun eng ↦ Effect.equal eng vs) fun eng ↦ Effect.equal eng ws := by
  refine .lift_bind (.two h) fun p q hpq ↦ ?_
  have hfit : Interchanged s (· = ·) (fun eng ↦ Engine.fit (p.1.equal? eng.room p.2))
      fun eng ↦ Engine.fit (q.1.equal? eng.room q.2) :=
    .fit (fun _ _ hmn ↦ Value.equal?_within hmn _ _) (fun _ _ hmn ↦ Value.equal?_within hmn _ _)
      fun r ↦ ⟨fun ⟨_, hr⟩ ↦ equal?_of_alike hpq.1 hpq.2 hr,
        fun ⟨_, hr⟩ ↦ equal?_of_alike hpq.1.symm hpq.2.symm hr⟩
  exact hfit.map fun b b' hb ↦ hb ▸ Agree.alike_leaf rfl trivial

/-- Texts of values that differ in metadata are the same. -/
theorem interchanged_toText {style : PrintStyle} {sep : String}
    (h : vs.map Value.plain = ws.map Value.plain) :
    Interchanged s (fun v w ↦ ∃ text, v = .str text ∧ w = .str text)
      (fun eng ↦ Effect.toText eng style sep vs) fun eng ↦ Effect.toText eng style sep ws := by
  have hprint : Interchanged s (· = ·) (fun eng ↦ eng.print style sep vs)
      fun eng ↦ eng.print style sep ws :=
    .fit (fun _ _ hmn ↦ Value.printAll_within hmn sep vs)
      (fun _ _ hmn ↦ Value.printAll_within hmn sep ws) fun text ↦ by
        rw [← Value.exists_printAll_plain_iff, h, Value.exists_printAll_plain_iff]
  exact hprint.map fun t _ ht ↦ ⟨t, rfl, ht ▸ rfl⟩

/-- **A lenient function does not tell arguments apart that are alike.** -/
theorem interchanged_call_of_lenient (hop : op ∈ Builtin.lenient)
    (h : List.Forall₂ (Alike macros) vs ws) :
    Interchanged s (Alike macros) (fun eng ↦ op.call eng scope vs) fun eng ↦ op.call eng scope ws := by
  open Builtin.Kind in
  have htest {holds : Value → Bool} (hl : IsLenient holds) : Interchanged s (Alike macros)
      (fun eng ↦ eng.lift (test op holds vs)) fun eng ↦ eng.lift (test op holds ws) :=
    .lift (.lenient h hl)
  have hleaf {holds : Value → Bool} (hfalse : ∀ v, takesMetadata v = true → holds v = false) :=
    htest (isLenient_of_eq_false hfalse)
  cases op with
  | equal => exact interchanged_equal h
  | list => exact (.list h : Alike macros (.list none vs) (.list none ws)).labelled
  | vector => exact .of_forall fun _ _ ↦ .ok (.vec h)
  | vec => exact .lift (.vec h)
  | isSequential => exact htest Builtin.Kind.isLenient_isSequential
  | isEmpty => exact htest Builtin.Kind.isLenient_isEmpty
  | count => exact .lift (.count h)
  | cons => exact .make (.cons h)
  | concat => exact .make (.concat h)
  | first => exact .lift (.first h)
  | rest => exact .make (.rest h)
  | nth => exact .lift (.nth h)
  | seq => exact .make (.seq h)
  | hashMap => exact .make (.hashMap h)
  | isMap => exact htest Builtin.Kind.isLenient_isMap
  | get => exact .lift (.get h)
  | contains => exact .lift (.contains h)
  | assoc => exact .make (.assoc h)
  | dissoc => exact .make (.dissoc h)
  | isNil | isTrue | isFalse | isSymbol | isKeyword | isString | isNumber =>
    exact hleaf fun v hv ↦ by cases v <;> first | rfl | cases hv
  | isFn => exact htest Builtin.Kind.isLenient_isFn
  | isMacro => exact htest Builtin.Kind.isLenient_isMacro
  | _ => exact absurd hop (by decide)

/-- Under metadata a value is a list or a vector if it is one without metadata. -/
theorem kinds_plain (v : Value) :
    Builtin.Kind.isList v.bare = Builtin.Kind.isList v.plain ∧
      Builtin.Kind.isVector v.bare = Builtin.Kind.isVector v.plain := by
  fun_induction Value.bare v with
  | case1 u data ih => rwa [Value.plain_withMeta]
  | case2 v hv =>
    cases v with
    | withMeta u data => exact absurd rfl (hv u data)
    | _ => simp [Value.plain, Builtin.Kind.isList, Builtin.Kind.isVector]

theorem alike_of_plain (hvs : ∀ v ∈ vs, v.All (IsMade macros))
    (hws : ∀ w ∈ ws, w.All (IsMade macros)) (h : vs.map Value.plain = ws.map Value.plain) :
    List.Forall₂ (fun v w ↦ Alike macros v w ∧ v.plain = w.plain) vs ws := by
  have hplain : List.Forall₂ (fun v w ↦ v.plain = w.plain) vs ws := by
    rwa [← List.forall₂_eq_eq_eq, List.forall₂_map_left_iff, List.forall₂_map_right_iff] at h
  rw [List.forall₂_iff_zip] at hplain ⊢
  refine ⟨hplain.1, fun {v w} hp ↦ ?_⟩
  obtain ⟨hv, hw⟩ := List.of_mem_zip hp
  have hvw := hplain.2 hp
  refine ⟨⟨hvs v hv, hws w hw, ?_⟩, hvw⟩
  rw [← Value.canonical_plain v, hvw, Value.canonical_plain]

/-- **An exact function does not tell arguments apart that differ in metadata.** -/
theorem interchanged_call_of_exact (hop : op ∈ Builtin.exact)
    (hvs : ∀ v ∈ vs, v.All (IsMade macros)) (hws : ∀ w ∈ ws, w.All (IsMade macros))
    (h : vs.map Value.plain = ws.map Value.plain) :
    Interchanged s (Alike macros) (fun eng ↦ op.call eng scope vs) fun eng ↦ op.call eng scope ws := by
  have hboth := alike_of_plain hvs hws h
  have halike : List.Forall₂ (Alike macros) vs ws := hboth.imp fun _ _ ↦ And.left
  have htest {holds : Value → Bool}
      (hholds : ∀ v w : Value, v.plain = w.plain → holds v.bare = holds w.bare) :
      Interchanged s (Alike macros) (fun eng ↦ eng.lift (Builtin.Kind.test op holds vs))
        fun eng ↦ eng.lift (Builtin.Kind.test op holds ws) :=
    .lift (.bind (.one hboth) fun v w hvw ↦
      .ok (by rw [hholds v w hvw.2]; exact Agree.alike_leaf rfl trivial))
  have htext {style : PrintStyle} {sep : String} : Interchanged s (Alike macros)
      (fun eng ↦ Effect.toText eng style sep vs) fun eng ↦ Effect.toText eng style sep ws := by
    refine (interchanged_toText h).imp ?_
    rintro _ _ ⟨text, rfl, rfl⟩
    exact Agree.alike_leaf rfl trivial
  cases op with
  | isList => exact htest fun v w hvw ↦ by rw [(kinds_plain v).1, hvw, ← (kinds_plain w).1]
  | isVector => exact htest fun v w hvw ↦ by rw [(kinds_plain v).2, hvw, ← (kinds_plain w).2]
  | conj =>
    cases hboth with
    | nil => exact .make (Agree.refuse_arity _ _)
    | cons hc _ =>
      obtain _ | ⟨_, hrest⟩ := halike
      refine .make (.conj hc.1 ?_ hrest)
      rw [(kinds_plain _).2, hc.2, ← (kinds_plain _).2]
  | prStr => exact htext
  | str => exact htext
  | _ => exact absurd hop (by decide)

/-- **Equal arguments are interchangeable.**  A call of a lenient function with other, equal
arguments ends with an equal result or in a failure of the same kind; a call of an exact function
does so with arguments that differ in metadata, and the texts that `pr-str` and `str` make are then
the same.  The values are as the language makes them, and there is room enough. -/
theorem equal_arguments_interchangeable (hvs : ∀ v ∈ vs, v.All (IsMade macros))
    (hws : ∀ w ∈ ws, w.All (IsMade macros)) (s : Store) (scope : FrameId) :
    (List.Forall₂ Value.Equal vs ws → ∀ op ∈ Builtin.lenient,
      Interchanged s Value.Equal (fun eng ↦ op.call eng scope vs) fun eng ↦ op.call eng scope ws) ∧
    (vs.map Value.plain = ws.map Value.plain →
      (∀ op ∈ Builtin.exact, Interchanged s Value.Equal (fun eng ↦ op.call eng scope vs)
        fun eng ↦ op.call eng scope ws) ∧
      ∀ op ∈ [Builtin.prStr, .str], Interchanged s (fun v w ↦ ∃ text, v = .str text ∧ w = .str text)
        (fun eng ↦ op.call eng scope vs) fun eng ↦ op.call eng scope ws) := by
  refine ⟨fun h op hop ↦ ?_, fun h ↦ ⟨fun op hop ↦ ?_, fun op hop ↦ ?_⟩⟩
  · have halike : List.Forall₂ (Alike macros) vs ws := by
      rw [List.forall₂_iff_zip] at h ⊢
      refine ⟨h.1, fun {v w} hp ↦ ?_⟩
      obtain ⟨hv, hw⟩ := List.of_mem_zip hp
      exact .of_equal (hvs v hv) (hws w hw) (h.2 hp)
    exact (interchanged_call_of_lenient hop halike).imp fun _ _ ↦ Alike.equal
  · exact (interchanged_call_of_exact hop hvs hws h).imp fun _ _ ↦ Alike.equal
  · rcases List.mem_cons.1 hop with rfl | hop
    · exact interchanged_toText h
    · obtain rfl := List.mem_singleton.1 hop
      exact interchanged_toText h

/-- Looking up a vector in a map, or a list that is equal to it in a map with other metadata and
another order, gives equal values.  With or without metadata, a vector prints as the same text. -/
theorem equal_arguments_interchangeable_get :
    let s : Store := {}
    let scope : FrameId := 0
    let entries : List (Key × Value) := [(.kw "a", .vec [.int 1]), (.kw "b", .nil)]
    let entries' : List (Key × Value) := [(.kw "b", .nil), (.kw "a", .list none [.int 1])]
    let vs : List Value := [.map none ⟨entries⟩, .kw "a"]
    let ws : List Value := [.withMeta (.map none ⟨entries'⟩) (.int 1), .kw "a"]
    let vs' : List Value := [.vec [.int 1]]
    let ws' : List Value := [.withMeta (.vec [.int 1]) .nil]
    let made : Value → Prop := fun v ↦ v.All (IsMade fun _ ↦ false)
    ((∀ v ∈ vs, made v) ∧ (∀ w ∈ ws, made w) ∧ List.Forall₂ Value.Equal vs ws ∧
      Interchanged s Value.Equal (fun eng ↦ Builtin.get.call eng scope vs)
        fun eng ↦ Builtin.get.call eng scope ws) ∧
    (∀ v ∈ vs', made v) ∧ (∀ w ∈ ws', made w) ∧ vs'.map Value.plain = ws'.map Value.plain ∧
      Interchanged s (fun v w ↦ ∃ text, v = .str text ∧ w = .str text)
        (fun eng ↦ Builtin.prStr.call eng scope vs') fun eng ↦ Builtin.prStr.call eng scope ws' := by
  intro s scope entries entries' vs ws vs' ws' made
  have hleaf {v : Value} (hv : v.parts = []) (h : v.IsMade fun _ ↦ false) : made v :=
    .of_parts_eq_nil h hv
  have hone {vs : List Value} (h : vs = [.int 1]) : ∀ v ∈ vs, made v := by
    rintro v hv
    obtain rfl := List.mem_singleton.1 (h ▸ hv)
    exact hleaf rfl trivial
  have hmap {es : List (Key × Value)} (hkeys : (es.map Prod.fst).Nodup)
      (hes : ∀ e ∈ es, made (.ofKey e.1) ∧ made e.2) : made (.map none ⟨es⟩) := .map hkeys hes
  have hvs : ∀ v ∈ vs, made v := by
    simp only [vs, entries, List.forall_mem_cons, List.not_mem_nil, false_implies, implies_true,
      and_true]
    refine ⟨hmap (by decide) ?_, hleaf rfl trivial⟩
    simp only [List.forall_mem_cons, List.not_mem_nil, false_implies, implies_true, and_true]
    exact ⟨⟨hleaf rfl trivial, .vec trivial (hone rfl)⟩, hleaf rfl trivial, hleaf rfl trivial⟩
  have hws : ∀ w ∈ ws, made w := by
    simp only [ws, entries', List.forall_mem_cons, List.not_mem_nil, false_implies, implies_true,
      and_true]
    refine ⟨.withMeta rfl (hmap (by decide) ?_) (hleaf rfl trivial), hleaf rfl trivial⟩
    simp only [List.forall_mem_cons, List.not_mem_nil, false_implies, implies_true, and_true]
    exact ⟨⟨hleaf rfl trivial, hleaf rfl trivial⟩, hleaf rfl trivial, .list trivial (hone rfl)⟩
  have hequal : List.Forall₂ Value.Equal vs ws := .cons ⟨9, rfl⟩ (.cons ⟨9, rfl⟩ .nil)
  have hvs' : ∀ v ∈ vs', made v := by
    rintro v hv
    obtain rfl := List.mem_singleton.1 hv
    exact .vec trivial (hone rfl)
  have hws' : ∀ w ∈ ws', made w := by
    rintro w hw
    obtain rfl := List.mem_singleton.1 hw
    exact .withMeta rfl (.vec trivial (hone rfl)) (hleaf rfl trivial)
  have hplain : vs'.map Value.plain = ws'.map Value.plain := by simp [vs', ws', Value.plain]
  refine ⟨⟨hvs, hws, hequal, ?_⟩, hvs', hws', hplain, ?_⟩
  · exact (equal_arguments_interchangeable hvs hws s scope).1 hequal .get (by decide)
  · exact ((equal_arguments_interchangeable hvs' hws' s scope).2 hplain).2 .prStr (by decide)

end

end Lisplet
