import Lisplet.Proofs.Renaming
import Lisplet.Proofs.Room
import Lisplet.Value.Equality
import Mathlib.Data.List.Forall2
import Mathlib.Data.List.Perm.Subperm

/-!
# What equality sees

Two values are equal exactly if they have one canonical form (`equal_iff_canonical`).  The canonical
form leaves out metadata and labels, has one kind of sequence for lists and vectors, and takes a map
for the function that it is: from keys to canonical forms, whatever the order of its entries.
Values of different kinds keep different forms.  A function keeps just the number that tells it from
others, and an atom the number of its cell, so that the contents of atoms have no part in equality.

Comparing goes through one value and looks up its parts in the other one, and so it is lopsided in
what it does.  That what it decides is an equivalence is read off the canonical forms.

The keys of a map have to be distinct, as those of every map are that the language builds
(`nodup_keys_insertAll`, `nodup_keys_erase`).  If a key stood twice, the entries would not be those
of a function.
-/

set_option autoImplicit false

namespace Lisplet

/-! ## Dictionaries as functions -/

namespace Dict

variable {κ α β : Type} [DecidableEq κ] {d : Dict κ α} {d' : Dict κ β} {k : κ}

theorem mem_keys_iff : k ∈ d.keys ↔ (d.get? k).isSome = true :=
  contains_eq_true_iff.symm

theorem get?_eq_none_iff : d.get? k = none ↔ k ∉ d.keys := by
  rw [mem_keys_iff, Bool.not_eq_true, Option.isSome_eq_false_iff, Option.isNone_iff_eq_none]

omit [DecidableEq κ] in
/-- A dictionary with as many keys as another one, all of which the other one has, has all of
them. -/
theorem keys_subset_of_size_eq (hd : d.keys.Nodup) (hsize : d.size = d'.size)
    (h : ∀ k ∈ d.keys, k ∈ d'.keys) : ∀ k ∈ d'.keys, k ∈ d.keys := by
  have hlength : d'.keys.length ≤ d.keys.length := by
    rw [keys, keys, List.length_map, List.length_map]
    exact Nat.le_of_eq hsize.symm
  have hperm : d.keys.Perm d'.keys := (hd.subperm h).perm_of_length_le hlength
  exact fun k hk ↦ hperm.mem_iff.2 hk

omit [DecidableEq κ] in
theorem size_eq_of_keys (hd : d.keys.Nodup) (hd' : d'.keys.Nodup)
    (h : ∀ k, k ∈ d.keys ↔ k ∈ d'.keys) : d.size = d'.size := by
  have hlength := ((List.perm_ext_iff_of_nodup hd hd').2 h).length_eq
  rwa [keys, keys, List.length_map, List.length_map] at hlength

/-- The test that maps of one size have the same keys. -/
theorem sameKeys_iff : (decide (d.size = d'.size) && d.keys.all d'.contains) = true ↔
    d.size = d'.size ∧ ∀ k ∈ d.keys, k ∈ d'.keys := by
  simp only [Bool.and_eq_true, decide_eq_true_eq, List.all_eq_true, contains_eq_true_iff]

end Dict

/-! ## Canonical forms -/

/-- What equality sees of a value. -/
inductive Canonical
  | nil
  | bool (b : Bool)
  | int (n : Int)
  | str (text : String)
  | sym (name : String)
  | kw (name : String)
  | seq (items : List Canonical)
  | map (get? : Key → Option Canonical)
  | fn (serial : Nat)
  | builtin (home : FrameId) (op : Builtin)
  | atom (id : AtomId)

namespace Value

/-- The canonical form of a value. -/
def canonical : Value → Canonical
  | nil => .nil
  | bool b => .bool b
  | int n => .int n
  | str text => .str text
  | sym name => .sym name
  | kw name => .kw name
  | list _ items | vec items => .seq (items.map canonical)
  | map _ d => .map (Dict.mk (d.entries.map fun e ↦ (e.1, canonical e.2))).get?
  | fn c => .fn c.serial
  | builtin home op => .builtin home op
  | atom a => .atom a
  | withMeta v _ => canonical v
termination_by v => sizeOf v
decreasing_by
  · have hlt := List.sizeOf_lt_of_mem ‹_ ∈ items›
    simp only [list.sizeOf_spec]
    omega
  · have hlt := List.sizeOf_lt_of_mem ‹_ ∈ items›
    simp only [vec.sizeOf_spec]
    omega
  · have hlt := sizeOf_lt_of_mem_entries ‹_ ∈ d.entries›
    simp only [map.sizeOf_spec]
    omega
  · simp only [withMeta.sizeOf_spec]
    omega

/-- The keys of a map are distinct. -/
def HasDistinctKeys : Value → Prop
  | map _ d => d.keys.Nodup
  | _ => True

/-- Comparing the values in room enough finds them equal. -/
def Equal (v w : Value) : Prop := ∃ room, v.equal? room w = some true

variable {v w : Value} {xs ys : List Value} {l l' : Option Label} {d d' : Dict Key Value}

theorem canonical_bare (v : Value) : v.bare.canonical = v.canonical := by
  fun_induction bare v with
  | case1 v data ih => rw [ih, canonical]
  | case2 => rfl

theorem canonical_of_items? (h : v.items? = some xs) : v.canonical = .seq (xs.map canonical) := by
  rw [← canonical_bare]
  rw [items?] at h
  split at h
  · rename_i heq
    obtain rfl := Option.some.inj h
    rw [heq, canonical]
  · rename_i heq
    obtain rfl := Option.some.inj h
    rw [heq, canonical]
  · cases h

theorem canonical_of_map (h : v.bare = map l d) :
    v.canonical = .map fun k ↦ (d.get? k).map canonical := by
  rw [← canonical_bare, h, canonical]
  exact congrArg _ (funext fun k ↦ Dict.get?_map k)

/-- Only a list or a vector has the canonical form of a sequence. -/
theorem items?_of_canonical {cs : List Canonical} (h : v.canonical = .seq cs) :
    ∃ xs, v.items? = some xs ∧ cs = xs.map canonical := by
  rw [← canonical_bare] at h
  rw [← items?_bare]
  have hbare := v.bare_ne_withMeta
  generalize v.bare = u at h hbare
  cases u with
  | list l xs => exact ⟨xs, rfl, by rw [canonical] at h; exact (Canonical.seq.inj h).symm⟩
  | vec xs => exact ⟨xs, rfl, by rw [canonical] at h; exact (Canonical.seq.inj h).symm⟩
  | withMeta u data => exact absurd rfl (hbare u data)
  | _ => rw [canonical] at h; cases h

/-- A sequence has not the canonical form of anything else. -/
theorem canonical_ne_of_items? (hv : v.items? = some xs) (hw : w.items? = none) :
    v.canonical ≠ w.canonical := by
  intro h
  obtain ⟨ys, hys, -⟩ := items?_of_canonical (h.symm.trans (canonical_of_items? hv))
  rw [hw] at hys
  cases hys

/-- Only a map has the canonical form of a function. -/
theorem map_of_canonical {f : Key → Option Canonical} (h : v.canonical = .map f) :
    ∃ l d, v.bare = map l d ∧ f = fun k ↦ (d.get? k).map canonical := by
  have hbare := v.bare_ne_withMeta
  rw [← canonical_bare] at h
  cases hv : v.bare with
  | map l d =>
    rw [canonical_bare, canonical_of_map hv] at h
    exact ⟨l, d, rfl, (Canonical.map.inj h).symm⟩
  | withMeta u data => exact absurd hv (hbare u data)
  | _ => rw [hv, canonical] at h; cases h

theorem map_canonical_eq_iff : xs.map canonical = ys.map canonical ↔
    List.Forall₂ (fun x y ↦ x.canonical = y.canonical) xs ys := by
  rw [← List.forall₂_eq_eq_eq, List.forall₂_map_left_iff, List.forall₂_map_right_iff]

/-! ## Comparing -/

/-- Tests on the elements of a list that are answers to questions answer the question of whether
all of them hold. -/
theorem iff_of_allM {α : Type} {f : α → Option Bool} {p : α → Prop} {as : List α} {r : Bool}
    (hf : ∀ a ∈ as, ∀ r, f a = some r → (r = true ↔ p a)) (h : as.allM f = some r) :
    r = true ↔ ∀ a ∈ as, p a := by
  induction as with
  | nil =>
    obtain rfl : true = r := Option.some.inj h
    simp
  | cons a as ih =>
    obtain ⟨ha, has⟩ := List.forall_mem_cons.1 hf
    rw [List.allM] at h
    obtain ⟨q, hq, h⟩ := Option.bind_eq_some_iff.1 h
    have hqa := ha q hq
    rw [List.forall_mem_cons]
    cases q with
    | true => rw [ih has h, ← hqa, eq_self_iff_true, true_and]
    | false =>
      obtain rfl : false = r := Option.some.inj h
      rw [← hqa]
      simp

theorem isSome_allM {α : Type} {f : α → Option Bool} {as : List α}
    (h : ∀ a ∈ as, (f a).isSome = true) : (as.allM f).isSome = true := by
  induction as with
  | nil => rfl
  | cons a as ih =>
    obtain ⟨ha, has⟩ := List.forall_mem_cons.1 h
    obtain ⟨q, hq⟩ := Option.isSome_iff_exists.1 ha
    rw [List.allM, hq]
    cases q with
    | true => exact ih has
    | false => rfl

/-- Values that hold no others are the same exactly if they have one canonical form. -/
theorem sameLeaf_iff (hv : ∀ u data, v ≠ withMeta u data) (hw : ∀ u data, w ≠ withMeta u data)
    (hxs : v.items? = none) (hys : w.items? = none)
    (hmap : ∀ l d l' d', v = map l d → w ≠ map l' d') :
    v.sameLeaf w = true ↔ v.canonical = w.canonical := by
  cases v with
  | withMeta u data => exact absurd rfl (hv u data)
  | list | vec => cases hxs
  | map l d =>
    cases w with
    | withMeta u data => exact absurd rfl (hw u data)
    | list | vec => cases hys
    | map l' d' => exact absurd rfl (hmap l d l' d' rfl)
    | _ => simp [sameLeaf, canonical]
  | _ =>
    cases w with
    | withMeta u data => exact absurd rfl (hw u data)
    | list | vec => cases hys
    | _ => simp [sameLeaf, canonical]

/-- Dictionaries are the same function exactly if they have the same keys, with the same values. -/
theorem canonical_entries_iff (hd : d.keys.Nodup) (hd' : d'.keys.Nodup) :
    (fun k ↦ (d.get? k).map canonical) = (fun k ↦ (d'.get? k).map canonical) ↔
      (d.size = d'.size ∧ ∀ k ∈ d.keys, k ∈ d'.keys) ∧
        ∀ e ∈ d.entries, ∃ u, d'.get? e.1 = some u ∧ e.2.canonical = u.canonical := by
  constructor
  · intro h
    replace h (k : Key) : (d.get? k).map canonical = (d'.get? k).map canonical := congrFun h k
    have hkeys (k : Key) : k ∈ d.keys ↔ k ∈ d'.keys := by
      have hsome := congrArg Option.isSome (h k)
      rw [Option.isSome_map, Option.isSome_map] at hsome
      rw [Dict.mem_keys_iff, Dict.mem_keys_iff, hsome]
    refine ⟨⟨Dict.size_eq_of_keys hd hd' hkeys, fun k hk ↦ (hkeys k).1 hk⟩, fun e he ↦ ?_⟩
    have hentry := h e.1
    rw [Dict.get?_of_mem_entries hd he, Option.map_some] at hentry
    obtain ⟨u, hu, hcanonical⟩ := Option.map_eq_some_iff.1 hentry.symm
    exact ⟨u, hu, hcanonical.symm⟩
  · rintro ⟨⟨hsize, hsubset⟩, hentries⟩
    funext k
    cases hk : d.get? k with
    | some u =>
      obtain ⟨u', hu', hcanonical⟩ := hentries (k, u) (Dict.mem_entries_of_get? hk)
      rw [hu', Option.map_some, Option.map_some, hcanonical]
    | none =>
      have hnot : k ∉ d'.keys := fun hmem ↦
        Dict.get?_eq_none_iff.1 hk (Dict.keys_subset_of_size_eq hd hsize hsubset k hmem)
      rw [Dict.get?_eq_none_iff.2 hnot]

/-- Lists of one length are compared element by element. -/
theorem map_canonical_eq_iff_zip (h : xs.length = ys.length) :
    xs.map canonical = ys.map canonical ↔ ∀ p ∈ xs.zip ys, p.1.canonical = p.2.canonical := by
  rw [map_canonical_eq_iff, List.forall₂_iff_zip]
  exact ⟨fun hzip p hp ↦ hzip.2 hp, fun hzip ↦ ⟨h, fun hp ↦ hzip _ hp⟩⟩

/-- **What comparing decides is whether the canonical forms are equal.** -/
theorem iff_of_equal? {room : Nat} {r : Bool} (hv : v.All HasDistinctKeys)
    (hw : w.All HasDistinctKeys) (h : v.equal? room w = some r) :
    r = true ↔ v.canonical = w.canonical := by
  induction room generalizing v w r with
  | zero => cases h
  | succ room ih =>
    rw [equal?] at h
    cases hxs : v.items? with
    | some xs =>
      cases hys : w.items? with
      | some ys =>
        simp only [hxs, hys] at h
        rw [canonical_of_items? hxs, canonical_of_items? hys, Canonical.seq.injEq]
        split at h
        · rename_i hlength
          rw [map_canonical_eq_iff_zip hlength]
          exact iff_of_allM (fun p hp r hr ↦ ih (hv.items hxs (List.of_mem_zip hp).1)
            (hw.items hys (List.of_mem_zip hp).2) hr) h
        · rename_i hlength
          obtain rfl : false = r := Option.some.inj h
          refine iff_of_false (by simp) fun hmap ↦ hlength ?_
          simpa using congrArg List.length hmap
      | none =>
        simp only [hxs, hys] at h
        obtain rfl : false = r := Option.some.inj h
        exact iff_of_false (by simp) (canonical_ne_of_items? hxs hys)
    | none =>
      cases hys : w.items? with
      | some ys =>
        simp only [hxs, hys] at h
        obtain rfl : false = r := Option.some.inj h
        exact iff_of_false (by simp) (canonical_ne_of_items? hys hxs).symm
      | none =>
        simp only [hxs, hys] at h
        split at h
        · rename_i l d l' d' hbare hbare'
          have hd := hv.bare
          have hd' := hw.bare
          rw [hbare] at hd
          rw [hbare'] at hd'
          rw [canonical_of_map hbare, canonical_of_map hbare', Canonical.map.injEq,
            canonical_entries_iff hd.here hd'.here]
          split at h
          · rename_i hkeys
            rw [Dict.sameKeys_iff] at hkeys
            rw [and_iff_right hkeys]
            refine iff_of_allM (fun e he r hr ↦ ?_) h
            cases hu : d'.get? e.1 with
            | some u =>
              rw [hu] at hr
              have hiff := ih (hd.entry he).2 (hd'.entry (Dict.mem_entries_of_get? hu)).2 hr
              simp [hiff]
            | none =>
              rw [hu] at hr
              obtain rfl : false = r := Option.some.inj hr
              simp
          · rename_i hkeys
            rw [Dict.sameKeys_iff] at hkeys
            obtain rfl : false = r := Option.some.inj h
            exact iff_of_false (by simp) fun hall ↦ hkeys hall.1
        · rename_i hmap
          obtain rfl := Option.some.inj h
          rw [← canonical_bare v, ← canonical_bare w]
          exact sameLeaf_iff v.bare_ne_withMeta w.bare_ne_withMeta (v.items?_bare.trans hxs)
            (w.items?_bare.trans hys) hmap

/-- Comparing ends where there is room for the one value, whatever is in atoms. -/
theorem isSome_equal? {room : Nat} (h : sizeOf v < room) : (v.equal? room w).isSome = true := by
  induction room generalizing v w with
  | zero => exact absurd h (Nat.not_lt_zero _)
  | succ room ih =>
    rw [equal?]
    split
    · rename_i xs ys hxs _
      split
      · refine isSome_allM fun p hp ↦ ih ?_
        have hitems := sizeOf_lt_of_items? hxs
        have helem := List.sizeOf_lt_of_mem (List.of_mem_zip hp).1
        omega
      · rfl
    · rfl
    · rfl
    · split
      · rename_i l d l' d' hbare _
        split
        · refine isSome_allM fun e he ↦ ?_
          split
          · refine ih ?_
            have hle := v.sizeOf_bare_le
            have hlt := sizeOf_lt_of_mem_entries he
            rw [hbare, map.sizeOf_spec] at hle
            omega
          · rfl
        · rfl
      · rfl

theorem equal_iff (hv : v.All HasDistinctKeys) (hw : w.All HasDistinctKeys) :
    v.Equal w ↔ v.canonical = w.canonical := by
  constructor
  · rintro ⟨room, h⟩
    exact (iff_of_equal? hv hw h).1 rfl
  · intro h
    obtain ⟨r, hr⟩ := Option.isSome_iff_exists.1 (isSome_equal? (w := w) (Nat.lt_succ_self (sizeOf v)))
    obtain rfl := (iff_of_equal? hv hw hr).2 h
    exact ⟨_, hr⟩

/-- **Equality is equality of canonical forms**, among values whose maps have distinct keys.  Every
answer of comparing two values is right: it is positive exactly if they have one canonical form.
There is an answer in room enough, whatever their atoms hold.  So equality is an equivalence. -/
theorem equal_iff_canonical :
    (∀ v w : Value, v.All HasDistinctKeys → w.All HasDistinctKeys →
      (∀ room r, v.equal? room w = some r → (r = true ↔ v.canonical = w.canonical)) ∧
      ∃ enough, ∀ room ≥ enough, (v.equal? room w).isSome = true) ∧
    Equivalence fun v w : {v : Value // v.All HasDistinctKeys} ↦ v.1.Equal w.1 := by
  refine ⟨fun v w hv hw ↦ ⟨fun _ _ ↦ iff_of_equal? hv hw, sizeOf v + 1, fun _ ↦ isSome_equal?⟩, ?_⟩
  refine ⟨fun v ↦ (equal_iff v.2 v.2).2 rfl, fun {v w} h ↦ ?_, fun {u v w} huv hvw ↦ ?_⟩
  · exact (equal_iff w.2 v.2).2 ((equal_iff v.2 w.2).1 h).symm
  · exact (equal_iff u.2 w.2).2 (((equal_iff u.2 v.2).1 huv).trans ((equal_iff v.2 w.2).1 hvw))

/-- A list with a map is equal to a vector with the map in another order, under metadata, and so the
two have one canonical form; a string is not equal to the keyword that is written with it. -/
theorem equal_iff_canonical_map :
    let entries : List (Key × Value) := [(.kw "a", .vec []), (.str "a", .atom 0)]
    let v : Value := .list none [.map none ⟨entries⟩]
    let w : Value := .withMeta (.vec [.withMeta (.map none ⟨entries.reverse⟩) (.int 1)]) .nil
    v.All HasDistinctKeys ∧ w.All HasDistinctKeys ∧ v.equal? 9 w = some true ∧
      v.canonical = w.canonical ∧ (str "a").equal? 9 (kw "a") = some false ∧
      (str "a").canonical ≠ (kw "a").canonical := by
  intro entries v w
  have hleaf {u : Value} (hu : u.parts = []) (h : u.HasDistinctKeys) : u.All HasDistinctKeys :=
    .of_parts_eq_nil h hu
  have hmap (es : List (Key × Value)) (hes : ∀ e ∈ es, e ∈ entries)
      (hkeys : (es.map Prod.fst).Nodup) : (map none ⟨es⟩).All HasDistinctKeys := by
    refine .map hkeys fun e he ↦ ?_
    have he := hes e he
    simp only [entries, List.mem_cons, List.not_mem_nil, or_false] at he
    rcases he with rfl | rfl
    · exact ⟨hleaf rfl trivial, hleaf rfl trivial⟩
    · exact ⟨hleaf rfl trivial, hleaf rfl trivial⟩
  have hv : v.All HasDistinctKeys := by
    refine .list trivial fun u hu ↦ ?_
    obtain rfl := List.mem_singleton.1 hu
    exact hmap entries (fun _ he ↦ he) (by decide)
  have hw : w.All HasDistinctKeys := by
    refine .withMeta trivial (.vec trivial fun u hu ↦ ?_) (hleaf rfl trivial)
    obtain rfl := List.mem_singleton.1 hu
    exact .withMeta trivial (hmap entries.reverse (fun _ he ↦ List.mem_reverse.1 he) (by decide))
      (hleaf rfl trivial)
  obtain ⟨hcompare, -⟩ := equal_iff_canonical
  have hsame : v.equal? 9 w = some true := rfl
  have hother : (str "a").equal? 9 (kw "a") = some false := rfl
  refine ⟨hv, hw, hsame, ((hcompare v w hv hw).1 9 true hsame).1 rfl, hother, fun h ↦ ?_⟩
  have hiff := (hcompare (str "a") (kw "a") (hleaf rfl trivial) (hleaf rfl trivial)).1 9 false hother
  exact absurd (hiff.2 h) (by decide)

end Value

end Lisplet
