import Lisplet.Pairs

/-!
# Lists that are gone through with a function that may fail

Reading a map, checking parameters, printing a list: all of them apply a function that may fail to
each element.  What comes out of a success is the result of the function on some element
(`exists_of_mem_mapM`), and a function that gives more results gives more lists of results
(`mapM_eq_some_of_forall`).
-/

set_option autoImplicit false

namespace Lisplet

variable {α β ε ε' : Type}

/-- A computation in steps succeeds only if each step does. -/
theorem exists_of_bind_eq_ok {x : Except ε α} {f : α → Except ε β} {b : β}
    (h : (x >>= f) = .ok b) : ∃ a, x = .ok a ∧ f a = .ok b := by
  cases x with
  | error e => simp [bind, Except.bind] at h
  | ok a => exact ⟨a, rfl, h⟩

/-- A computation in steps fails only where one of the steps does. -/
theorem error_of_bind_eq_error {x : Except ε α} {f : α → Except ε β} {e : ε}
    (h : (x >>= f) = .error e) : x = .error e ∨ ∃ a, x = .ok a ∧ f a = .error e := by
  cases x with
  | error e' => exact .inl (congrArg Except.error (Except.error.inj h))
  | ok a => exact .inr ⟨a, rfl, h⟩

theorem map_eq_error_iff {x : Except ε α} {f : α → β} {e : ε} :
    x.map f = .error e ↔ x = .error e := by
  cases x <;> simp [Except.map]

/-- To see an error as one of another kind changes no success, -/
theorem mapError_eq_ok_iff {x : Except ε α} {f : ε → ε'} {a : α} :
    x.mapError f = .ok a ↔ x = .ok a := by
  constructor
  · intro h
    cases x with
    | ok b => rw [Except.ok.inj h]
    | error e => cases h
  · rintro rfl
    rfl

/-- and makes no error that was none. -/
theorem mapError_eq_error_iff {x : Except ε α} {f : ε → ε'} {e' : ε'} :
    x.mapError f = .error e' ↔ ∃ e, x = .error e ∧ f e = e' := by
  constructor
  · intro h
    cases x with
    | ok a => cases h
    | error e => exact ⟨e, rfl, Except.error.inj h⟩
  · rintro ⟨e, rfl, rfl⟩
    rfl

/-- Every element of the result is the result of an element. -/
theorem exists_of_mem_mapM {f : α → Except ε β} {xs : List α} {ys : List β}
    (h : xs.mapM f = .ok ys) {y : β} (hy : y ∈ ys) : ∃ x ∈ xs, f x = .ok y := by
  induction xs generalizing ys with
  | nil =>
    obtain rfl : [] = ys := Except.ok.inj h
    simp at hy
  | cons x xs ih =>
    rw [List.mapM_cons] at h
    obtain ⟨b, hx, h⟩ := exists_of_bind_eq_ok h
    obtain ⟨bs, hxs, h⟩ := exists_of_bind_eq_ok h
    rcases List.mem_cons.1 (Except.ok.inj h ▸ hy) with rfl | hy
    · exact ⟨x, List.mem_cons_self, hx⟩
    · obtain ⟨x', hx', hf⟩ := ih hxs hy
      exact ⟨x', List.mem_cons_of_mem _ hx', hf⟩

/-- An error comes from some element. -/
theorem exists_of_mapM_eq_error {f : α → Except ε β} {xs : List α} {e : ε}
    (h : xs.mapM f = .error e) : ∃ x ∈ xs, f x = .error e := by
  induction xs with
  | nil => exact absurd h (by simp [List.mapM_nil, pure, Except.pure])
  | cons x xs ih =>
    rw [List.mapM_cons] at h
    obtain hx | ⟨b, -, h⟩ := error_of_bind_eq_error h
    · exact ⟨x, List.mem_cons_self, hx⟩
    obtain hxs | ⟨bs, -, h⟩ := error_of_bind_eq_error h
    · obtain ⟨x', hx', hf⟩ := ih hxs
      exact ⟨x', List.mem_cons_of_mem _ hx', hf⟩
    · exact absurd h (by simp [pure, Except.pure])

/-- The results determine the elements if each result determines its element. -/
theorem eq_map_of_mapM {f : α → Except ε β} {g : β → α} {xs : List α} {ys : List β}
    (hfg : ∀ x ∈ xs, ∀ y, f x = .ok y → x = g y) (h : xs.mapM f = .ok ys) : xs = ys.map g := by
  induction xs generalizing ys with
  | nil =>
    obtain rfl : [] = ys := Except.ok.inj h
    rfl
  | cons x xs ih =>
    rw [List.mapM_cons] at h
    obtain ⟨b, hx, h⟩ := exists_of_bind_eq_ok h
    obtain ⟨bs, hxs, h⟩ := exists_of_bind_eq_ok h
    obtain rfl := Except.ok.inj h
    obtain ⟨hb, hbs⟩ := List.forall_mem_cons.1 hfg
    rw [List.map_cons, ← ih hbs hxs, ← hb b hx]

/-- A function that undoes another one gives back the list that the other one was applied to. -/
theorem mapM_map_eq_ok {f : α → Except ε β} {g : β → α} (hfg : ∀ y, f (g y) = .ok y)
    (ys : List β) : (ys.map g).mapM f = .ok ys := by
  induction ys with
  | nil => rfl
  | cons y ys ih =>
    rw [List.map_cons, List.mapM_cons, hfg, ih]
    rfl

/-- A function that succeeds wherever another one does gives the same list of results. -/
theorem mapM_eq_some_of_forall {f g : α → Option β} {xs : List α}
    (hfg : ∀ x ∈ xs, ∀ y, f x = some y → g x = some y) {ys : List β}
    (h : xs.mapM f = some ys) : xs.mapM g = some ys := by
  induction xs generalizing ys with
  | nil => exact h
  | cons x xs ih =>
    rw [List.mapM_cons] at h ⊢
    obtain ⟨b, hx, h⟩ := Option.bind_eq_some_iff.1 h
    obtain ⟨bs, hxs, h⟩ := Option.bind_eq_some_iff.1 h
    have hg : g x = some b := hfg x List.mem_cons_self b hx
    have hgs : xs.mapM g = some bs := ih (fun x' hx' ↦ hfg x' (List.mem_cons_of_mem _ hx')) hxs
    rw [hg, hgs]
    exact h

/-- A function that succeeds on every element succeeds on the list. -/
theorem mapM_eq_some_map {f : α → Option β} {g : α → β} {xs : List α}
    (hfg : ∀ x ∈ xs, f x = some (g x)) : xs.mapM f = some (xs.map g) := by
  induction xs with
  | nil => rfl
  | cons x xs ih =>
    obtain ⟨hx, hxs⟩ := List.forall_mem_cons.1 hfg
    rw [List.mapM_cons, hx, ih hxs]
    rfl

theorem isSome_mapM {f : α → Option β} {xs : List α} (h : ∀ x ∈ xs, (f x).isSome = true) :
    (xs.mapM f).isSome = true := by
  induction xs with
  | nil => rfl
  | cons x xs ih =>
    obtain ⟨hx, hxs⟩ := List.forall_mem_cons.1 h
    obtain ⟨b, hb⟩ := Option.isSome_iff_exists.1 hx
    obtain ⟨bs, hbs⟩ := Option.isSome_iff_exists.1 (ih hxs)
    rw [List.mapM_cons, hb, hbs]
    rfl

theorem isSome_of_isSome_mapM {α β : Type} {f : α → Option β} {xs : List α}
    (h : (xs.mapM f).isSome = true) : ∀ x ∈ xs, (f x).isSome = true := by
  obtain ⟨ys, hys⟩ := Option.isSome_iff_exists.1 h
  clear h
  induction xs generalizing ys with
  | nil => simp
  | cons x xs ih =>
    rw [List.mapM_cons] at hys
    obtain ⟨b, hx, hys⟩ := Option.bind_eq_some_iff.1 hys
    obtain ⟨bs, hxs, -⟩ := Option.bind_eq_some_iff.1 hys
    exact List.forall_mem_cons.2 ⟨Option.isSome_of_eq_some hx, ih bs hxs⟩

/-- The elements of some pairs, taken two by two, are the pairs. -/
theorem pairs?_flatMap {γ : Type} (f : γ → α × α) (xs : List γ) :
    pairs? (xs.flatMap fun x ↦ [(f x).1, (f x).2]) = some (xs.map f) := by
  induction xs with
  | nil => rfl
  | cons x xs ih =>
    rw [List.flatMap_cons, List.cons_append, List.cons_append, List.nil_append, pairs?, ih]
    rfl

/-- A list that can be taken two by two is made up of the pairs. -/
theorem eq_flatMap_of_pairs? {xs : List α} {ps : List (α × α)} (h : pairs? xs = some ps) :
    xs = ps.flatMap fun p ↦ [p.1, p.2] := by
  fun_induction pairs? xs generalizing ps with
  | case1 =>
    obtain rfl := Option.some.inj h
    rfl
  | case2 => simp at h
  | case3 a b rest ih =>
    obtain ⟨qs, hqs, rfl⟩ := Option.map_eq_some_iff.1 h
    rw [List.flatMap_cons, ← ih hqs]
    rfl

/-- The elements of the pairs that a list makes are elements of the list. -/
theorem mem_of_mem_pairs? {xs : List α} {ps : List (α × α)} (h : pairs? xs = some ps) {p : α × α}
    (hp : p ∈ ps) : p.1 ∈ xs ∧ p.2 ∈ xs := by
  fun_induction pairs? xs generalizing ps with
  | case1 =>
    obtain rfl := Option.some.inj h
    simp at hp
  | case2 => simp at h
  | case3 a b rest ih =>
    obtain ⟨qs, hqs, rfl⟩ := Option.map_eq_some_iff.1 h
    rcases List.mem_cons.1 hp with rfl | hp
    · simp
    · have := ih hqs hp
      simp [this]

end Lisplet
