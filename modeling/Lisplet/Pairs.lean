/-!
# Lists taken two by two

Map entries and local bindings are written as flat lists in which every first element is followed
by its partner.
-/

set_option autoImplicit false

namespace Lisplet

/-- The elements two by two; nothing if the last one has no partner. -/
def pairs? {α : Type} : List α → Option (List (α × α))
  | [] => some []
  | [_] => none
  | a :: b :: rest => (pairs? rest).map ((a, b) :: ·)

theorem isSome_pairs? {α : Type} (xs : List α) :
    (pairs? xs).isSome = (xs.length % 2 == 0) := by
  fun_induction pairs? xs with
  | case1 => rfl
  | case2 => rfl
  | case3 a b rest ih =>
    rw [Option.isSome_map, ih]
    simp only [List.length_cons]
    congr 1
    omega

end Lisplet
