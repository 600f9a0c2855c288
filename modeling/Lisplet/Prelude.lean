/-!
# The standard prelude

Definitions in the language itself, which a session evaluates before anything else.
-/

set_option autoImplicit false

namespace Lisplet.Prelude

/-- Negation. -/
def negation : String := "(def! not (fn* (a) (if a false true)))"

/-- Evaluates the forms of a file at the top level. -/
def loading : String :=
  "(def! load-file\n  (fn* (f) (eval (read-string (str \"(do \" (slurp f) \"\\nnil)\")))))"

/-- Chooses the first of several forms whose test is true. -/
def choosing : String :=
  "(defmacro! cond\n  (fn* (& xs)\n    (if (> (count xs) 0)\n      (list 'if (first xs)\n" ++
  "            (if (> (count xs) 1)\n              (nth xs 1)\n" ++
  "              (throw \"odd number of forms to cond\"))\n" ++
  "            (cons 'cond (rest (rest xs)))))))"

/-- The text of the standard prelude. -/
def standard : String := "\n\n".intercalate [negation, loading, choosing] ++ "\n"

end Lisplet.Prelude
