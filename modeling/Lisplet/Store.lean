import Lisplet.Value

/-!
# The store

Everything that evaluation can change is in one value: the frames, the contents of the atoms, the
number of serial numbers handed out so far, and the output printed so far.

A frame binds names and may have an outer frame, which is older than it: the frames form a forest
whose roots are the top-level scopes.  A name is looked up along the chain of outer frames
(`find?`).  The walk steps outwards only to an older frame, so it ends whatever the store holds.
-/

set_option autoImplicit false

namespace Lisplet

/-- The bindings of one scope, in the order in which the names were first bound. -/
structure Frame where
  vars : Dict String Value
  outer : Option FrameId
  deriving Inhabited

/-- What evaluation reads and changes. -/
structure Store where
  frames : Array Frame := #[]
  /-- The contents of the atoms. -/
  atoms : Heap := #[]
  /-- How many serial numbers have been handed out. -/
  serials : Nat := 0
  /-- What has been printed. -/
  output : String := ""
  deriving Inhabited

namespace Store

/-! ## Frames -/

/-- Adds a frame with the given bindings, and gives its number. -/
def addFrame (s : Store) (outer : Option FrameId) (vars : Dict String Value) : FrameId × Store :=
  (s.frames.size, { s with frames := s.frames.push ⟨vars, outer⟩ })

/-- Binds a name in one frame. -/
def define (s : Store) (f : FrameId) (name : String) (v : Value) : Store :=
  { s with frames := s.frames.modify f fun fr ↦ { fr with vars := fr.vars.insert name v } }

/-- The frame outside a frame.  It has to be older, so that every chain of frames ends. -/
def outer? (s : Store) (f : FrameId) : Option FrameId :=
  (s.frames[f]?.bind Frame.outer).filter (· < f)

theorem lt_of_outer? {s : Store} {f g : FrameId} (h : s.outer? f = some g) : g < f := by
  rw [outer?, Option.filter_eq_some_iff] at h
  simpa using h.2

/-- The value that a frame itself binds a name to. -/
def own? (s : Store) (f : FrameId) (name : String) : Option Value :=
  s.frames[f]?.bind fun fr ↦ fr.vars.get? name

/-- The nearest frame, from `f` outwards, that binds a name. -/
def find? (s : Store) (f : FrameId) (name : String) : Option FrameId :=
  if (s.own? f name).isSome then some f
  else
    match _h : s.outer? f with
    | some g => s.find? g name
    | none => none
termination_by f
decreasing_by exact lt_of_outer? _h

/-- The value that a name has in a frame: the one that the nearest frame binds it to. -/
def get? (s : Store) (f : FrameId) (name : String) : Option Value :=
  (s.find? f name).bind fun g ↦ s.own? g name

/-- The outermost frame around a frame. -/
def topLevel (s : Store) (f : FrameId) : FrameId :=
  match _h : s.outer? f with
  | some g => s.topLevel g
  | none => f
termination_by f
decreasing_by exact lt_of_outer? _h

/-- A frame and the frames outside it, innermost first. -/
def chain (s : Store) (f : FrameId) : List FrameId :=
  f :: match _h : s.outer? f with
    | some g => s.chain g
    | none => []
termination_by f
decreasing_by exact lt_of_outer? _h

/-- The names that a frame itself binds, in the order in which they were first bound. -/
def names (s : Store) (f : FrameId) : List String :=
  (s.frames[f]?.map fun fr ↦ fr.vars.keys).getD []

/-- Adds a top-level frame that binds every built-in function. -/
def addTopLevel (s : Store) : FrameId × Store :=
  let home := s.frames.size
  s.addFrame none (.ofList (Builtin.all.map fun b ↦ (b.name, .builtin home b)))

/-! ## What the operations on frames leave as it was -/

/-- **Binding a name changes what that frame binds that name to, and nothing else.** -/
theorem own?_define (s : Store) (f g : FrameId) (name name' : String) (v : Value) :
    (s.define f name v).own? g name' =
      if g = f ∧ f < s.frames.size ∧ name' = name then some v else s.own? g name' := by
  simp only [own?, define, Array.getElem?_modify]
  by_cases h : f = g
  · subst h
    by_cases hs : f < s.frames.size
    · simp [hs, Dict.get?_insert]
    · simp [hs]
  · simp [h, Ne.symm h]

@[simp] theorem outer?_define (s : Store) (f g : FrameId) (name : String) (v : Value) :
    (s.define f name v).outer? g = s.outer? g := by
  simp only [outer?, define, Array.getElem?_modify]
  by_cases h : f = g
  · subst h
    cases s.frames[f]? <;> simp
  · simp [h]

/-- A new frame binds what it was made with; every other frame is as it was. -/
theorem own?_addFrame (s : Store) (outer : Option FrameId) (vars : Dict String Value) (g : FrameId)
    (name : String) :
    (s.addFrame outer vars).2.own? g name =
      if g = s.frames.size then vars.get? name else s.own? g name := by
  simp only [own?, addFrame, Array.getElem?_push]
  by_cases h : g = s.frames.size <;> simp [h]

/-! ## Atoms, serial numbers and output -/

/-- Adds an atom, and gives its number. -/
def addAtom (s : Store) (v : Value) : AtomId × Store :=
  (s.atoms.size, { s with atoms := s.atoms.push v })

/-- Puts a value into an atom. -/
def setAtom (s : Store) (a : AtomId) (v : Value) : Store :=
  { s with atoms := s.atoms.setIfInBounds a v }

/-- Hands out a serial number, for a closure or for a label. -/
def nextSerial (s : Store) : Nat × Store :=
  (s.serials, { s with serials := s.serials + 1 })

/-- Appends to the output. -/
def write (s : Store) (text : String) : Store :=
  { s with output := s.output ++ text }

/-! ## Frames as diagnostics show them -/

/-- The names that a frame itself binds, between braces. -/
def showNames (s : Store) (f : FrameId) : String :=
  "\x7b" ++ ", ".intercalate (s.names f) ++ "\x7d"

/-- A frame, with a mark if there is one outside it. -/
def describeFrame (s : Store) (f : FrameId) : String :=
  s.showNames f ++ if (s.outer? f).isSome then " -> ..." else ""

/-- A frame with all that are outside it. -/
def inspectFrame (s : Store) (f : FrameId) : String :=
  "<Environment chain: " ++ " -> ".intercalate ((s.chain f).map s.showNames) ++ ">"

end Store

end Lisplet
