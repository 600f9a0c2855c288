import Lisplet.Builtin.Arithmetic
import Lisplet.Builtin.Kind
import Lisplet.Builtin.Sequence
import Lisplet.Builtin.Table
import Lisplet.Eval.Effect

/-!
# Calling a built-in function

The one place that says what each built-in function does with its arguments.
-/

set_option autoImplicit false

namespace Lisplet.Builtin

/-- **A call of a built-in function** with arguments that are already evaluated, made from a
frame. -/
def call (eng : Engine) (scope : FrameId) (op : Builtin) (args : List Value) : Eval Value :=
  match op with
  | equal => Effect.equal eng args
  | add => eng.lift (Arithmetic.operate op (· + ·) args)
  | sub => eng.lift (Arithmetic.operate op (· - ·) args)
  | mul => eng.lift (Arithmetic.operate op (· * ·) args)
  | div => eng.lift (Arithmetic.divide args)
  | less => eng.lift (Arithmetic.compare op (· < ·) args)
  | lessEq => eng.lift (Arithmetic.compare op (· ≤ ·) args)
  | greater => eng.lift (Arithmetic.compare op (· > ·) args)
  | greaterEq => eng.lift (Arithmetic.compare op (· ≥ ·) args)
  | list => Eval.labelled (.list none args)
  | isList => eng.lift (Kind.test op Kind.isList args)
  | vector => return .vec args
  | isVector => eng.lift (Kind.test op Kind.isVector args)
  | vec => eng.lift (Sequence.vec args)
  | isSequential => eng.lift (Kind.test op Kind.isSequential args)
  | isEmpty => eng.lift (Kind.test op Sequence.isEmpty args)
  | count => eng.lift (Sequence.count args)
  | cons => eng.make (Sequence.cons args)
  | concat => eng.make (Sequence.concat args)
  | first => eng.lift (Sequence.first args)
  | rest => eng.make (Sequence.rest args)
  | nth => eng.lift (Sequence.nth args)
  | conj => eng.make (Sequence.conj args)
  | seq => eng.make (Sequence.seq args)
  | hashMap => eng.make (Table.hashMap args)
  | isMap => eng.lift (Kind.test op Kind.isMap args)
  | get => eng.lift (Table.get args)
  | contains => eng.lift (Table.contains args)
  | assoc => eng.make (Table.assoc args)
  | dissoc => eng.make (Table.dissoc args)
  | keys => eng.make (Table.keys args)
  | vals => eng.make (Table.vals args)
  | atom => Effect.atom eng args
  | isAtom => eng.lift (Kind.isAtom args)
  | deref => Effect.deref eng args
  | reset => Effect.reset eng args
  | swap => Effect.swap eng scope args
  | prStr => Effect.toText eng .readable " " args
  | str => Effect.toText eng .display "" args
  | prn => Effect.printLine eng .readable args
  | println => Effect.printLine eng .display args
  | readString => Effect.readString eng args
  | slurp => Effect.slurp eng args
  | eval => Effect.eval eng scope args
  | evalHere => Effect.evalHere eng scope args
  | throw => Effect.throwArgument eng args
  | map => Effect.map eng scope args
  | apply => Effect.apply eng scope args
  | isNil => eng.lift (Kind.test op Kind.isNil args)
  | isTrue => eng.lift (Kind.test op (Kind.isBool true) args)
  | isFalse => eng.lift (Kind.test op (Kind.isBool false) args)
  | isSymbol => eng.lift (Kind.test op Kind.isSymbol args)
  | isKeyword => eng.lift (Kind.test op Kind.isKeyword args)
  | isString => eng.lift (Kind.test op Kind.isString args)
  | isNumber => eng.lift (Kind.test op Kind.isNumber args)
  | isFn => eng.lift (Kind.test op Kind.isFn args)
  | isMacro => eng.lift (Kind.test op Kind.isMacro args)
  | symbol => Effect.symbol eng args
  | keyword => Effect.keyword eng args
  | metadata => eng.lift (Kind.metadata args)
  | withMeta => eng.lift (Kind.withMeta args)

end Lisplet.Builtin
