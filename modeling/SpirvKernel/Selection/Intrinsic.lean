import SpirvKernel.Selection.Operator

/-!
# Forms of intrinsics

A few intrinsics are instructions of their own. The rest belong to the instruction set OpenCL.std and
are known by number.
-/

namespace SpirvKernel

/-- How a call of an intrinsic is written. -/
inductive IntrinsicForm where
  | core (op : Opcode)
  /-- An instruction of the extended set. -/
  | extended (number : Word)
  deriving DecidableEq, Repr

namespace Intrinsic

def form? (f : Intrinsic) (cls : ScalarClass) (flags : ArithmeticFlags) : Option IntrinsicForm :=
  match f, cls with
  | .sin, .float _ => some (.extended 57)
  | .cos, .float _ => some (.extended 14)
  | .tan, .float _ => some (.extended 62)
  | .sqrt, .float _ => some (.extended 61)
  | .rsqrt, .float _ => some (.extended 56)
  | .exp, .float _ => some (.extended 19)
  | .exp2, .float _ => some (.extended 20)
  | .log, .float _ => some (.extended 37)
  | .log2, .float _ => some (.extended 38)
  | .pow, .float _ => some (.extended 48)
  | .floor, .float _ => some (.extended 25)
  | .ceil, .float _ => some (.extended 12)
  | .fma, .float _ => some (.extended 26)
  | .abs, .float _ => some (.extended 23)
  | .abs, .int _ => some (.extended (if flags.unsigned then 201 else 141))
  | .min, .float _ => some (.extended 28)
  | .min, .int _ => some (.extended (if flags.unsigned then 159 else 158))
  | .max, .float _ => some (.extended 27)
  | .max, .int _ => some (.extended (if flags.unsigned then 157 else 156))
  | .isNaN, .float _ => some (.core .isNan)
  | .isInfinity, .float _ => some (.core .isInf)
  | .popCount, .int _ => some (.core .bitCount)
  | _, _ => none

def form (f : Intrinsic) (cls : ScalarClass) (flags : ArithmeticFlags) :
    Except Fault IntrinsicForm :=
  (Operator.intrinsic f).demand cls (f.form? cls flags)

end Intrinsic

end SpirvKernel
