import SpirvKernel.Kernel.Constant
import SpirvKernel.Kernel.Operator

/-!
# Values

A value is one typed step of a computation. Values, blocks and methods are named by numbers; the
parameters and values of a method share one set of names.
-/

namespace SpirvKernel

structure ValueId where
  number : Nat
  deriving DecidableEq, Repr

structure BlockId where
  number : Nat
  deriving DecidableEq, Repr

structure MethodId where
  number : Nat
  deriving DecidableEq, Repr

/-- How many elements an allocation holds. -/
inductive Extent where
  | single
  | fixed (count : UInt32)
  /-- Settled when the kernel is launched. -/
  | dynamic
  deriving DecidableEq, Repr

inductive Callee where
  | method (id : MethodId)
  | intrinsic (function : Intrinsic)
  deriving DecidableEq, Repr

inductive ValueKind where
  | constant (c : Constant)
  | undef
  | binary (op : BinaryOp) (lhs rhs : ValueId) (flags : ArithmeticFlags)
  | unary (op : UnaryOp) (operand : ValueId)
  | compare (op : CompareOp) (lhs rhs : ValueId) (flags : ArithmeticFlags)
  /-- Converts to the type of the value. -/
  | convert (operand : ValueId) (flags : ConvertFlags)
  | select (cond thenValue elseValue : ValueId)
  /-- Reserves memory; the value points to the first element. -/
  | alloca (elem : Ty) (extent : Extent)
  | load (address : ValueId)
  | store (address operand : ValueId)
  | elementAddress (base index : ValueId)
  | fieldAddress (base : ValueId) (field : UInt32)
  | extractField (aggregate : ValueId) (field : UInt32)
  | call (callee : Callee) (args : List ValueId) (flags : ArithmeticFlags)
  /-- The value that belongs to the block control came from. -/
  | phi (incoming : List (ValueId × BlockId))
  | gridIndex (builtin : GridBuiltin) (dimension : UInt8)
  | barrier
  | inlineAssembly (template : String) (args : List ValueId)
  deriving DecidableEq, Repr

namespace ValueKind

def name : ValueKind → String
  | .constant _ => "constant"
  | .undef => "undef"
  | .binary .. => "binary"
  | .unary .. => "unary"
  | .compare .. => "compare"
  | .convert .. => "convert"
  | .select .. => "select"
  | .alloca .. => "alloca"
  | .load _ => "load"
  | .store .. => "store"
  | .elementAddress .. => "element address"
  | .fieldAddress .. => "field address"
  | .extractField .. => "extract field"
  | .call .. => "call"
  | .phi _ => "phi"
  | .gridIndex .. => "grid index"
  | .barrier => "barrier"
  | .inlineAssembly .. => "inline assembly"

end ValueKind

structure Value where
  id : ValueId
  /-- `void` for values that only have an effect. -/
  type : Ty
  kind : ValueKind
  deriving DecidableEq, Repr

end SpirvKernel
