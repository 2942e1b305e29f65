/-!
# Operators

What the values of a kernel compute, and the flags that settle how operands are read.
-/

namespace SpirvKernel

inductive BinaryOp where
  | add | sub | mul | div | rem | and | or | xor | shl | shr
  deriving DecidableEq, Repr

namespace BinaryOp

def all : List BinaryOp := [.add, .sub, .mul, .div, .rem, .and, .or, .xor, .shl, .shr]

def name : BinaryOp → String
  | .add => "Add"
  | .sub => "Sub"
  | .mul => "Mul"
  | .div => "Div"
  | .rem => "Rem"
  | .and => "And"
  | .or => "Or"
  | .xor => "Xor"
  | .shl => "Shl"
  | .shr => "Shr"

end BinaryOp

inductive UnaryOp where
  | neg | not
  deriving DecidableEq, Repr

namespace UnaryOp

def all : List UnaryOp := [.neg, .not]

def name : UnaryOp → String
  | .neg => "Neg"
  | .not => "Not"

end UnaryOp

inductive CompareOp where
  | eq | ne | lt | le | gt | ge
  deriving DecidableEq, Repr

namespace CompareOp

def all : List CompareOp := [.eq, .ne, .lt, .le, .gt, .ge]

def name : CompareOp → String
  | .eq => "Eq"
  | .ne => "Ne"
  | .lt => "Lt"
  | .le => "Le"
  | .gt => "Gt"
  | .ge => "Ge"

end CompareOp

/-- Functions that the device knows itself. -/
inductive Intrinsic where
  | sin | cos | tan | sqrt | rsqrt | exp | exp2 | log | log2 | pow | floor | ceil | fma
  | abs | min | max | isNaN | isInfinity | popCount
  deriving DecidableEq, Repr

namespace Intrinsic

def all : List Intrinsic :=
  [.sin, .cos, .tan, .sqrt, .rsqrt, .exp, .exp2, .log, .log2, .pow, .floor, .ceil, .fma,
    .abs, .min, .max, .isNaN, .isInfinity, .popCount]

def name : Intrinsic → String
  | .sin => "Sin"
  | .cos => "Cos"
  | .tan => "Tan"
  | .sqrt => "Sqrt"
  | .rsqrt => "Rsqrt"
  | .exp => "Exp"
  | .exp2 => "Exp2"
  | .log => "Log"
  | .log2 => "Log2"
  | .pow => "Pow"
  | .floor => "Floor"
  | .ceil => "Ceil"
  | .fma => "Fma"
  | .abs => "Abs"
  | .min => "Min"
  | .max => "Max"
  | .isNaN => "IsNaN"
  | .isInfinity => "IsInfinity"
  | .popCount => "PopCount"

end Intrinsic

/-- Where a work item stands in the launch grid, and how large the grid is. -/
inductive GridBuiltin where
  /-- The work item within the whole grid. -/
  | globalIndex
  /-- The work item within its group. -/
  | groupIndex
  /-- The group within the grid. -/
  | gridIndex
  /-- Work items in a group. -/
  | groupDimension
  /-- Groups in the grid. -/
  | gridDimension
  deriving DecidableEq, Repr

namespace GridBuiltin

def all : List GridBuiltin :=
  [.globalIndex, .groupIndex, .gridIndex, .groupDimension, .gridDimension]

def name : GridBuiltin → String
  | .globalIndex => "GlobalIndex"
  | .groupIndex => "GroupIndex"
  | .gridIndex => "GridIndex"
  | .groupDimension => "GroupDimension"
  | .gridDimension => "GridDimension"

end GridBuiltin

/-! ## Flags -/

/-- Flags of arithmetic and comparisons. Bits without a meaning are kept. -/
structure ArithmeticFlags where
  mask : UInt8
  deriving DecidableEq, Repr

namespace ArithmeticFlags

def none : ArithmeticFlags := ⟨0⟩

/-- Integers are read as unsigned. -/
def unsigned (f : ArithmeticFlags) : Bool := f.mask &&& 1 != 0

/-- Comparing with a NaN gives true. -/
def unordered (f : ArithmeticFlags) : Bool := f.mask &&& 2 != 0

end ArithmeticFlags

/-- Flags of conversions. Bits without a meaning are kept. -/
structure ConvertFlags where
  mask : UInt8
  deriving DecidableEq, Repr

namespace ConvertFlags

def sourceUnsigned (f : ConvertFlags) : Bool := f.mask &&& 1 != 0

def targetUnsigned (f : ConvertFlags) : Bool := f.mask &&& 2 != 0

end ConvertFlags

end SpirvKernel
