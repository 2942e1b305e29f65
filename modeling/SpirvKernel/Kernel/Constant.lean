import SpirvKernel.Kernel.Ty

/-!
# Constants

Numbers are kept as bit patterns, so that two constants are equal only if they are written alike:
`0.0` and `-0.0` differ.
-/

namespace SpirvKernel

inductive Constant where
  | bool (value : Bool)
  | int (width : IntWidth) (bits : UInt64)
  | float (width : FloatWidth) (bits : UInt64)
  /-- The zero value of any type. -/
  | null (type : Ty)
  deriving DecidableEq, Repr

namespace Constant

/-- An integer in two's complement, cut to its width. -/
def ofInt (width : IntWidth) (n : Int) : Constant := .int width (UInt64.ofInt n &&& width.mask)

def ofWord (n : UInt32) : Constant := .int .i32 n.toUInt64

def type : Constant → Ty
  | .bool _ => .bool
  | .int w _ => .int w
  | .float w _ => .float w
  | .null t => t

/-- The constant with the bits that its width has no room for cleared. -/
def truncate : Constant → Constant
  | .int w bits => .int w (bits &&& w.mask)
  | .float w bits => .float w (bits &&& w.mask)
  | c => c

@[simp] theorem type_truncate (c : Constant) : c.truncate.type = c.type := by cases c <;> rfl

end Constant

end SpirvKernel
