import SpirvKernel.Fault

/-!
# Opcodes of operators

Which instruction an operator becomes follows from the scalar class of its operands and from its
flags. Where the table has no entry, the operator does not exist for the class.
-/

namespace SpirvKernel

/-- The entry of a table, or the fault that there is none. -/
def Operator.demand {α : Type} (op : Operator) (cls : ScalarClass) : Option α → Except Fault α
  | some a => .ok a
  | none => .error (.unsupported (.operands op cls))

namespace BinaryOp

def opcode? (op : BinaryOp) (cls : ScalarClass) (flags : ArithmeticFlags) : Option Opcode :=
  match cls, op with
  | .int _, .add => some .iAdd
  | .int _, .sub => some .iSub
  | .int _, .mul => some .iMul
  | .int _, .div => some (if flags.unsigned then .uDiv else .sDiv)
  | .int _, .rem => some (if flags.unsigned then .uMod else .sRem)
  | .int _, .and => some .bitwiseAnd
  | .int _, .or => some .bitwiseOr
  | .int _, .xor => some .bitwiseXor
  | .int _, .shl => some .shiftLeftLogical
  | .int _, .shr => some (if flags.unsigned then .shiftRightLogical else .shiftRightArithmetic)
  | .float _, .add => some .fAdd
  | .float _, .sub => some .fSub
  | .float _, .mul => some .fMul
  | .float _, .div => some .fDiv
  | .float _, .rem => some .fRem
  | .bool, .and => some .logicalAnd
  | .bool, .or => some .logicalOr
  | .bool, .xor => some .logicalNotEqual
  | _, _ => none

def opcode (op : BinaryOp) (cls : ScalarClass) (flags : ArithmeticFlags) : Except Fault Opcode :=
  (Operator.binary op).demand cls (op.opcode? cls flags)

end BinaryOp

namespace UnaryOp

def opcode? (op : UnaryOp) (cls : ScalarClass) : Option Opcode :=
  match cls, op with
  | .int _, .neg => some .sNegate
  | .int _, .not => some .not
  | .float _, .neg => some .fNegate
  | .bool, .not => some .logicalNot
  | _, _ => none

def opcode (op : UnaryOp) (cls : ScalarClass) : Except Fault Opcode :=
  (Operator.unary op).demand cls (op.opcode? cls)

end UnaryOp

namespace CompareOp

def opcode? (op : CompareOp) (cls : ScalarClass) (flags : ArithmeticFlags) : Option Opcode :=
  match cls, op with
  | .int _, .eq => some .iEqual
  | .int _, .ne => some .iNotEqual
  | .int _, .lt => some (if flags.unsigned then .uLessThan else .sLessThan)
  | .int _, .le => some (if flags.unsigned then .uLessThanEqual else .sLessThanEqual)
  | .int _, .gt => some (if flags.unsigned then .uGreaterThan else .sGreaterThan)
  | .int _, .ge => some (if flags.unsigned then .uGreaterThanEqual else .sGreaterThanEqual)
  | .float _, .eq => some (if flags.unordered then .fUnordEqual else .fOrdEqual)
  | .float _, .ne => some (if flags.unordered then .fUnordNotEqual else .fOrdNotEqual)
  | .float _, .lt => some (if flags.unordered then .fUnordLessThan else .fOrdLessThan)
  | .float _, .le => some (if flags.unordered then .fUnordLessThanEqual else .fOrdLessThanEqual)
  | .float _, .gt => some (if flags.unordered then .fUnordGreaterThan else .fOrdGreaterThan)
  | .float _, .ge =>
    some (if flags.unordered then .fUnordGreaterThanEqual else .fOrdGreaterThanEqual)
  | .bool, .eq => some .logicalEqual
  | .bool, .ne => some .logicalNotEqual
  | _, _ => none

def opcode (op : CompareOp) (cls : ScalarClass) (flags : ArithmeticFlags) : Except Fault Opcode :=
  (Operator.compare op).demand cls (op.opcode? cls flags)

end CompareOp

end SpirvKernel
