import SpirvKernel.Selection.Operator

/-!
# Conversions

Most conversions are one instruction. A truth value becomes a number by choosing between one and
zero, and a number becomes a truth value by comparing it with zero.
-/

namespace SpirvKernel

inductive Conversion where
  /-- One instruction, with the source as its only operand. -/
  | direct (op : Opcode)
  /-- A choice between one and zero of the target type. -/
  | fromBool
  /-- A comparison with zero of the source type. -/
  | toBool (op : Opcode)
  deriving DecidableEq, Repr

namespace Conversion

/-- Pointers keep their memory, or pass to or from generic memory. -/
def ofSpaces? (source target : AddressSpace) : Option Opcode :=
  if source = target then some .bitcast
  else if target = .generic then some .ptrCastToGeneric
  else if source = .generic then some .genericCastToPtr
  else none

def between? (source target : Ty) (flags : ConvertFlags) : Option Conversion :=
  if source = target then some (.direct .copyObject)
  else match source.scalarClass, target.scalarClass with
    | .int v, .int w =>
      -- Cutting bits off and filling up with zeros are one instruction.
      some (.direct (if w.bits < v.bits || flags.sourceUnsigned then .uConvert else .sConvert))
    | .float _, .float _ => some (.direct .fConvert)
    | .int _, .float _ =>
      some (.direct (if flags.sourceUnsigned then .convertUToF else .convertSToF))
    | .float _, .int _ =>
      some (.direct (if flags.targetUnsigned then .convertFToU else .convertFToS))
    | .bool, .int _ | .bool, .float _ => some .fromBool
    | .int _, .bool => some (.toBool .iNotEqual)
    | .float _, .bool => some (.toBool .fUnordNotEqual)
    | .pointer, .pointer => do
      let op ← ofSpaces? (← source.space?) (← target.space?)
      pure (.direct op)
    | .pointer, .int _ => some (.direct .convertPtrToU)
    | .int _, .pointer => some (.direct .convertUToPtr)
    | _, _ => none

def between (source target : Ty) (flags : ConvertFlags) : Except Fault Conversion :=
  match between? source target flags with
  | some c => .ok c
  | none => .error (.unsupported (.conversion source target))

end Conversion

namespace FloatWidth

/-- The bits of the number one. -/
def one : FloatWidth → UInt64
  | .f16 => 0x3C00
  | .f32 => 0x3F800000
  | .f64 => 0x3FF0000000000000

end FloatWidth

/-- One or zero of a numeric type. -/
def Ty.unit? (t : Ty) (one : Bool) : Option Constant :=
  match t with
  | .int w => some (.ofInt w (if one then 1 else 0))
  | .float w => some (.float w (if one then w.one else 0))
  | _ => none

def Ty.unit (t : Ty) (one : Bool) : Except Fault Constant :=
  match t.unit? one with
  | some c => .ok c
  | none => .error (.unsupported (.numericConstant t))

end SpirvKernel
