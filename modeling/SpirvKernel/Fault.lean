import SpirvKernel.Binary.Layout
import SpirvKernel.Emission.Stage
import SpirvKernel.Id.Entity

/-!
# Faults

Why a module cannot be made. Each fault is a cause; its wording is in `message` alone.
-/

namespace SpirvKernel

/-- Anything that computes on operands of one scalar class. -/
inductive Operator where
  | binary (op : BinaryOp)
  | unary (op : UnaryOp)
  | compare (op : CompareOp)
  | intrinsic (function : Intrinsic)
  deriving DecidableEq, Repr

def Operator.name : Operator → String
  | .binary op => op.name
  | .unary op => op.name
  | .compare op => op.name
  | .intrinsic f => f.name

/-- Constructs that no instruction of a kernel module expresses. -/
inductive Unsupported where
  | operands (op : Operator) (cls : ScalarClass)
  | noOperands (function : Intrinsic)
  | conversion (source target : Ty)
  | numericConstant (type : Ty)
  | gridDimension (dimension : UInt8)
  | gridIndexType (type : Ty)
  | switchOn (selector : ValueId)
  | allocationSpace (space : AddressSpace)
  | allocationOfNonPointer
  | dynamicPrivateAllocation
  | kernelResult (kernel : String) (type : Ty)
  | inlineAssembly
  deriving DecidableEq, Repr

def Unsupported.text : Unsupported → String
  | .operands op cls => op.name ++ " on " ++ cls.text ++ " operands"
  | .noOperands f => f.name ++ " without operands"
  | .conversion source target => "conversion from " ++ source.text ++ " to " ++ target.text
  | .numericConstant type => "numeric constant of type " ++ type.text
  | .gridDimension dimension => s!"grid dimension {dimension.toNat}"
  | .gridIndexType type => "grid index of type " ++ type.text
  | .switchOn selector => s!"switch on non-integer value %{selector.number}"
  | .allocationSpace space => "allocation in " ++ space.name ++ " address space"
  | .allocationOfNonPointer => "allocation of a non-pointer"
  | .dynamicPrivateAllocation => "dynamically sized private allocation"
  | .kernelResult kernel type => "kernel `" ++ kernel ++ "` returning " ++ type.text
  | .inlineAssembly => "inline assembly"

inductive Fault where
  | unallocated (entity : Entity)
  | alreadyAllocated (entity : Entity)
  | outOfOrder (call : Call) (stage : Stage)
  | unsupported (construct : Unsupported)
  | rangeExhausted
  | spaceExhausted
  | unknownMethod (method : MethodId)
  | unplannedAllocation (value : ValueId)
  | emptyMethod (name : String)
  | unknownValue (value : ValueId)
  /-- An instruction has more words than its word count can say. -/
  | oversized (op : Opcode)
  deriving DecidableEq, Repr

def Fault.message : Fault → String
  | .unallocated e => "no identifier allocated for " ++ e.text
  | .alreadyAllocated e => "identifier already allocated for " ++ e.text
  | .outOfOrder call stage => "`" ++ call.name ++ "` called while generator is " ++ stage.text
  | .unsupported construct => "unsupported construct: " ++ construct.text
  | .rangeExhausted => "identifier range exhausted"
  | .spaceExhausted => "SPIR-V identifier space exhausted"
  | .unknownMethod m => s!"call to unknown method #{m.number}"
  | .unplannedAllocation v => s!"alloca %{v.number} has no allocation kind"
  | .emptyMethod name => "method `" ++ name ++ "` has no blocks"
  | .unknownValue v => s!"value %{v.number} is not defined in this method"
  | .oversized op => (Layout.Error.oversized op).message

/-- Whether work can go on after a fault. It cannot once an instruction does not fit. -/
def Fault.isRecoverable : Fault → Bool
  | .oversized _ => false
  | _ => true

end SpirvKernel
