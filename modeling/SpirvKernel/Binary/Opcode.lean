/-!
# Opcodes

The instructions of kernel modules, with their numbers and mnemonics.
-/

namespace SpirvKernel

inductive Opcode where
  | undef | name | extInstImport | extInst | memoryModel | entryPoint | executionMode
  | capability | typeVoid | typeBool | typeInt | typeFloat | typeVector | typeArray | typeStruct
  | typePointer | typeFunction | constantTrue | constantFalse | constant | constantNull
  | specConstant | function | functionParameter | functionEnd | functionCall | variable | load
  | store | inBoundsAccessChain | inBoundsPtrAccessChain | decorate | compositeExtract
  | copyObject | convertFToU | convertFToS | convertSToF | convertUToF | uConvert | sConvert
  | fConvert | convertPtrToU | convertUToPtr | ptrCastToGeneric | genericCastToPtr | bitcast
  | sNegate | fNegate | iAdd | fAdd | iSub | fSub | iMul | fMul | uDiv | sDiv | fDiv | uMod
  | sRem | fRem | isNan | isInf | logicalEqual | logicalNotEqual | logicalOr | logicalAnd
  | logicalNot | select | iEqual | iNotEqual | uGreaterThan | sGreaterThan | uGreaterThanEqual
  | sGreaterThanEqual | uLessThan | sLessThan | uLessThanEqual | sLessThanEqual | fOrdEqual
  | fUnordEqual | fOrdNotEqual | fUnordNotEqual | fOrdLessThan | fUnordLessThan | fOrdGreaterThan
  | fUnordGreaterThan | fOrdLessThanEqual | fUnordLessThanEqual | fOrdGreaterThanEqual
  | fUnordGreaterThanEqual | shiftRightLogical | shiftRightArithmetic | shiftLeftLogical
  | bitwiseOr | bitwiseXor | bitwiseAnd | not | bitCount | controlBarrier | phi | label | branch
  | branchConditional | switch | ret | retValue | unreachable
  deriving DecidableEq, Repr

namespace Opcode

/-- The number of an opcode and its mnemonic without the leading `Op`. -/
def entry : Opcode → UInt16 × String
  | .undef => (1, "Undef")
  | .name => (5, "Name")
  | .extInstImport => (11, "ExtInstImport")
  | .extInst => (12, "ExtInst")
  | .memoryModel => (14, "MemoryModel")
  | .entryPoint => (15, "EntryPoint")
  | .executionMode => (16, "ExecutionMode")
  | .capability => (17, "Capability")
  | .typeVoid => (19, "TypeVoid")
  | .typeBool => (20, "TypeBool")
  | .typeInt => (21, "TypeInt")
  | .typeFloat => (22, "TypeFloat")
  | .typeVector => (23, "TypeVector")
  | .typeArray => (28, "TypeArray")
  | .typeStruct => (30, "TypeStruct")
  | .typePointer => (32, "TypePointer")
  | .typeFunction => (33, "TypeFunction")
  | .constantTrue => (41, "ConstantTrue")
  | .constantFalse => (42, "ConstantFalse")
  | .constant => (43, "Constant")
  | .constantNull => (46, "ConstantNull")
  | .specConstant => (50, "SpecConstant")
  | .function => (54, "Function")
  | .functionParameter => (55, "FunctionParameter")
  | .functionEnd => (56, "FunctionEnd")
  | .functionCall => (57, "FunctionCall")
  | .variable => (59, "Variable")
  | .load => (61, "Load")
  | .store => (62, "Store")
  | .inBoundsAccessChain => (66, "InBoundsAccessChain")
  | .inBoundsPtrAccessChain => (70, "InBoundsPtrAccessChain")
  | .decorate => (71, "Decorate")
  | .compositeExtract => (81, "CompositeExtract")
  | .copyObject => (83, "CopyObject")
  | .convertFToU => (109, "ConvertFToU")
  | .convertFToS => (110, "ConvertFToS")
  | .convertSToF => (111, "ConvertSToF")
  | .convertUToF => (112, "ConvertUToF")
  | .uConvert => (113, "UConvert")
  | .sConvert => (114, "SConvert")
  | .fConvert => (115, "FConvert")
  | .convertPtrToU => (117, "ConvertPtrToU")
  | .convertUToPtr => (120, "ConvertUToPtr")
  | .ptrCastToGeneric => (121, "PtrCastToGeneric")
  | .genericCastToPtr => (122, "GenericCastToPtr")
  | .bitcast => (124, "Bitcast")
  | .sNegate => (126, "SNegate")
  | .fNegate => (127, "FNegate")
  | .iAdd => (128, "IAdd")
  | .fAdd => (129, "FAdd")
  | .iSub => (130, "ISub")
  | .fSub => (131, "FSub")
  | .iMul => (132, "IMul")
  | .fMul => (133, "FMul")
  | .uDiv => (134, "UDiv")
  | .sDiv => (135, "SDiv")
  | .fDiv => (136, "FDiv")
  | .uMod => (137, "UMod")
  | .sRem => (138, "SRem")
  | .fRem => (140, "FRem")
  | .isNan => (156, "IsNan")
  | .isInf => (157, "IsInf")
  | .logicalEqual => (164, "LogicalEqual")
  | .logicalNotEqual => (165, "LogicalNotEqual")
  | .logicalOr => (166, "LogicalOr")
  | .logicalAnd => (167, "LogicalAnd")
  | .logicalNot => (168, "LogicalNot")
  | .select => (169, "Select")
  | .iEqual => (170, "IEqual")
  | .iNotEqual => (171, "INotEqual")
  | .uGreaterThan => (172, "UGreaterThan")
  | .sGreaterThan => (173, "SGreaterThan")
  | .uGreaterThanEqual => (174, "UGreaterThanEqual")
  | .sGreaterThanEqual => (175, "SGreaterThanEqual")
  | .uLessThan => (176, "ULessThan")
  | .sLessThan => (177, "SLessThan")
  | .uLessThanEqual => (178, "ULessThanEqual")
  | .sLessThanEqual => (179, "SLessThanEqual")
  | .fOrdEqual => (180, "FOrdEqual")
  | .fUnordEqual => (181, "FUnordEqual")
  | .fOrdNotEqual => (182, "FOrdNotEqual")
  | .fUnordNotEqual => (183, "FUnordNotEqual")
  | .fOrdLessThan => (184, "FOrdLessThan")
  | .fUnordLessThan => (185, "FUnordLessThan")
  | .fOrdGreaterThan => (186, "FOrdGreaterThan")
  | .fUnordGreaterThan => (187, "FUnordGreaterThan")
  | .fOrdLessThanEqual => (188, "FOrdLessThanEqual")
  | .fUnordLessThanEqual => (189, "FUnordLessThanEqual")
  | .fOrdGreaterThanEqual => (190, "FOrdGreaterThanEqual")
  | .fUnordGreaterThanEqual => (191, "FUnordGreaterThanEqual")
  | .shiftRightLogical => (194, "ShiftRightLogical")
  | .shiftRightArithmetic => (195, "ShiftRightArithmetic")
  | .shiftLeftLogical => (196, "ShiftLeftLogical")
  | .bitwiseOr => (197, "BitwiseOr")
  | .bitwiseXor => (198, "BitwiseXor")
  | .bitwiseAnd => (199, "BitwiseAnd")
  | .not => (200, "Not")
  | .bitCount => (205, "BitCount")
  | .controlBarrier => (224, "ControlBarrier")
  | .phi => (245, "Phi")
  | .label => (248, "Label")
  | .branch => (249, "Branch")
  | .branchConditional => (250, "BranchConditional")
  | .switch => (251, "Switch")
  | .ret => (253, "Return")
  | .retValue => (254, "ReturnValue")
  | .unreachable => (255, "Unreachable")

/-- Every opcode, by ascending number. -/
def all : List Opcode :=
  [.undef, .name, .extInstImport, .extInst, .memoryModel, .entryPoint, .executionMode,
    .capability, .typeVoid, .typeBool, .typeInt, .typeFloat, .typeVector, .typeArray,
    .typeStruct, .typePointer, .typeFunction, .constantTrue, .constantFalse, .constant,
    .constantNull, .specConstant, .function, .functionParameter, .functionEnd, .functionCall,
    .variable, .load, .store, .inBoundsAccessChain, .inBoundsPtrAccessChain, .decorate,
    .compositeExtract, .copyObject, .convertFToU, .convertFToS, .convertSToF, .convertUToF,
    .uConvert, .sConvert, .fConvert, .convertPtrToU, .convertUToPtr, .ptrCastToGeneric,
    .genericCastToPtr, .bitcast, .sNegate, .fNegate, .iAdd, .fAdd, .iSub, .fSub, .iMul, .fMul,
    .uDiv, .sDiv, .fDiv, .uMod, .sRem, .fRem, .isNan, .isInf, .logicalEqual, .logicalNotEqual,
    .logicalOr, .logicalAnd, .logicalNot, .select, .iEqual, .iNotEqual, .uGreaterThan,
    .sGreaterThan, .uGreaterThanEqual, .sGreaterThanEqual, .uLessThan, .sLessThan,
    .uLessThanEqual, .sLessThanEqual, .fOrdEqual, .fUnordEqual, .fOrdNotEqual, .fUnordNotEqual,
    .fOrdLessThan, .fUnordLessThan, .fOrdGreaterThan, .fUnordGreaterThan, .fOrdLessThanEqual,
    .fUnordLessThanEqual, .fOrdGreaterThanEqual, .fUnordGreaterThanEqual, .shiftRightLogical,
    .shiftRightArithmetic, .shiftLeftLogical, .bitwiseOr, .bitwiseXor, .bitwiseAnd, .not,
    .bitCount, .controlBarrier, .phi, .label, .branch, .branchConditional, .switch, .ret,
    .retValue, .unreachable]

def code (op : Opcode) : UInt16 := op.entry.1

def shortName (op : Opcode) : String := op.entry.2

def mnemonic (op : Opcode) : String := "Op" ++ op.shortName

def ofCode? (code : UInt16) : Option Opcode := all.find? (·.code == code)

/-- The position of the string operand, for the opcodes that have one. -/
def textOperand? : Opcode → Option Nat
  | .extInstImport | .name => some 1
  | .entryPoint => some 2
  | _ => none

@[simp] theorem ofCode?_code (op : Opcode) : ofCode? op.code = some op := by cases op <;> rfl

end Opcode

end SpirvKernel
