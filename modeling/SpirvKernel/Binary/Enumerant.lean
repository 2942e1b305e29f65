import SpirvKernel.Binary.Word

/-!
# Enumerants

The numbered operands of kernel modules: capabilities, storage classes, decorations and builtins.
-/

namespace SpirvKernel

/-! ## Capabilities -/

inductive Capability where
  | addresses | kernel | float16 | float64 | int64 | int16 | genericPointer | int8
  deriving DecidableEq, Repr

namespace Capability

/-- Every capability, by ascending number. -/
def all : List Capability :=
  [.addresses, .kernel, .float16, .float64, .int64, .int16, .genericPointer, .int8]

def number : Capability → Word
  | .addresses => 4
  | .kernel => 6
  | .float16 => 9
  | .float64 => 10
  | .int64 => 11
  | .int16 => 22
  | .genericPointer => 38
  | .int8 => 39

/-- The place of a capability in the bit mask of a set. -/
def bit : Capability → Nat
  | .addresses => 0
  | .kernel => 1
  | .float16 => 2
  | .float64 => 3
  | .int64 => 4
  | .int16 => 5
  | .genericPointer => 6
  | .int8 => 7

theorem mem_all (c : Capability) : c ∈ all := by cases c <;> decide

end Capability

/-- A set of capabilities, given by membership. -/
@[ext] structure CapabilitySet where
  has : Capability → Bool

namespace CapabilitySet

instance : Membership Capability CapabilitySet := ⟨fun s c => s.has c = true⟩

instance (c : Capability) (s : CapabilitySet) : Decidable (c ∈ s) :=
  inferInstanceAs (Decidable (s.has c = true))

def insert (s : CapabilitySet) (c : Capability) : CapabilitySet := ⟨fun d => d = c || s.has d⟩

def union (s t : CapabilitySet) : CapabilitySet := ⟨fun c => s.has c || t.has c⟩

/-- What every kernel module needs. -/
def base : CapabilitySet := ⟨fun c => c = .addresses || c = .kernel⟩

/-- The members, by ascending number. -/
def toList (s : CapabilitySet) : List Capability := Capability.all.filter s.has

/-- Bits that stand for no capability are dropped. -/
def ofMask (mask : Nat) : CapabilitySet := ⟨fun c => mask.testBit c.bit⟩

def mask (s : CapabilitySet) : Nat := s.toList.foldl (fun mask c => mask ||| 1 <<< c.bit) 0

theorem mem_def {s : CapabilitySet} {c : Capability} : c ∈ s ↔ s.has c = true := Iff.rfl

@[simp] theorem mem_insert {s : CapabilitySet} {c d : Capability} :
    d ∈ s.insert c ↔ d = c ∨ d ∈ s := by
  simp [insert, mem_def]

@[simp] theorem mem_toList {s : CapabilitySet} {c : Capability} : c ∈ s.toList ↔ c ∈ s := by
  simp [toList, mem_def, Capability.mem_all]

end CapabilitySet

/-! ## Storage -/

/-- Where a variable lives. -/
inductive StorageClass where
  | uniformConstant | input | workgroup | crossWorkgroup | function | generic
  deriving DecidableEq, Repr

def StorageClass.number : StorageClass → Word
  | .uniformConstant => 0
  | .input => 1
  | .workgroup => 4
  | .crossWorkgroup => 5
  | .function => 7
  | .generic => 8

/-! ## Decorations and builtins -/

inductive Decoration where
  | specId | builtIn
  deriving DecidableEq, Repr

def Decoration.number : Decoration → Word
  | .specId => 1
  | .builtIn => 11

/-- Variables that the device fills in for each work item. -/
inductive BuiltIn where
  | numWorkgroups | workgroupSize | workgroupId | localInvocationId | globalInvocationId
  deriving DecidableEq, Repr

def BuiltIn.number : BuiltIn → Word
  | .numWorkgroups => 24
  | .workgroupSize => 25
  | .workgroupId => 26
  | .localInvocationId => 27
  | .globalInvocationId => 28

/-! ## Fixed operands -/

/-- Physical 64-bit addresses. -/
def addressingModel : Word := 2

/-- The memory model of OpenCL. -/
def memoryModel : Word := 2

/-- The kernel execution model. -/
def executionModel : Word := 6

/-- The execution mode that fixes the size of a work group. -/
def localSizeMode : Word := 17

/-- The scope of one work group. -/
def workgroupScope : Word := 2

/-- Sequentially consistent, over the memory of the work group. -/
def barrierSemantics : Word := 0x110

end SpirvKernel
