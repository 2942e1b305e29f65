/-!
# Types

The structural types of kernels and the classes by which instructions are chosen for them.
-/

namespace SpirvKernel

/-! ## Widths and address spaces -/

/-- Integers carry no sign; operations say how they read their operands. -/
inductive IntWidth where
  | i8 | i16 | i32 | i64
  deriving DecidableEq, Repr

namespace IntWidth

def all : List IntWidth := [.i8, .i16, .i32, .i64]

def bits : IntWidth → Nat
  | .i8 => 8
  | .i16 => 16
  | .i32 => 32
  | .i64 => 64

/-- The bits that a value of this width may have set. -/
def mask : IntWidth → UInt64
  | .i8 => 0xFF
  | .i16 => 0xFFFF
  | .i32 => 0xFFFFFFFF
  | .i64 => 0xFFFFFFFFFFFFFFFF

def name : IntWidth → String
  | .i8 => "I8"
  | .i16 => "I16"
  | .i32 => "I32"
  | .i64 => "I64"

end IntWidth

inductive FloatWidth where
  | f16 | f32 | f64
  deriving DecidableEq, Repr

namespace FloatWidth

def all : List FloatWidth := [.f16, .f32, .f64]

def bits : FloatWidth → Nat
  | .f16 => 16
  | .f32 => 32
  | .f64 => 64

/-- The bits that a pattern of this width may have set. -/
def mask : FloatWidth → UInt64
  | .f16 => 0xFFFF
  | .f32 => 0xFFFFFFFF
  | .f64 => 0xFFFFFFFFFFFFFFFF

def name : FloatWidth → String
  | .f16 => "F16"
  | .f32 => "F32"
  | .f64 => "F64"

end FloatWidth

/-- The memory that a pointer leads to. -/
inductive AddressSpace where
  /-- Memory of the whole device. -/
  | global
  /-- Memory of one work group. -/
  | shared
  /-- Memory of one work item. -/
  | local
  /-- Any of these, known only when the kernel runs. -/
  | generic
  deriving DecidableEq, Repr

namespace AddressSpace

def all : List AddressSpace := [.global, .shared, .local, .generic]

def name : AddressSpace → String
  | .global => "Global"
  | .shared => "Shared"
  | .local => "Local"
  | .generic => "Generic"

end AddressSpace

/-! ## Types -/

inductive Ty where
  | void
  | bool
  | int (width : IntWidth)
  | float (width : FloatWidth)
  | vector (elem : Ty) (count : UInt32)
  | array (elem : Ty) (length : UInt32)
  | struct (fields : List Ty)
  | pointer (pointee : Ty) (space : AddressSpace)
  deriving Repr

namespace Ty

mutual

def decEq : (s t : Ty) → Decidable (s = t)
  | .void, .void | .bool, .bool => isTrue rfl
  | .int v, .int w => if h : v = w then isTrue (by rw [h]) else isFalse (by simp [h])
  | .float v, .float w => if h : v = w then isTrue (by rw [h]) else isFalse (by simp [h])
  | .vector s m, .vector t n | .array s m, .array t n =>
    if h : m = n then
      match decEq s t with
      | isTrue e => isTrue (by rw [h, e])
      | isFalse e => isFalse (by simp [e])
    else isFalse (by simp [h])
  | .struct ss, .struct ts =>
    match decEqList ss ts with
    | isTrue e => isTrue (by rw [e])
    | isFalse e => isFalse (by simp [e])
  | .pointer s a, .pointer t b =>
    if h : a = b then
      match decEq s t with
      | isTrue e => isTrue (by rw [h, e])
      | isFalse e => isFalse (by simp [e])
    else isFalse (by simp [h])
  | .void, .bool | .void, .int _ | .void, .float _ | .void, .vector _ _ | .void, .array _ _
  | .void, .struct _ | .void, .pointer _ _ => isFalse (by simp)
  | .bool, .void | .bool, .int _ | .bool, .float _ | .bool, .vector _ _ | .bool, .array _ _
  | .bool, .struct _ | .bool, .pointer _ _ => isFalse (by simp)
  | .int _, .void | .int _, .bool | .int _, .float _ | .int _, .vector _ _ | .int _, .array _ _
  | .int _, .struct _ | .int _, .pointer _ _ => isFalse (by simp)
  | .float _, .void | .float _, .bool | .float _, .int _ | .float _, .vector _ _
  | .float _, .array _ _ | .float _, .struct _ | .float _, .pointer _ _ => isFalse (by simp)
  | .vector _ _, .void | .vector _ _, .bool | .vector _ _, .int _ | .vector _ _, .float _
  | .vector _ _, .array _ _ | .vector _ _, .struct _ | .vector _ _, .pointer _ _ =>
    isFalse (by simp)
  | .array _ _, .void | .array _ _, .bool | .array _ _, .int _ | .array _ _, .float _
  | .array _ _, .vector _ _ | .array _ _, .struct _ | .array _ _, .pointer _ _ =>
    isFalse (by simp)
  | .struct _, .void | .struct _, .bool | .struct _, .int _ | .struct _, .float _
  | .struct _, .vector _ _ | .struct _, .array _ _ | .struct _, .pointer _ _ => isFalse (by simp)
  | .pointer _ _, .void | .pointer _ _, .bool | .pointer _ _, .int _ | .pointer _ _, .float _
  | .pointer _ _, .vector _ _ | .pointer _ _, .array _ _ | .pointer _ _, .struct _ =>
    isFalse (by simp)

def decEqList : (ss ts : List Ty) → Decidable (ss = ts)
  | [], [] => isTrue rfl
  | [], _ :: _ | _ :: _, [] => isFalse (by simp)
  | s :: ss, t :: ts =>
    match decEq s t with
    | isTrue e =>
      match decEqList ss ts with
      | isTrue es => isTrue (by rw [e, es])
      | isFalse es => isFalse (by simp [es])
    | isFalse e => isFalse (by simp [e])

end

instance : DecidableEq Ty := decEq

def i32 : Ty := .int .i32

def i64 : Ty := .int .i64

/-! ## Parts -/

def pointee? : Ty → Option Ty
  | .pointer pointee _ => some pointee
  | _ => none

def space? : Ty → Option AddressSpace
  | .pointer _ space => some space
  | _ => none

/-- The type of a field of a struct or of an element of an array or vector. -/
def field? : Ty → UInt32 → Option Ty
  | .struct fields, i => fields[i.toNat]?
  | .array elem n, i | .vector elem n, i => if i < n then some elem else none
  | _, _ => none

/-! ## Text -/

mutual

def text : Ty → String
  | .void => "void"
  | .bool => "bool"
  | .int w => s!"i{w.bits}"
  | .float w => s!"f{w.bits}"
  | .vector elem n => s!"<{n.toNat} x " ++ elem.text ++ ">"
  | .array elem n => "[" ++ elem.text ++ s!"; {n.toNat}]"
  | .struct fields => "\x7b" ++ ", ".intercalate (fieldTexts fields) ++ "\x7d"
  | .pointer pointee space => pointee.text ++ "* " ++ space.name

def fieldTexts : List Ty → List String
  | [] => []
  | t :: ts => t.text :: fieldTexts ts

end

end Ty

/-! ## Scalar classes -/

/-- What decides which instruction computes with values of a type. -/
inductive ScalarClass where
  | bool
  | int (width : IntWidth)
  | float (width : FloatWidth)
  | pointer
  | other
  deriving DecidableEq, Repr

def ScalarClass.text : ScalarClass → String
  | .bool => "Bool"
  | .int w => s!"Int({w.name})"
  | .float w => s!"Float({w.name})"
  | .pointer => "Pointer"
  | .other => "Other"

/-- A vector has the class of its elements, but there are no vectors of pointers. -/
def Ty.scalarClass : Ty → ScalarClass
  | .bool => .bool
  | .int w => .int w
  | .float w => .float w
  | .pointer _ _ => .pointer
  | .vector elem _ =>
    match elem.scalarClass with
    | .pointer => .other
    | c => c
  | .void | .array _ _ | .struct _ => .other

end SpirvKernel
