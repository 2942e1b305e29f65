import SpirvKernel.Binary.Enumerant
import SpirvKernel.Id.Supply

/-!
# The dictionary of declarations

A module declares each type, constant and builtin variable once, before its first use. The dictionary
answers a request with the identifier of the declaration and makes the declaration, and all that it
rests on, when it is asked for the first time.
-/

namespace SpirvKernel

/-- What is declared at most once. -/
inductive Declaration where
  /-- A type other than a pointer. -/
  | type (t : Ty)
  | pointer (pointee : Ty) (storage : StorageClass)
  | constant (c : Constant)
  | signature (result : Ty) (params : List Ty)
  | builtin (b : BuiltIn)
  deriving DecidableEq, Repr

structure Dictionary where
  supply : Supply
  /-- The declarations with their identifiers, the latest first. -/
  known : List (Declaration × Id)
  annotations : List Instruction
  declarations : List Instruction
  capabilities : CapabilitySet
  /-- The builtin variables, in the order of first use. -/
  interface : List Id
  /-- The numbers under which the host sets the sizes of dynamic storage. -/
  specIds : List Word

abbrev Declare (α : Type) := Attempt Fault Dictionary α

/-! ## Numbers of the language -/

def AddressSpace.storage : AddressSpace → StorageClass
  | .global => .crossWorkgroup
  | .shared => .workgroup
  | .local => .function
  | .generic => .generic

def IntWidth.capability? : IntWidth → Option Capability
  | .i8 => some .int8
  | .i16 => some .int16
  | .i32 => none
  | .i64 => some .int64

def FloatWidth.capability? : FloatWidth → Option Capability
  | .f16 => some .float16
  | .f32 => none
  | .f64 => some .float64

namespace Constant

def opcode : Constant → Opcode
  | .bool true => .constantTrue
  | .bool false => .constantFalse
  | .int .. | .float .. => .constant
  | .null _ => .constantNull

def literal : Constant → List Word
  | .int w bits => Word.ofLiteral bits (w.bits > 32)
  | .float w bits => Word.ofLiteral bits (w.bits > 32)
  | .bool _ | .null _ => []

end Constant

/-- The variable in which the device keeps a grid builtin. -/
def GridBuiltin.variable : GridBuiltin → BuiltIn
  | .globalIndex => .globalInvocationId
  | .groupIndex => .localInvocationId
  | .gridIndex => .workgroupId
  | .groupDimension => .workgroupSize
  | .gridDimension => .numWorkgroups

/-- The type of the builtin variables. -/
def BuiltIn.type : Ty := .vector .i64 3

namespace Dictionary

def new (supply : Supply) : Dictionary where
  supply := supply
  known := []
  annotations := []
  declarations := []
  capabilities := .base
  interface := []
  specIds := []

def get? (d : Dictionary) (key : Declaration) : Option Id := d.known.lookup key

def size (d : Dictionary) : Nat := d.known.length

def layout (d : Dictionary) : Layout Instruction where
  annotations := d.annotations
  declarations := d.declarations

/-! ## Steps -/

def onSupply (x : Attempt Fault Supply α) : Declare α :=
  Attempt.onPart (·.supply) (fun d s => { d with supply := s }) x

def need (c : Option Capability) : Declare Unit :=
  match c with
  | some c => Attempt.change fun d => { d with capabilities := d.capabilities.insert c }
  | none => pure ()

def emit (op : Opcode) (operands : List Word) : Declare Unit :=
  let i := Instruction.of op operands
  if i.Fits then Attempt.change fun d => { d with declarations := d.declarations ++ [i] }
  else Attempt.fail (.oversized op)

def decorate (target : Id) (decoration : Decoration) (value : Word) : Declare Unit :=
  Attempt.change fun d => { d with
    annotations := d.annotations ++
      [Instruction.of .decorate [target.word, decoration.number, value]] }

/-- Draws an identifier and declares it; a result type stands before it. -/
def define (op : Opcode) (type : Option Id) (operands : List Word) : Declare Id := do
  let id ← onSupply Supply.draw
  emit op ((type.map Id.word).toList ++ id.word :: operands)
  pure id

/-- The identifier of a declaration, which `make` makes the first time. -/
def once (key : Declaration) (make : Declare Id) : Declare Id := do
  let d ← Attempt.state
  match d.get? key with
  | some id => pure id
  | none =>
    let id ← make
    Attempt.change fun d => { d with known := (key, id) :: d.known }
    pure id

/-! ## Types and constants

A declaration that rests on a type takes the step that declares the type, so that types, the pointers
to them and the lengths of arrays can be declared by recursion on the type alone. -/

def pointerTo (pointee : Ty) (declared : Declare Id) (storage : StorageClass) : Declare Id :=
  once (.pointer pointee storage) do
    need (if storage = .generic then some .genericPointer else none)
    let id ← declared
    define .typePointer none [storage.number, id.word]

/-- Bits beyond the width of a constant are ignored. -/
def constantOf (declared : Declare Id) (c : Constant) : Declare Id :=
  once (.constant c.truncate) do
    let id ← declared
    define c.truncate.opcode (some id) c.truncate.literal

def intId (w : IntWidth) : Declare Id :=
  once (.type (.int w)) do
    need w.capability?
    define .typeInt none [UInt32.ofNat w.bits, 0]

def floatId (w : FloatWidth) : Declare Id :=
  once (.type (.float w)) do
    need w.capability?
    define .typeFloat none [UInt32.ofNat w.bits]

/-- A constant of 32 bits. -/
def wordId (n : Word) : Declare Id := constantOf (intId .i32) (.ofWord n)

mutual

def typeId : Ty → Declare Id
  | .void => once (.type .void) (define .typeVoid none [])
  | .bool => once (.type .bool) (define .typeBool none [])
  | .int w => intId w
  | .float w => floatId w
  | .vector elem count => once (.type (.vector elem count)) do
    let id ← typeId elem
    define .typeVector none [id.word, count]
  | .array elem length => once (.type (.array elem length)) do
    let id ← typeId elem
    let n ← wordId length
    define .typeArray none [id.word, n.word]
  | .struct fields => once (.type (.struct fields)) do
    let ids ← typeIds fields
    define .typeStruct none (ids.map Id.word)
  | .pointer pointee space => pointerTo pointee (typeId pointee) space.storage

def typeIds : List Ty → Declare (List Id)
  | [] => pure []
  | t :: ts => do
    let id ← typeId t
    let ids ← typeIds ts
    pure (id :: ids)

end

def pointerId (pointee : Ty) (storage : StorageClass) : Declare Id :=
  pointerTo pointee (typeId pointee) storage

def signatureId (result : Ty) (params : List Ty) : Declare Id :=
  once (.signature result params) do
    let ids ← typeIds (result :: params)
    define .typeFunction none (ids.map Id.word)

def constantId (c : Constant) : Declare Id := constantOf (typeId c.type) c

/-! ## Variables -/

/-- The variable of a builtin, which joins the interface when it is declared. -/
def builtinId (b : BuiltIn) : Declare Id :=
  once (.builtin b) do
    let pointer ← pointerId BuiltIn.type .input
    let id ← define .variable (some pointer) [StorageClass.input.number]
    decorate id .builtIn b.number
    Attempt.change fun d => { d with interface := d.interface ++ [id] }
    pure id

/-- A number that the host may set, 1 unless it does. -/
def hostNumber (word : Id) : Declare Id := do
  let id ← define .specConstant (some word) [1]
  let d ← Attempt.state
  let spec := UInt32.ofNat d.specIds.length
  decorate id .specId spec
  Attempt.change fun d => { d with specIds := d.specIds ++ [spec] }
  pure id

/-- A pointer to an array whose length the host may set. -/
def dynamicArrayPointer (elem : Ty) : Declare Id := do
  let word ← typeId .i32
  let elem ← typeId elem
  let length ← hostNumber word
  let array ← define .typeArray none [elem.word, length.word]
  define .typePointer none [StorageClass.workgroup.number, array.word]

/-- A variable in the memory of the work group, a new one for each request. -/
def groupVariable (elem : Ty) (extent : Extent) : Declare Id := do
  let pointer ←
    match extent with
    | .single => pointerId elem .workgroup
    | .fixed n => pointerId (.array elem n) .workgroup
    | .dynamic => dynamicArrayPointer elem
  define .variable (some pointer) [StorageClass.workgroup.number]

/-! ## Requests as data -/

inductive Request where
  | type (t : Ty)
  | pointer (pointee : Ty) (storage : StorageClass)
  | signature (result : Ty) (params : List Ty)
  | constant (c : Constant)
  | word (n : Word)
  | builtin (b : BuiltIn)
  | groupVariable (elem : Ty) (extent : Extent)
  deriving DecidableEq, Repr

def perform : Request → Declare Id
  | .type t => typeId t
  | .pointer pointee storage => pointerId pointee storage
  | .signature result params => signatureId result params
  | .constant c => constantId c
  | .word n => wordId n
  | .builtin b => builtinId b
  | .groupVariable elem extent => groupVariable elem extent

end Dictionary

end SpirvKernel
