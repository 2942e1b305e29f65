import SpirvKernel.Attempt
import SpirvKernel.Kernel.Method

/-!
# Drafts

A draft is a method under construction. Values are numbered as they are made, parameters included,
and go to the end of the current block; blocks are numbered as they are opened. An edit that is
refused leaves the draft as it was.
-/

namespace SpirvKernel

/-- A block that may still lack its terminator. -/
structure OpenBlock where
  body : List Value := []
  terminator : Option Terminator := none
  deriving DecidableEq, Repr

structure Draft where
  id : MethodId
  name : String
  returnType : Ty
  params : List Param
  /-- The type of each value by its number. -/
  types : List Ty
  /-- The blocks by their number. -/
  blocks : List OpenBlock
  current : Nat
  current_lt : current < blocks.length
  deriving DecidableEq

namespace Draft

inductive Error where
  | noBlock (block : BlockId)
  | noValue (count : Nat) (value : ValueId)
  | notPointer (value : ValueId)
  | notAddressable (field : UInt32) (base : ValueId)
  | noField (field : UInt32) (aggregate : ValueId)
  | terminatedTwice (block : BlockId)
  deriving DecidableEq, Repr

def Error.message : Error → String
  | .noBlock b => s!"block {b.number} not created by this builder"
  | .noValue count v => s!"index out of bounds: the len is {count} but the index is {v.number}"
  | .notPointer v => s!"load through non-pointer value {v.number}"
  | .notAddressable field base =>
    s!"field {field.toNat} not addressable through value {base.number}"
  | .noField field aggregate => s!"no field {field.toNat} in value {aggregate.number}"
  | .terminatedTwice b => s!"block {b.number} terminated twice"

abbrev Step (α : Type) := Attempt Error Draft α

/-- A draft with one open block, the entry, as its current one. -/
def new (id : MethodId) (name : String) (returnType : Ty) : Draft where
  id := id
  name := name
  returnType := returnType
  params := []
  types := []
  blocks := [{}]
  current := 0
  current_lt := by simp

def currentBlock (d : Draft) : BlockId := ⟨d.current⟩

def isTerminated (d : Draft) : Bool :=
  have := d.current_lt
  d.blocks[d.current].terminator.isSome

/-! ## Blocks -/

def newBlock : Step BlockId := fun d =>
  (.ok ⟨d.blocks.length⟩,
    { d with
      blocks := d.blocks ++ [{}]
      current_lt := by simpa using Nat.lt_succ_of_lt d.current_lt })

def positionAt (b : BlockId) : Step Unit := fun d =>
  if h : b.number < d.blocks.length then
    (.ok (), { d with current := b.number, current_lt := h })
  else (.error (.noBlock b), d)

def changeCurrent (f : OpenBlock → OpenBlock) (d : Draft) : Draft :=
  { d with
    blocks := d.blocks.modify d.current f
    current_lt := by simpa using d.current_lt }

/-- Closes the current block. -/
def terminate (t : Terminator) : Step Unit := fun d =>
  if d.isTerminated then (.error (.terminatedTwice d.currentBlock), d)
  else (.ok (), d.changeCurrent fun b => { b with terminator := some t })

/-! ## Values -/

def typeOf (v : ValueId) : Step Ty := do
  let d ← Attempt.state
  Attempt.require (.noValue d.types.length v) d.types[v.number]?

def param (type : Ty) : Step ValueId := fun d =>
  let v : ValueId := ⟨d.types.length⟩
  (.ok v, { d with params := d.params ++ [⟨v, type⟩], types := d.types ++ [type] })

/-- Appends a value to the current block. -/
def add (type : Ty) (kind : ValueKind) : Step ValueId := fun d =>
  let v : ValueId := ⟨d.types.length⟩
  let d := d.changeCurrent fun b => { b with body := b.body ++ [⟨v, type, kind⟩] }
  (.ok v, { d with types := d.types ++ [type] })

def constant (c : Constant) : Step ValueId := add c.type (.constant c)

/-- The result has the type of the left operand. -/
def binary (op : BinaryOp) (lhs rhs : ValueId) (flags : ArithmeticFlags) : Step ValueId := do
  add (← typeOf lhs) (.binary op lhs rhs flags)

def unary (op : UnaryOp) (operand : ValueId) : Step ValueId := do
  add (← typeOf operand) (.unary op operand)

def compare (op : CompareOp) (lhs rhs : ValueId) (flags : ArithmeticFlags) : Step ValueId :=
  add .bool (.compare op lhs rhs flags)

def convert (operand : ValueId) (type : Ty) (flags : ConvertFlags) : Step ValueId :=
  add type (.convert operand flags)

/-- The result has the type of the first alternative. -/
def select (cond thenValue elseValue : ValueId) : Step ValueId := do
  add (← typeOf thenValue) (.select cond thenValue elseValue)

def alloca (elem : Ty) (extent : Extent) (space : AddressSpace) : Step ValueId :=
  add (.pointer elem space) (.alloca elem extent)

def load (address : ValueId) : Step ValueId := do
  let type ← typeOf address
  let pointee ← Attempt.require (.notPointer address) type.pointee?
  add pointee (.load address)

def store (address operand : ValueId) : Step Unit := do
  let _ ← add .void (.store address operand)

def elementAddress (base index : ValueId) : Step ValueId := do
  add (← typeOf base) (.elementAddress base index)

/-- A pointer to a field of what `base` points to, in the same memory. -/
def fieldAddress (base : ValueId) (field : UInt32) : Step ValueId := do
  match ← typeOf base with
  | .pointer pointee space =>
    let type ← Attempt.require (.notAddressable field base) (pointee.field? field)
    add (.pointer type space) (.fieldAddress base field)
  | _ => Attempt.fail (.notAddressable field base)

def extractField (aggregate : ValueId) (field : UInt32) : Step ValueId := do
  let type ← typeOf aggregate
  let fieldType ← Attempt.require (.noField field aggregate) (type.field? field)
  add fieldType (.extractField aggregate field)

def call (callee : Callee) (args : List ValueId) (type : Ty) (flags : ArithmeticFlags) :
    Step ValueId :=
  add type (.call callee args flags)

def phi (type : Ty) (incoming : List (ValueId × BlockId)) : Step ValueId :=
  add type (.phi incoming)

def gridIndex (builtin : GridBuiltin) (dimension : UInt8) (type : Ty) : Step ValueId :=
  add type (.gridIndex builtin dimension)

def barrier : Step Unit := do
  let _ ← add .void .barrier

/-! ## The finished method -/

/-- Control never passes the end of a block that was left open. -/
def finish (d : Draft) : Method where
  id := d.id
  name := d.name
  params := d.params
  returnType := d.returnType
  blocks := d.blocks.mapIdx fun i b => ⟨⟨i⟩, b.body, b.terminator.getD .unreachable⟩

/-! ## Edits as data -/

inductive Edit where
  | newBlock
  | positionAt (block : BlockId)
  | typeOf (value : ValueId)
  | param (type : Ty)
  | add (type : Ty) (kind : ValueKind)
  | constant (c : Constant)
  | binary (op : BinaryOp) (lhs rhs : ValueId) (flags : ArithmeticFlags)
  | unary (op : UnaryOp) (operand : ValueId)
  | compare (op : CompareOp) (lhs rhs : ValueId) (flags : ArithmeticFlags)
  | convert (operand : ValueId) (type : Ty) (flags : ConvertFlags)
  | select (cond thenValue elseValue : ValueId)
  | alloca (elem : Ty) (extent : Extent) (space : AddressSpace)
  | load (address : ValueId)
  | store (address operand : ValueId)
  | elementAddress (base index : ValueId)
  | fieldAddress (base : ValueId) (field : UInt32)
  | extractField (aggregate : ValueId) (field : UInt32)
  | call (callee : Callee) (args : List ValueId) (type : Ty) (flags : ArithmeticFlags)
  | phi (type : Ty) (incoming : List (ValueId × BlockId))
  | gridIndex (builtin : GridBuiltin) (dimension : UInt8) (type : Ty)
  | barrier
  | terminate (terminator : Terminator)
  deriving DecidableEq, Repr

/-- What an edit gives back. -/
inductive Outcome where
  | done
  | value (v : ValueId)
  | block (b : BlockId)
  | type (t : Ty)
  deriving DecidableEq, Repr

def perform : Edit → Step Outcome
  | .newBlock => .block <$> newBlock
  | .positionAt b => (fun _ => .done) <$> positionAt b
  | .typeOf v => .type <$> typeOf v
  | .param t => .value <$> param t
  | .add t kind => .value <$> add t kind
  | .constant c => .value <$> constant c
  | .binary op lhs rhs flags => .value <$> binary op lhs rhs flags
  | .unary op operand => .value <$> unary op operand
  | .compare op lhs rhs flags => .value <$> compare op lhs rhs flags
  | .convert operand t flags => .value <$> convert operand t flags
  | .select cond a b => .value <$> select cond a b
  | .alloca elem extent space => .value <$> alloca elem extent space
  | .load address => .value <$> load address
  | .store address operand => (fun _ => .done) <$> store address operand
  | .elementAddress base index => .value <$> elementAddress base index
  | .fieldAddress base field => .value <$> fieldAddress base field
  | .extractField aggregate field => .value <$> extractField aggregate field
  | .call callee args t flags => .value <$> call callee args t flags
  | .phi t incoming => .value <$> phi t incoming
  | .gridIndex builtin dimension t => .value <$> gridIndex builtin dimension t
  | .barrier => (fun _ => .done) <$> barrier
  | .terminate t => (fun _ => .done) <$> terminate t

/-- The draft after a list of edits, the refused ones passed over. -/
def performAll (d : Draft) (edits : List Edit) : Draft :=
  edits.foldl (fun d e => (perform e d).2) d

end Draft

end SpirvKernel
