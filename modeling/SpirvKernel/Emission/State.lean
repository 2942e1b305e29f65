import SpirvKernel.Dictionary
import SpirvKernel.Id.Table
import SpirvKernel.Kernel.Storage

/-!
# The state of emission

A task says which method is emitted and what it refers to. Emission changes the module's dictionary,
the work on the method and, at the end, the module.
-/

namespace SpirvKernel

/-! ## What the functions of a module share -/

/-- The identifiers of functions by method; the last one given to a method counts. -/
structure FunctionTable where
  entries : List (MethodId × Id)
  deriving DecidableEq, Repr

namespace FunctionTable

def empty : FunctionTable := ⟨[]⟩

def insert (t : FunctionTable) (m : MethodId) (id : Id) : FunctionTable :=
  ⟨(m, id) :: t.entries.filter (·.1 ≠ m)⟩

def get? (t : FunctionTable) (m : MethodId) : Option Id := t.entries.lookup m

def get (t : FunctionTable) (m : MethodId) : Except Fault Id :=
  match t.get? m with
  | some id => .ok id
  | none => .error (.unknownMethod m)

def size (t : FunctionTable) : Nat := t.entries.length

theorem lookup_filter_ne {m n : MethodId} (h : n ≠ m) (entries : List (MethodId × Id)) :
    (entries.filter (·.1 ≠ m)).lookup n = entries.lookup n := by
  induction entries with
  | nil => rfl
  | cons entry entries ih =>
    obtain ⟨k, id⟩ := entry
    rw [List.filter_cons]
    by_cases hk : k = m
    · rw [if_neg (by simp [hk]), ih, List.lookup_cons, hk, beq_eq_false_iff_ne.mpr h]
    · rw [if_pos (by simp [hk]), List.lookup_cons, List.lookup_cons, ih]

theorem get?_insert (t : FunctionTable) (m n : MethodId) (id : Id) :
    (t.insert m id).get? n = if n = m then some id else t.get? n := by
  rw [get?, insert, List.lookup_cons]
  by_cases h : n = m
  · rw [if_pos h, h, beq_self_eq_true]
  · rw [if_neg h, beq_eq_false_iff_ne.mpr h]
    exact lookup_filter_ne h t.entries

end FunctionTable

structure Frame where
  functions : FunctionTable
  /-- The import of the extended instruction set. -/
  openCl : Id
  /-- Whether functions carry their names. -/
  debugNames : Bool

/-- The import takes the first identifier; the functions follow in the order of the program. -/
def Frame.ofProgram (p : Program) (debugNames : Bool) : Attempt Fault Supply Frame := do
  let openCl ← Supply.draw
  let functions ← p.methods.foldlM (fun table m => table.insert m.id <$> Supply.draw)
    FunctionTable.empty
  pure ⟨functions, openCl, debugNames⟩

/-! ## The work on one method -/

structure Task where
  frame : Frame
  method : Method
  storage : Storage
  /-- The identifier of the function. -/
  id : Id
  /-- The entry point, if the method is the kernel. -/
  entry : Option EntryPoint

/-- A phi operand that has no identifier yet. -/
structure Pending where
  /-- Which instruction of the function. -/
  instruction : Nat
  /-- Which of its operands. -/
  operand : Nat
  value : ValueId
  deriving DecidableEq, Repr

structure Work where
  table : IdTable
  output : Layout Instruction
  stage : Stage
  pending : List Pending
  deriving DecidableEq

/-- At most one identifier for each parameter and block, and three for a value. -/
def Method.idBudget (m : Method) : Nat :=
  m.params.length + m.blocks.length + 3 * m.values.length + 1

/-- Takes up a method and sets its identifiers aside. -/
def Task.start (frame : Frame) (m : Method) (storage : Storage) (entry : Option EntryPoint) :
    Attempt Fault Supply (Task × Work) := do
  let id ← Attempt.ofExcept (frame.functions.get m.id)
  let range ← Supply.reserve m.idBudget
  pure (⟨frame, m, storage, id, entry⟩, ⟨.new range, .empty, .constructed, []⟩)

structure Emission where
  dictionary : Dictionary
  /-- The module as far as it is put together. -/
  target : Layout Instruction
  work : Work

abbrev Emit (α : Type) := Attempt Fault Emission α

namespace Emission

def declare (x : Declare α) : Emit α :=
  Attempt.onPart (·.dictionary) (fun s d => { s with dictionary := d }) x

def onWork (x : Attempt Fault Work α) : Emit α :=
  Attempt.onPart (·.work) (fun s w => { s with work := w }) x

def onTable (x : Attempt Fault IdTable α) : Emit α :=
  onWork (Attempt.onPart (·.table) (fun w t => { w with table := t }) x)

/-- Appends an instruction to a section of the method's own output. -/
def emitTo (s : Section) (op : Opcode) (operands : List Word) : Emit Unit :=
  let i := Instruction.of op operands
  if i.Fits then onWork (Attempt.change fun w => { w with output := w.output.append s [i] })
  else Attempt.fail (.oversized op)

def emit (op : Opcode) (operands : List Word) : Emit Unit := emitTo .functions op operands

/-! ## Operands and results -/

def typeWord (t : Ty) : Emit Word := Id.word <$> declare (Dictionary.typeId t)

def constantWord (c : Constant) : Emit Word := Id.word <$> declare (Dictionary.constantId c)

def fresh : Emit Word := Id.word <$> onTable IdTable.fresh

def operand (v : ValueId) : Emit Word := Id.word <$> onTable (IdTable.load (.value v))

def label (b : BlockId) : Emit Word := Id.word <$> onTable (IdTable.load (.block b))

/-- The type of a parameter or value of the method. -/
def typeOf (t : Task) (v : ValueId) : Emit Ty :=
  Attempt.require (.unknownValue v) (t.method.typeOf? v)

/-- The words of a value's type and of its new identifier. -/
def result (v : Value) : Emit (Word × Word) := do
  let type ← typeWord v.type
  let id ← onTable (IdTable.allocate (.value v.id))
  pure (type, id.word)

/-- The instruction that computes a value, its type and identifier before the operands. -/
def emitResult (v : Value) (op : Opcode) (operands : List Word) : Emit Unit := do
  let (type, id) ← result v
  emit op (type :: id :: operands)

end Emission

end SpirvKernel
