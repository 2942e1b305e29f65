import SpirvKernel.Emission.State
import SpirvKernel.Selection.Conversion
import SpirvKernel.Selection.Intrinsic

/-!
# Emission of values

Each value becomes the instructions that compute it. Its operands are looked up before its own type
and identifier are asked for, except in a phi, which may take values from blocks that come later.
-/

namespace SpirvKernel.Emission

def unitWord (t : Ty) (one : Bool) : Emit Word := do
  let c ← Attempt.ofExcept (t.unit one)
  constantWord c

def emitConversion (t : Task) (v : Value) (source : ValueId) (flags : ConvertFlags) :
    Emit Unit := do
  let type ← typeOf t source
  let conversion ← Attempt.ofExcept (Conversion.between type v.type flags)
  let x ← operand source
  match conversion with
  | .direct op => emitResult v op [x]
  | .fromBool =>
    let one ← unitWord v.type true
    let zero ← unitWord v.type false
    emitResult v .select [x, one, zero]
  | .toBool op =>
    let zero ← unitWord type false
    emitResult v op [x, zero]

def emitCall (t : Task) (v : Value) (callee : Callee) (args : List ValueId)
    (flags : ArithmeticFlags) : Emit Unit := do
  let xs ← args.mapM operand
  match callee with
  | .method m =>
    let function ← Attempt.ofExcept (t.frame.functions.get m)
    emitResult v .functionCall (function.word :: xs)
  | .intrinsic f =>
    match args with
    | [] => Attempt.fail (.unsupported (.noOperands f))
    | first :: _ =>
      let type ← typeOf t first
      let form ← Attempt.ofExcept (f.form type.scalarClass flags)
      match form with
      | .core op => emitResult v op xs
      | .extended number => emitResult v .extInst (t.frame.openCl.word :: number :: xs)

/-- The operands of a phi, and the places from `start` on of those to come, which hold zero. -/
def phiOperands (t : Task) (start : Nat) :
    List (ValueId × BlockId) → Emit (List Word × List (Nat × ValueId))
  | [] => pure ([], [])
  | (v, b) :: incoming => do
    let _ ← typeOf t v
    let s ← Attempt.state
    let block ← label b
    let (operands, missing) ← phiOperands t (start + 2) incoming
    match s.work.table.get? (.value v) with
    | some id => pure (id.word :: block :: operands, missing)
    | none => pure (0 :: block :: operands, (start, v) :: missing)

def emitPhi (t : Task) (v : Value) (incoming : List (ValueId × BlockId)) : Emit Unit := do
  let (type, id) ← result v
  let (operands, missing) ← phiOperands t 2 incoming
  let s ← Attempt.state
  let position := s.work.output.functions.length
  emit .phi (type :: id :: operands)
  onWork (Attempt.change fun w => { w with
    pending := w.pending ++ missing.map fun (place, value) => ⟨position, place, value⟩ })

/-- Loads a builtin and takes one component, cut to the width of the value. -/
def emitGridIndex (v : Value) (builtin : GridBuiltin) (dimension : UInt8) : Emit Unit := do
  if dimension > 2 then Attempt.fail (.unsupported (.gridDimension dimension))
  else match v.type with
    | .int width =>
      let vars ← declare (Dictionary.builtinId builtin.variable)
      let vector ← typeWord BuiltIn.type
      let wide ← typeWord .i64
      let loaded ← fresh
      emit .load [vector, loaded, vars.word]
      if width = .i64 then emitResult v .compositeExtract [loaded, dimension.toUInt32]
      else
        let extracted ← fresh
        emit .compositeExtract [wide, extracted, loaded, dimension.toUInt32]
        emitResult v .uConvert [extracted]
    | type => Attempt.fail (.unsupported (.gridIndexType type))

def emitBarrier : Emit Unit := do
  let scope ← constantWord (.ofWord workgroupScope)
  let semantics ← constantWord (.ofWord barrierSemantics)
  emit .controlBarrier [scope, scope, semantics]

def emitValue (t : Task) (v : Value) : Emit Unit :=
  match v.kind with
  | .constant c => do
    let id ← declare (Dictionary.constantId c)
    onTable (IdTable.bind (.value v.id) id)
  | .undef => emitResult v .undef []
  | .binary op lhs rhs flags => do
    let opcode ← Attempt.ofExcept (op.opcode v.type.scalarClass flags)
    let x ← operand lhs
    let y ← operand rhs
    emitResult v opcode [x, y]
  | .unary op source => do
    let opcode ← Attempt.ofExcept (op.opcode v.type.scalarClass)
    let x ← operand source
    emitResult v opcode [x]
  | .compare op lhs rhs flags => do
    let type ← typeOf t lhs
    let opcode ← Attempt.ofExcept (op.opcode type.scalarClass flags)
    let x ← operand lhs
    let y ← operand rhs
    emitResult v opcode [x, y]
  | .convert source flags => emitConversion t v source flags
  | .select cond thenValue elseValue => do
    let c ← operand cond
    let x ← operand thenValue
    let y ← operand elseValue
    emitResult v .select [c, x, y]
  -- The memory was placed at the top of the entry block.
  | .alloca .. =>
    match t.storage.kindOf? v.id with
    | some _ => pure ()
    | none => Attempt.fail (.unplannedAllocation v.id)
  | .load address => do
    let p ← operand address
    emitResult v .load [p]
  | .store address source => do
    let p ← operand address
    let x ← operand source
    emit .store [p, x]
  | .elementAddress base index => do
    let p ← operand base
    let i ← operand index
    emitResult v .inBoundsPtrAccessChain [p, i]
  | .fieldAddress base field => do
    let p ← operand base
    let i ← constantWord (.ofWord field)
    emitResult v .inBoundsAccessChain [p, i]
  | .extractField aggregate field => do
    let x ← operand aggregate
    emitResult v .compositeExtract [x, field]
  | .call callee args flags => emitCall t v callee args flags
  | .phi incoming => emitPhi t v incoming
  | .gridIndex builtin dimension => emitGridIndex v builtin dimension
  | .barrier => emitBarrier
  | .inlineAssembly .. => Attempt.fail (.unsupported .inlineAssembly)

end SpirvKernel.Emission
