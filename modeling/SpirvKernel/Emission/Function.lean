import SpirvKernel.Emission.Storage
import SpirvKernel.Emission.Terminator
import SpirvKernel.Emission.Value

/-!
# Emission of functions

The header of a function is emitted first, its body next; then the work is merged into the module. A
call that fails keeps what it emitted and leaves the stage as it was.
-/

namespace SpirvKernel.Emission

def expect (call : Call) : Emit Unit := do
  let s ← Attempt.state
  if s.work.stage = call.stage then pure ()
  else Attempt.fail (.outOfOrder call s.work.stage)

def setStage (stage : Stage) : Emit Unit :=
  onWork (Attempt.change fun w => { w with stage := stage })

/-! ## The header -/

/-- Kernels give nothing back. -/
def checkResult (t : Task) : Emit Unit :=
  if t.entry.isSome && t.method.returnType ≠ .void then
    Attempt.fail (.unsupported (.kernelResult t.method.name t.method.returnType))
  else pure ()

/-- Declares what the value will need. A fault is left for the body to report. -/
def predeclareValue (v : Value) : Declare Unit :=
  match v.kind with
  | .inlineAssembly .. => pure ()
  | kind =>
    if v.type = .void then pure ()
    else Attempt.tolerate Fault.isRecoverable <|
      match kind with
      | .constant c => Dictionary.constantId c
      | _ => Dictionary.typeId v.type

/-- Declares the types and constants of a body ahead of it. -/
def predeclare (m : Method) : Declare Unit := m.values.forM predeclareValue

def emitParam (p : Param) : Emit Unit := do
  let type ← typeWord p.type
  let id ← onTable (IdTable.allocate (.value p.value))
  emit .functionParameter [type, id.word]

def emitName (t : Task) : Emit Unit :=
  if t.frame.debugNames then emitTo .debug .name (t.id.word :: Literal.encode t.method.name)
  else pure ()

def emitGroupSize (t : Task) : Emit Unit :=
  match t.entry.bind EntryPoint.groupSize with
  | some size =>
    emitTo .executionModes .executionMode [t.id.word, localSizeMode, size.x, size.y, size.z]
  | none => pure ()

def header (t : Task) : Emit Unit := do
  expect .header
  checkResult t
  let type ← typeWord t.method.returnType
  let signature ←
    declare (Dictionary.signatureId t.method.returnType (t.method.params.map (·.type)))
  declare (predeclare t.method)
  emit .function [type, t.id.word, 0, signature.word]
  t.method.params.forM emitParam
  emitName t
  setStage Call.header.next
  emitGroupSize t

/-! ## The body -/

def allocateLabel (b : Block) : Emit Unit := do
  let _ ← onTable (IdTable.allocate (.block b.id))

/-- A block; `first` comes between its label and its values. -/
def emitBlock (t : Task) (first : Emit Unit) (b : Block) : Emit Unit := do
  let id ← label b.id
  emit .label [id]
  first
  b.body.forM (emitValue t)
  emitTerminator t b.terminator

/-- Writes the identifier of a phi operand that was still to come. -/
def resolve (p : Pending) : Emit Unit := do
  let x ← operand p.value
  onWork (Attempt.change fun w => { w with
    output := w.output.set .functions <| w.output.functions.modify p.instruction fun i =>
      { i with operands := i.operands.set p.operand x } })

def resolveAll : Emit Unit := do
  let s ← Attempt.state
  onWork (Attempt.change fun w => { w with pending := [] })
  s.work.pending.forM resolve

def body (t : Task) : Emit Unit := do
  expect .body
  match t.method.blocks with
  | [] => Attempt.fail (.emptyMethod t.method.name)
  | entry :: blocks =>
    (entry :: blocks).forM allocateLabel
    emitBlock t (emitStorage t) entry
    blocks.forM (emitBlock t (pure ()))
    resolveAll
    emit .functionEnd []
    setStage Call.body.next

/-! ## The merge -/

/-- Moves the output of the method to the end of the module. -/
def merge : Emit Unit := do
  expect .merge
  Attempt.change fun s => { s with
    target := s.target.merge s.work.output
    work := { s.work with output := .empty, stage := Call.merge.next } }

/-! ## Requests as data -/

inductive Request where
  | header
  | body
  /-- Constants of a function alone; there are none, so nothing is done. -/
  | constants
  | merge
  deriving DecidableEq, Repr

def perform (t : Task) : Request → Emit Unit
  | .header => header t
  | .body => body t
  | .constants => pure ()
  | .merge => merge

end SpirvKernel.Emission
