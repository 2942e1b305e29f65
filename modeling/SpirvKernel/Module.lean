import SpirvKernel.Emission.Function

/-!
# Modules

A program becomes a module with one entry point: the headers of all methods, then all bodies, then the
merge into the module, each in the order of the program. Capabilities, memory model, entry point and
declarations join last, when it is known which of them are needed.
-/

namespace SpirvKernel

structure Options where
  major : UInt8 := 1
  minor : UInt8 := 3
  /-- The number of the tool that wrote the module. -/
  generator : Word := 0
  debugNames : Bool := true
  /-- Whether bodies may be emitted side by side. `compile` emits them one after the other. -/
  parallel : Bool := false
  deriving DecidableEq, Repr

def Options.version (o : Options) : Word := UInt32.ofNat (o.major.toNat * 65536 + o.minor.toNat * 256)

structure Module where
  words : List Word
  /-- The numbers under which the host sets the sizes of dynamic storage. -/
  specIds : List Word
  deriving DecidableEq, Repr

namespace Module

/-- One past the highest identifier, as the header says. -/
def bound (m : Module) : Word := m.words.getD 3 0

def bytes (m : Module) : List UInt8 := m.words.flatMap Word.bytes

end Module

inductive CompileError where
  | missingEntryPoint (method : MethodId)
  | inMethod (name : String) (fault : Fault)
  | inModule (fault : Fault)
  deriving DecidableEq, Repr

namespace CompileError

def message : CompileError → String
  | .missingEntryPoint m => s!"entry point method #{m.number} is not part of the program"
  | .inMethod name fault => "failed to generate `" ++ name ++ "`: " ++ fault.message
  | .inModule fault => fault.message

/-- The fault of a method, reported with its name if work could have gone on. -/
def ofFault (name : String) (fault : Fault) : CompileError :=
  if fault.isRecoverable then .inMethod name fault else .inModule fault

end CompileError

/-! ## Jobs -/

/-- What the methods of a module build together. -/
structure Build where
  dictionary : Dictionary
  target : Layout Instruction

structure Job where
  task : Task
  work : Work

namespace Job

def run (x : Task → Emit Unit) (job : Job) : Attempt Fault Build Job := fun b =>
  let (r, s) := x job.task ⟨b.dictionary, b.target, job.work⟩
  (r.map fun _ => ⟨job.task, s.work⟩, ⟨s.dictionary, s.target⟩)

/-- Takes up a method; it is the kernel if the entry point names it. -/
def start (frame : Frame) (entry : EntryPoint) (m : Method) : Attempt Fault Build Job := do
  let (task, work) ←
    Attempt.onPart (·.dictionary.supply)
      (fun b s => { b with dictionary := { b.dictionary with supply := s } })
      (Task.start frame m (.ofMethod m) (if m.id = entry.method then some entry else none))
  pure ⟨task, work⟩

end Job

namespace Build

/-- Names the method in which a fault arose. -/
def inMethod {α : Type} (name : String) (x : Attempt Fault Build α) :
    Attempt CompileError Build α := fun b =>
  let (r, b) := x b
  (r.mapError (CompileError.ofFault name), b)

def header (frame : Frame) (entry : EntryPoint) (m : Method) : Attempt CompileError Build Job :=
  inMethod m.name do
    let job ← Job.start frame entry m
    job.run Emission.header

def body (job : Job) : Attempt CompileError Build Job :=
  inMethod job.task.method.name (job.run Emission.body)

def merge (job : Job) : Attempt CompileError Build Job :=
  inMethod job.task.method.name (job.run fun _ => Emission.merge)

def functions (frame : Frame) (entry : EntryPoint) (p : Program) :
    Attempt CompileError Build Unit := do
  let headed ← p.methods.mapM (header frame entry)
  let complete ← headed.mapM body
  let _ ← complete.mapM merge

/-- A module that holds nothing but the import of the extended instruction set. -/
def new (frame : Frame) (supply : Supply) : Build where
  dictionary := .new supply
  target := Layout.empty.append .extInstImports
    [Instruction.of .extInstImport (frame.openCl.word :: Literal.encode "OpenCL.std")]

/-- The whole module in sections. -/
def finish (frame : Frame) (entry : EntryPoint) (b : Build) :
    Except Fault (Layout Instruction) := do
  let kernel ← frame.functions.get entry.method
  let point := Instruction.of .entryPoint
    (executionModel :: kernel.word :: Literal.encode entry.name ++ b.dictionary.interface.map Id.word)
  if point.Fits then
    let capabilities := b.dictionary.capabilities.toList.map fun c =>
      Instruction.of .capability [c.number]
    let model := Instruction.of .memoryModel [addressingModel, SpirvKernel.memoryModel]
    pure ((((b.target.append .capabilities capabilities).append .memoryModel [model]).append
      .entryPoints [point]).merge b.dictionary.layout)
  else throw (.oversized .entryPoint)

end Build

def compile (o : Options) (p : Program) (entry : EntryPoint) : Except CompileError Module := do
  if (p.method? entry.method).isNone then throw (.missingEntryPoint entry.method)
  let (frame, supply) := Frame.ofProgram p o.debugNames Supply.new
  let frame ← frame.mapError .inModule
  let (done, build) := Build.functions frame entry p (Build.new frame supply)
  done
  let layout ← (build.finish frame entry).mapError .inModule
  pure {
    words := layout.encode.serialize o.version o.generator
      (UInt32.ofNat build.dictionary.supply.next)
    specIds := build.dictionary.specIds }

end SpirvKernel
