import SpirvKernel.Attempt
import SpirvKernel.Binary.Instruction
import SpirvKernel.Binary.Literal

/-!
# Module layout

A module has ten sections in a fixed order. A layout holds the content of each section, as
instructions while a module is put together and as words once it is encoded.
-/

namespace SpirvKernel

inductive Section where
  | capabilities | extensions | extInstImports | memoryModel | entryPoints | executionModes
  | debug | annotations | declarations | functions
  deriving DecidableEq, Repr

/-- The sections in the order in which a module holds them. -/
def Section.all : List Section :=
  [.capabilities, .extensions, .extInstImports, .memoryModel, .entryPoints, .executionModes,
    .debug, .annotations, .declarations, .functions]

structure Layout (α : Type) where
  capabilities : List α := []
  extensions : List α := []
  extInstImports : List α := []
  memoryModel : List α := []
  entryPoints : List α := []
  executionModes : List α := []
  debug : List α := []
  annotations : List α := []
  declarations : List α := []
  functions : List α := []
  deriving DecidableEq

namespace Layout

variable {α β : Type}

def empty : Layout α := {}

def get (l : Layout α) : Section → List α
  | .capabilities => l.capabilities
  | .extensions => l.extensions
  | .extInstImports => l.extInstImports
  | .memoryModel => l.memoryModel
  | .entryPoints => l.entryPoints
  | .executionModes => l.executionModes
  | .debug => l.debug
  | .annotations => l.annotations
  | .declarations => l.declarations
  | .functions => l.functions

def set (l : Layout α) (s : Section) (xs : List α) : Layout α :=
  match s with
  | .capabilities => { l with capabilities := xs }
  | .extensions => { l with extensions := xs }
  | .extInstImports => { l with extInstImports := xs }
  | .memoryModel => { l with memoryModel := xs }
  | .entryPoints => { l with entryPoints := xs }
  | .executionModes => { l with executionModes := xs }
  | .debug => { l with debug := xs }
  | .annotations => { l with annotations := xs }
  | .declarations => { l with declarations := xs }
  | .functions => { l with functions := xs }

def append (l : Layout α) (s : Section) (xs : List α) : Layout α := l.set s (l.get s ++ xs)

/-- Appends each section of `m` to the same section of `l`. -/
def merge (l m : Layout α) : Layout α where
  capabilities := l.capabilities ++ m.capabilities
  extensions := l.extensions ++ m.extensions
  extInstImports := l.extInstImports ++ m.extInstImports
  memoryModel := l.memoryModel ++ m.memoryModel
  entryPoints := l.entryPoints ++ m.entryPoints
  executionModes := l.executionModes ++ m.executionModes
  debug := l.debug ++ m.debug
  annotations := l.annotations ++ m.annotations
  declarations := l.declarations ++ m.declarations
  functions := l.functions ++ m.functions

/-- All content, section after section. -/
def toList (l : Layout α) : List α := Section.all.flatMap l.get

def size (l : Layout α) : Nat := l.toList.length

def isEmpty (l : Layout α) : Bool := l.toList.isEmpty

@[ext] theorem ext_get {l m : Layout α} (h : ∀ s, l.get s = m.get s) : l = m := by
  cases l; cases m
  simp only [mk.injEq]
  exact ⟨h .capabilities, h .extensions, h .extInstImports, h .memoryModel, h .entryPoints,
    h .executionModes, h .debug, h .annotations, h .declarations, h .functions⟩

@[simp] theorem get_empty (s : Section) : (empty : Layout α).get s = [] := by cases s <;> rfl

@[simp] theorem get_set (l : Layout α) (s t : Section) (xs : List α) :
    (l.set s xs).get t = if t = s then xs else l.get t := by
  cases s <;> cases t <;> rfl

@[simp] theorem get_append (l : Layout α) (s t : Section) (xs : List α) :
    (l.append s xs).get t = if t = s then l.get t ++ xs else l.get t := by
  by_cases h : t = s
  · subst h; simp [append]
  · simp [append, h]

@[simp] theorem get_merge (l m : Layout α) (s : Section) :
    (l.merge m).get s = l.get s ++ m.get s := by
  cases s <;> rfl

/-! ## Words -/

inductive Error where
  | oversized (op : Opcode)
  | outOfRange (size index : Nat)
  deriving DecidableEq, Repr

def Error.message : Error → String
  | .oversized op => s!"{op.mnemonic} has too many operands"
  | .outOfRange size index => s!"index out of bounds: the len is {size} but the index is {index}"

def encode (l : Layout Instruction) : Layout Word where
  capabilities := Instruction.encodeAll l.capabilities
  extensions := Instruction.encodeAll l.extensions
  extInstImports := Instruction.encodeAll l.extInstImports
  memoryModel := Instruction.encodeAll l.memoryModel
  entryPoints := Instruction.encodeAll l.entryPoints
  executionModes := Instruction.encodeAll l.executionModes
  debug := Instruction.encodeAll l.debug
  annotations := Instruction.encodeAll l.annotations
  declarations := Instruction.encodeAll l.declarations
  functions := Instruction.encodeAll l.functions

@[simp] theorem get_encode (l : Layout Instruction) (s : Section) :
    l.encode.get s = Instruction.encodeAll (l.get s) := by
  cases s <;> rfl

@[simp] theorem encode_append (l : Layout Instruction) (s : Section) (is : List Instruction) :
    (l.append s is).encode = l.encode.append s (Instruction.encodeAll is) := by
  ext t : 1
  by_cases h : t = s
  · simp [h, Instruction.encodeAll_append]
  · simp [h]

@[simp] theorem encode_merge (l m : Layout Instruction) :
    (l.merge m).encode = l.encode.merge m.encode := by
  ext s : 1
  simp [Instruction.encodeAll_append]

/-- Appends an instruction and gives back where in its section it starts. -/
def emit (l : Layout Word) (s : Section) (op : Opcode) (operands : List Word) :
    Except Error (Nat × Layout Word) :=
  let i := Instruction.of op operands
  if i.Fits then .ok ((l.get s).length, l.append s i.encode) else .error (.oversized op)

/-- Overwrites one word of a section. -/
def patch (l : Layout Word) (s : Section) (offset : Nat) (w : Word) :
    Except Error (Layout Word) :=
  if offset < (l.get s).length then .ok (l.set s ((l.get s).set offset w))
  else .error (.outOfRange (l.get s).length offset)

def magic : Word := 0x07230203

/-- The number of words before the first section. -/
def headerSize : Nat := 5

/-- The module as one stream: the header, then the sections in order. -/
def serialize (l : Layout Word) (version generator bound : Word) : List Word :=
  [magic, version, generator, bound, 0] ++ l.toList

/-! ## Edits as data -/

inductive Edit where
  | emit (s : Section) (op : Opcode) (operands : List Word)
  /-- An instruction with a string among its operands. -/
  | emitText (s : Section) (op : Opcode) (leading : List Word) (text : String)
      (trailing : List Word)
  | label (id : Word)
  | merge (other : Layout Word)
  | patch (s : Section) (offset : Nat) (w : Word)
  deriving DecidableEq

/-- Performs an edit. Emitting gives back where the instruction starts. -/
def perform : Edit → Attempt Error (Layout Word) (Option Nat)
  | .emit s op operands => emitted s op operands
  | .emitText s op leading text trailing =>
    emitted s op (leading ++ Literal.encode text ++ trailing)
  | .label id => do
    let _ ← emitted .functions .label [id]
    pure none
  | .merge other => do
    Attempt.change (·.merge other)
    pure none
  | .patch s offset w => fun l =>
    match l.patch s offset w with
    | .ok l' => (.ok none, l')
    | .error e => (.error e, l)
where
  emitted (s : Section) (op : Opcode) (operands : List Word) :
      Attempt Error (Layout Word) (Option Nat) := fun l =>
    match l.emit s op operands with
    | .ok (offset, l') => (.ok (some offset), l')
    | .error e => (.error e, l)

end Layout

end SpirvKernel
