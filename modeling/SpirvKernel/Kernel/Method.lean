import SpirvKernel.Kernel.Value

/-!
# Methods

A method is a list of blocks, the first of them the entry. A block is a list of values and one
terminator, and blocks refer to each other by name only.
-/

namespace SpirvKernel

/-- How control leaves a block. -/
inductive Terminator where
  | ret (value : Option ValueId)
  | branch (target : BlockId)
  | condBranch (cond : ValueId) (thenBlock elseBlock : BlockId)
  | switch (selector : ValueId) (cases : List (UInt64 × BlockId)) (default : BlockId)
  | unreachable
  deriving DecidableEq, Repr

/-- The blocks that may come next. The default of a switch stands first. -/
def Terminator.successors : Terminator → List BlockId
  | .ret _ | .unreachable => []
  | .branch target => [target]
  | .condBranch _ thenBlock elseBlock => [thenBlock, elseBlock]
  | .switch _ cases default => default :: cases.map (·.2)

structure Block where
  id : BlockId
  body : List Value
  terminator : Terminator
  deriving DecidableEq, Repr

structure Param where
  value : ValueId
  type : Ty
  deriving DecidableEq, Repr

structure Method where
  id : MethodId
  name : String
  params : List Param
  returnType : Ty
  blocks : List Block
  deriving DecidableEq, Repr

namespace Method

def entry? (m : Method) : Option Block := m.blocks.head?

def block? (m : Method) (id : BlockId) : Option Block := m.blocks.find? (·.id = id)

def values (m : Method) : List Value := m.blocks.flatMap (·.body)

/-- Every name with its type, parameters first. -/
def definitions (m : Method) : List (ValueId × Ty) :=
  m.params.map (fun p => (p.value, p.type)) ++ m.values.map fun v => (v.id, v.type)

/-- The type of a name. Of several definitions the last counts. -/
def typeOf? (m : Method) (v : ValueId) : Option Ty := m.definitions.reverse.lookup v

end Method

structure Program where
  methods : List Method
  deriving DecidableEq, Repr

def Program.method? (p : Program) (id : MethodId) : Option Method := p.methods.find? (·.id = id)

/-! ## Entry points -/

/-- How many dimensions the launch grid has. -/
inductive GridRank where
  | one | two | three
  deriving DecidableEq, Repr

def GridRank.count : GridRank → Nat
  | .one => 1
  | .two => 2
  | .three => 3

/-- A work group of a fixed size along each dimension. -/
structure GroupSize where
  x : UInt32
  y : UInt32
  z : UInt32
  deriving DecidableEq, Repr

/-- The method that a module is launched through. -/
structure EntryPoint where
  method : MethodId
  name : String
  rank : GridRank
  groupSize : Option GroupSize
  deriving DecidableEq, Repr

end SpirvKernel
