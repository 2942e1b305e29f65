import SpirvKernel.Binary.Word
import SpirvKernel.Kernel.Value

/-!
# Identifiers and what they name

Every result in a module has an identifier of its own. Within a method the values and the blocks are
what receives one.
-/

namespace SpirvKernel

structure Id where
  number : Nat
  deriving DecidableEq, Repr

namespace Id

def word (id : Id) : Word := UInt32.ofNat id.number

def text (id : Id) : String := s!"%{id.number}"

end Id

inductive Entity where
  | value (v : ValueId)
  | block (b : BlockId)
  deriving DecidableEq, Repr

def Entity.text : Entity → String
  | .value v => s!"value %{v.number}"
  | .block b => s!"block bb{b.number}"

end SpirvKernel
