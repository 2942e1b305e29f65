import Mathlib.Algebra.BigOperators.Ring.List
import Mathlib.Algebra.Order.BigOperators.Group.List
import Mathlib.Algebra.Order.Ring.Nat
import SpirvKernel.Emission.State
import SpirvKernel.Proofs.Dictionary.Growth
import SpirvKernel.Proofs.WellFormed

/-!
# The size of a program

How much there is in a program: what its types weigh, what its values and terminators refer to, and
how long its names are.
-/

namespace SpirvKernel

/-! ## Sizes -/

/-- What a value refers to, or declares beside its type. -/
def ValueKind.size : ValueKind → Nat
  | .constant c => c.type.weight
  | .alloca elem _ => elem.weight
  | kind => kind.operands.length + 2 * kind.incoming.length

def Value.size (v : Value) : Nat := v.type.weight + v.kind.size

/-- A case of a switch takes up to three words. -/
def Terminator.size (x : Terminator) : Nat := 3 * x.successors.length

def Block.size (b : Block) : Nat := (b.body.map Value.size).sum + b.terminator.size + 1

def Method.size (m : Method) : Nat :=
  (Literal.encode m.name).length + Ty.weights (m.returnType :: m.params.map (·.type)) +
    (m.blocks.map Block.size).sum

def Program.size (p : Program) : Nat := (p.methods.map Method.size).sum

/-- Up to this size, every instruction fits. -/
def sizeLimit : Nat := 60000

-- An instruction has at most eight words more than the size of what it is made for.
theorem sizeLimit_lt_maxSize : sizeLimit + 8 < Instruction.maxSize := by decide

/-- A program whose module has room for all that it needs. -/
def Program.Small (p : Program) (entry : EntryPoint) : Prop :=
  p.size + (Literal.encode entry.name).length ≤ sizeLimit

/-! ## Parts and wholes -/

theorem le_sum_of_mem {β : Type} {f : β → Nat} {bs : List β} {b : β} (hb : b ∈ bs) :
    f b ≤ (bs.map f).sum :=
  List.single_le_sum (fun _ _ => Nat.zero_le _) _ (List.mem_map_of_mem hb)

theorem sum_weight (ts : List Ty) : (ts.map Ty.weight).sum = Ty.weights ts := by
  induction ts with
  | nil => rfl
  | cons t ts ih => rw [List.map_cons, List.sum_cons, ih, Ty.weights]

theorem sum_bodies (f : Value → Nat) (bs : List Block) :
    ((bs.flatMap (·.body)).map f).sum = (bs.map fun b => (b.body.map f).sum).sum := by
  rw [List.map_flatMap, List.flatMap_def, List.sum_flatten, List.map_map]
  rfl

theorem Value.one_le_size (v : Value) : 1 ≤ v.size := by
  have := v.type.one_le_weight
  unfold Value.size
  omega

namespace Method

variable {m : Method}

/-- The sizes of all values. -/
def valueSize (m : Method) : Nat := (m.values.map Value.size).sum

theorem valueSize_le (m : Method) :
    m.valueSize + m.blocks.length ≤ (m.blocks.map Block.size).sum := by
  rw [valueSize, values, sum_bodies]
  have bodies := List.sum_le_sum (l := m.blocks) (f := fun b => (b.body.map Value.size).sum + 1)
    (g := Block.size) fun b _ => by unfold Block.size; omega
  rw [List.sum_map_add] at bodies
  simpa using bodies

theorem sum_le_valueSize (m : Method) (a c : Nat) :
    (m.values.map fun v => a * v.size + c).sum ≤ (a + c) * m.valueSize := by
  -- No value is empty, so a constant share of each can be counted with its size.
  rw [valueSize, ← List.sum_map_mul_left]
  refine List.sum_le_sum fun v _ => ?_
  have := Nat.mul_le_mul_left c v.one_le_size
  rw [Nat.add_mul]
  omega

theorem params_lt_weights (m : Method) :
    m.params.length < Ty.weights (m.returnType :: m.params.map (·.type)) := by
  have := Ty.length_le_weights (m.returnType :: m.params.map (·.type))
  rw [List.length_cons, List.length_map] at this
  omega

theorem one_le_size (m : Method) : 1 ≤ m.size := by
  have := m.params_lt_weights
  unfold size
  omega

theorem size_le_of_mem_values {v : Value} (hv : v ∈ m.values) : v.size ≤ m.size := by
  have value : v.size ≤ m.valueSize := le_sum_of_mem hv
  have := m.valueSize_le
  unfold size
  omega

theorem size_le_of_mem_blocks {b : Block} (hb : b ∈ m.blocks) : b.terminator.size ≤ m.size := by
  have block : b.size ≤ (m.blocks.map Block.size).sum := le_sum_of_mem hb
  have : b.terminator.size ≤ b.size := by
    unfold Block.size
    omega
  unfold size
  omega

theorem weight_le_of_mem_params {x : Param} (hx : x ∈ m.params) : x.type.weight ≤ m.size := by
  have param : x.type.weight ≤ ((m.params.map (·.type)).map Ty.weight).sum :=
    le_sum_of_mem (List.mem_map_of_mem hx)
  rw [sum_weight] at param
  unfold size Ty.weights
  omega

theorem idBudget_le (m : Method) : m.idBudget ≤ 3 * m.size := by
  have blocks := m.valueSize_le
  have params := m.params_lt_weights
  have values : m.values.length ≤ m.valueSize := by simpa using m.sum_le_valueSize 0 1
  unfold idBudget size
  omega

end Method

namespace Program

variable {p : Program} {entry : EntryPoint}

theorem size_le_of_mem {m : Method} (hm : m ∈ p.methods) : m.size ≤ p.size := le_sum_of_mem hm

theorem length_methods_le (p : Program) : p.methods.length ≤ p.size := by
  simpa [size] using List.sum_le_sum fun m (_ : m ∈ p.methods) => m.one_le_size

theorem Small.size_le (small : p.Small entry) : p.size ≤ sizeLimit := by
  unfold Small at small
  omega

end Program

end SpirvKernel
