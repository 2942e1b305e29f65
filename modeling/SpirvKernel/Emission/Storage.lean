import SpirvKernel.Emission.State

/-!
# Emission of storage

The memory of all allocations of a method is set up at the top of its entry block. A work item's own
memory becomes variables of the function, group memory variables of the module. The variable of an
array is then cast to a pointer to its first element, which is what the allocation means.
-/

namespace SpirvKernel.Emission

/-- A variable that holds an array and the value that points to its first element. -/
structure Cast where
  source : Id
  value : ValueId
  elem : Ty
  storage : StorageClass

/-- Only pointers to local memory point to a work item's own memory. -/
def checkSpace (type : Ty) : Except Fault Unit :=
  match type.space? with
  | some .local => .ok ()
  | some space => .error (.unsupported (.allocationSpace space))
  | none => .error (.unsupported .allocationOfNonPointer)

/-- What the variable of a work item's allocation holds. -/
def content (a : Allocation) : Except Fault Ty :=
  match a.extent with
  | .single => .ok a.elem
  | .fixed n => .ok (.array a.elem n)
  | .dynamic => .error (.unsupported .dynamicPrivateAllocation)

/-- Declares a variable of the function, and tells what is left to cast. -/
def placeItem (t : Task) (a : Allocation) : Emit (Option Cast) := do
  let type ← typeOf t a.value
  Attempt.ofExcept (checkSpace type)
  let content ← Attempt.ofExcept (content a)
  let pointer ← declare (Dictionary.pointerId content .function)
  if a.isArray then
    let id ← onTable IdTable.fresh
    emit .variable [pointer.word, id.word, StorageClass.function.number]
    pure (some ⟨id, a.value, a.elem, .function⟩)
  else
    let id ← onTable (IdTable.allocate (.value a.value))
    emit .variable [pointer.word, id.word, StorageClass.function.number]
    pure none

/-- Declares a variable of the module, and tells what is left to cast. -/
def placeGroup (a : Allocation) : Emit (Option Cast) := do
  let id ← declare (Dictionary.groupVariable a.elem a.extent)
  if a.isArray then pure (some ⟨id, a.value, a.elem, .workgroup⟩)
  else
    onTable (IdTable.bind (.value a.value) id)
    pure none

def emitCast (c : Cast) : Emit Unit := do
  let type ← declare (Dictionary.pointerId c.elem c.storage)
  let id ← onTable (IdTable.allocate (.value c.value))
  emit .bitcast [type.word, id.word, c.source.word]

def emitStorage (t : Task) : Emit Unit := do
  let items ← t.storage.item.mapM (placeItem t)
  let groups ← (t.storage.group ++ t.storage.dynamicGroup).mapM placeGroup
  ((items ++ groups).filterMap id).forM emitCast

end SpirvKernel.Emission
