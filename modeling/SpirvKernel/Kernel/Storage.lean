import SpirvKernel.Kernel.Method

/-!
# Storage

The memory of a method's allocations is declared in different places of a module. A storage plan
sorts the allocations by where that is.
-/

namespace SpirvKernel

structure Allocation where
  value : ValueId
  elem : Ty
  extent : Extent
  deriving DecidableEq, Repr

namespace Allocation

/-- The number of elements, unless it is settled at launch. -/
def count? (a : Allocation) : Option UInt32 :=
  match a.extent with
  | .single => some 1
  | .fixed n => some n
  | .dynamic => none

def isArray (a : Allocation) : Bool := a.extent ≠ .single

end Allocation

inductive StorageKind where
  /-- Memory of one work item. -/
  | item
  /-- Memory of one work group. -/
  | group
  /-- Memory of one work group whose size is settled at launch. -/
  | dynamicGroup
  deriving DecidableEq, Repr

structure Storage where
  item : List Allocation := []
  group : List Allocation := []
  dynamicGroup : List Allocation := []
  deriving DecidableEq, Repr

namespace Storage

def get (s : Storage) : StorageKind → List Allocation
  | .item => s.item
  | .group => s.group
  | .dynamicGroup => s.dynamicGroup

/-- Pointers into shared memory make group storage; everything else is the work item's own. -/
def kindFor (type : Ty) (extent : Extent) : StorageKind :=
  if type.space? = some .shared then
    if extent = .dynamic then .dynamicGroup else .group
  else .item

/-- The kind of storage that a value asks for, if it is an allocation. -/
def request? (v : Value) : Option (StorageKind × Allocation) :=
  match v.kind with
  | .alloca elem extent => some (kindFor v.type extent, ⟨v.id, elem, extent⟩)
  | _ => none

/-- The allocations of one kind, in the order of the method. -/
def requested (m : Method) (kind : StorageKind) : List Allocation :=
  m.values.filterMap fun v =>
    match request? v with
    | some (k, a) => if k = kind then some a else none
    | none => none

def ofMethod (m : Method) : Storage where
  item := requested m .item
  group := requested m .group
  dynamicGroup := requested m .dynamicGroup

def size (s : Storage) : Nat := s.item.length + s.group.length + s.dynamicGroup.length

/-- The kind under which a value is listed. -/
def kindOf? (s : Storage) (v : ValueId) : Option StorageKind :=
  [.item, .group, .dynamicGroup].find? fun kind => (s.get kind).any (·.value = v)

end Storage

end SpirvKernel
