import SpirvKernel.Emission.Function
import SpirvKernel.Proofs.Dictionary.Requests

/-!
# What emission asks of the dictionary

What the body of a method asks for is settled by the method alone, whatever the dictionary holds. Only
storage asks for group variables; values make requests under keys.
-/

namespace SpirvKernel

namespace Emission

/-! ## Values -/

def unitRequests (type : Ty) (one : Bool) : List Dictionary.Request :=
  match type.unit one with
  | .ok c => [.constant c]
  | .error _ => []

def conversionRequests (m : Method) (v : Value) (source : ValueId) (flags : ConvertFlags) :
    List Dictionary.Request :=
  match m.typeOf? source with
  | none => []
  | some type =>
    match Conversion.between type v.type flags with
    | .ok .fromBool => unitRequests v.type true ++ (unitRequests v.type false ++ [.type v.type])
    | .ok (.toBool _) => unitRequests type false ++ [.type v.type]
    | _ => [.type v.type]

/-- What the emission of a value asks of the dictionary. -/
def valueRequests (m : Method) (v : Value) : List Dictionary.Request :=
  match v.kind with
  | .constant c => [.constant c]
  | .convert source flags => conversionRequests m v source flags
  | .fieldAddress _ field => [.constant (.ofWord field), .type v.type]
  | .gridIndex builtin _ =>
    [.builtin builtin.variable, .type BuiltIn.type, .type .i64, .type v.type]
  | .barrier => [.constant (.ofWord workgroupScope), .constant (.ofWord barrierSemantics)]
  | .alloca .. | .store .. | .inlineAssembly .. => []
  | _ => [.type v.type]

theorem keyed_unitRequests {type : Ty} {one : Bool} {r : Dictionary.Request}
    (hr : r ∈ unitRequests type one) : r.key?.isSome := by
  unfold unitRequests at hr
  split at hr
  · rw [List.mem_singleton.mp hr]
    rfl
  · cases hr

theorem keyed_conversionRequests {m : Method} {v : Value} {source : ValueId} {flags : ConvertFlags}
    {r : Dictionary.Request} (hr : r ∈ conversionRequests m v source flags) : r.key?.isSome := by
  have type {t : Ty} (h : r ∈ [Dictionary.Request.type t]) : r.key?.isSome := by
    rw [List.mem_singleton.mp h]
    rfl
  unfold conversionRequests at hr
  split at hr
  · cases hr
  · split at hr
    · simp only [List.mem_append] at hr
      rcases hr with hr | hr | hr
      · exact keyed_unitRequests hr
      · exact keyed_unitRequests hr
      · exact type hr
    · rcases List.mem_append.mp hr with hr | hr
      · exact keyed_unitRequests hr
      · exact type hr
    · exact type hr

theorem keyed_valueRequests {m : Method} {v : Value} {r : Dictionary.Request}
    (hr : r ∈ valueRequests m v) : r.key?.isSome := by
  have listed {rs : List Dictionary.Request} (h : rs.all (·.key?.isSome) = true) (hr : r ∈ rs) :
      r.key?.isSome := List.all_eq_true.mp h r hr
  unfold valueRequests at hr
  split at hr
  case h_2 => exact keyed_conversionRequests hr
  all_goals exact listed rfl hr

/-! ## Storage -/

def itemRequests (a : Allocation) : List Dictionary.Request :=
  match content a with
  | .ok type => [.pointer type .function]
  | .error _ => []

/-- The request for the type of the pointer to the first element, if the allocation is an array. -/
def castRequest? (storage : StorageClass) (a : Allocation) : Option Dictionary.Request :=
  if a.isArray then some (.pointer a.elem storage) else none

/-- What the storage of a method asks of the dictionary: variables first, then pointers to arrays. -/
def storageRequests (s : Storage) : List Dictionary.Request :=
  s.item.flatMap itemRequests ++
    ((s.group ++ s.dynamicGroup).flatMap (fun a => [.groupVariable a.elem a.extent]) ++
      (s.item.filterMap (castRequest? .function) ++
        (s.group ++ s.dynamicGroup).filterMap (castRequest? .workgroup)))

/-! ## Bodies -/

def blockRequests (m : Method) (b : Block) : List Dictionary.Request :=
  b.body.flatMap (valueRequests m)

/-- What the body of a method asks of the dictionary. -/
def bodyRequests (task : Task) : List Dictionary.Request :=
  match task.method.blocks with
  | [] => []
  | entry :: blocks =>
    (storageRequests task.storage ++ blockRequests task.method entry) ++
      blocks.flatMap (blockRequests task.method)

end Emission

open Emission

/-- The same for a method with its own plan of storage. -/
def Method.requests (m : Method) : List Dictionary.Request :=
  match m.blocks with
  | [] => []
  | entry :: blocks =>
    (storageRequests (.ofMethod m) ++ blockRequests m entry) ++ blocks.flatMap (blockRequests m)

theorem bodyRequests_eq {t : Task} (storage : t.storage = .ofMethod t.method) :
    bodyRequests t = t.method.requests := by
  rw [bodyRequests, Method.requests, storage]

end SpirvKernel
