import SpirvKernel.Proofs.Emission.ControlFlow
import SpirvKernel.Proofs.Module.Sections

/-!
# Memory in the code of a function

The variables of a function are those that its memory asks for, and they stand right behind its first
label. From the name of an allocation one gets to its variable in at most one step, which goes through
a cast.
-/

namespace SpirvKernel

open Instruction

/-! ## Values that ask for memory -/

namespace Value

def isLocalAlloca (v : Value) : Bool := v.kind.isAlloca && v.type.space? ≠ some .shared

def isSharedAlloca (v : Value) : Bool := v.kind.isAlloca && v.type.space? = some .shared

def isArrayAlloca (v : Value) : Bool :=
  match v.kind with
  | .alloca _ extent => extent ≠ .single
  | _ => false

end Value

namespace Storage

theorem groups_perm (xs : List (StorageKind × Allocation)) :
    (xs.filter (·.1 = .group) ++ xs.filter (·.1 = .dynamicGroup)).Perm (xs.filter (·.1 ≠ .item)) := by
  induction xs with
  | nil => exact .refl _
  | cons x xs ih =>
    obtain ⟨kind, a⟩ := x
    cases kind with
    | item => simpa using ih
    | group => simpa using ih
    | dynamicGroup => simpa using List.perm_middle.trans (ih.cons (.dynamicGroup, a))

variable (m : Method)

theorem values_item :
    (ofMethod m).item.map (·.value) = (m.values.filter Value.isLocalAlloca).map (·.id) := by
  simp only [ofMethod, requested_eq, List.map_map]
  refine (values_requests _ _).trans ?_
  congr 2
  funext v
  rw [any_request?]
  unfold Value.isLocalAlloca
  cases v.kind with
  | alloca elem extent =>
    by_cases hs : v.type.space? = some .shared <;> by_cases hd : extent = .dynamic <;>
      simp [kindFor, ValueKind.isAlloca, hs, hd]
  | _ => rfl

theorem values_groups_perm : (((ofMethod m).group ++ (ofMethod m).dynamicGroup).map (·.value)).Perm
    ((m.values.filter Value.isSharedAlloca).map (·.id)) := by
  simp only [ofMethod, requested_eq, ← List.map_append, List.map_map]
  refine ((groups_perm _).map _).trans (.of_eq ((values_requests _ _).trans ?_))
  congr 2
  funext v
  rw [any_request?]
  unfold Value.isSharedAlloca
  cases v.kind with
  | alloca elem extent =>
    by_cases hs : v.type.space? = some .shared <;> by_cases hd : extent = .dynamic <;>
      simp [kindFor, ValueKind.isAlloca, hs, hd]
  | _ => rfl

theorem values_arrays_perm : (((ofMethod m).all.filter (·.isArray)).map (·.value)).Perm
    ((m.values.filter Value.isArrayAlloca).map (·.id)) := by
  refine (((all_ofMethod_perm m).filter _).map _).trans (.of_eq ?_)
  rw [List.filter_map, List.map_map]
  refine (values_requests _ _).trans ?_
  congr 2
  funext v
  rw [any_request?]
  unfold Value.isArrayAlloca
  cases v.kind <;> rfl

end Storage

namespace Emission

variable {t : Task} {d : Dictionary} {T : IdTable}

/-! ## Variables of a function -/

theorem ne_variable_of_computation {op : Opcode} (h : op.format false = .computation) :
    op ≠ .variable := by
  rintro rfl
  cases h

theorem Computes.ne_variable {type : Ty} {kind : ValueKind} {op : Opcode} {ws : List Word}
    {before : List Instruction} (h : Computes t d T type kind op ws before) :
    op ≠ .variable ∧ before.filter (isA .variable) = [] := by
  cases h with
  | binary select => exact ⟨ne_variable_of_computation (Opcode.OfOperator.binary select).computation, rfl⟩
  | unary select => exact ⟨ne_variable_of_computation (Opcode.OfOperator.unary select).computation, rfl⟩
  | compare _ select =>
    exact ⟨ne_variable_of_computation (Opcode.OfOperator.compare select).computation, rfl⟩
  | convert _ select =>
    exact ⟨ne_variable_of_computation (Conversion.computation_of_between? select rfl), rfl⟩
  | toBool _ select =>
    exact ⟨ne_variable_of_computation (Conversion.computation_of_between? select rfl), rfl⟩
  | callCore _ select =>
    exact ⟨ne_variable_of_computation (Opcode.OfOperator.intrinsic select).computation, rfl⟩
  | _ => exact ⟨nofun, rfl⟩

theorem Lowers.filter_variable {v : Value} {is : List Instruction} (h : Lowers t d T v is) :
    is.filter (isA .variable) = [] := by
  cases h with
  | constant | alloca => rfl
  | store | barrier => simp
  | computed how =>
    obtain ⟨hop, hbefore⟩ := how.ne_variable
    simp [hbefore, hop]

theorem LowersTerminator.not_isA_variable {x : Terminator} {i : Instruction} (h : LowersTerminator t T x i) :
    i.isA .variable = false := by
  obtain ⟨op, hop, hterminates⟩ := h.isTerminator
  exact not_isA hop (by rintro rfl; cases hterminates)

theorem Code.Of.filter_variable {b : Block} {c : Code} (h : c.Of t d T b) :
    c.toList.filter (isA .variable) = c.first.filter (isA .variable) := by
  have values : c.values.flatten.filter (isA .variable) = [] := by
    rw [List.filter_eq_nil_iff]
    intro i hi
    obtain ⟨is, his, hi⟩ := List.mem_flatten.mp hi
    obtain ⟨v, -, lowers⟩ := exists_left_of_forall₂ h.values his
    exact List.filter_eq_nil_iff.mp lowers.filter_variable i hi
  have last := h.last.not_isA_variable
  simp [Code.toList, Code.inner, Code.opening, values, last]

theorem Memory.Of.filter_variable {plan : Storage} {is : List Instruction} {x : Memory}
    (h : x.Of d T plan is) : is.filter (isA .variable) = x.items.map Place.instruction := by
  obtain ⟨js, rfl, hall⟩ := h.code
  have casts : js.filter (isA .variable) = [] := by
    rw [List.filter_eq_nil_iff]
    intro j hj
    obtain ⟨c, -, type, value, -, rfl⟩ := exists_left_of_forall₂ hall hj
    simp
  have own : (x.items.map Place.instruction).filter (isA .variable) =
      x.items.map Place.instruction := by
    rw [List.filter_eq_self]
    intro i hi
    obtain ⟨y, -, rfl⟩ := List.mem_map.mp hi
    simp [Place.instruction]
  rw [List.filter_append, own, casts, List.append_nil]

theorem Text.Of.filter_variable {r : IdRange} {w : Work} {x : Text} (h : Text.Of t d r w x) :
    x.functions.filter (isA .variable) = x.memory.items.map Place.instruction := by
  obtain ⟨c, cs, hcodes, memory, others⟩ := h.memory
  have head : x.head.filter (isA .variable) = [] := by
    obtain ⟨type, signature, wss, -, hhead⟩ := h.head
    rw [hhead]
    simp [opening]
  have blocks : (x.codes.flatMap Code.toList).filter (isA .variable) =
      x.codes.flatMap fun c => c.first.filter (isA .variable) := by
    rw [List.filter_flatMap]
    refine List.flatMap_congr fun c hc => ?_
    obtain ⟨b, -, code⟩ := exists_left_of_forall₂ h.codes hc
    exact code.filter_variable
  have rest : (cs.flatMap fun c => c.first.filter (isA .variable)) = [] := by
    rw [List.flatMap_eq_nil_iff]
    intro c' hc'
    rw [others c' hc', List.filter_nil]
  rw [Text.functions, List.filter_append, List.filter_append, head, blocks, hcodes, List.flatMap_cons,
    rest, memory.filter_variable]
  simp

theorem Text.Of.isVariableIn {r : IdRange} {w : Work} {x : Text} (h : Text.Of t d r w x)
    {storage : StorageClass} (other : storage ≠ .function) :
    ∀ i ∈ x.functions, i.isVariableIn storage = false := by
  intro i hi
  by_cases hv : i.isA .variable = true
  · have own : i ∈ x.functions.filter (isA .variable) := List.mem_filter.mpr ⟨hi, hv⟩
    rw [h.filter_variable] at own
    obtain ⟨y, hy, rfl⟩ := List.mem_map.mp own
    obtain ⟨c, cs, -, memory, -⟩ := h.memory
    obtain ⟨a, -, place⟩ := exists_left_of_forall₂ memory.items hy
    simp [Place.instruction, place.kept, other.symm]
  · exact not_isVariableIn (by simpa [isA] using hv) storage

/-- The code of the entry block starts with the memory of the function. -/
theorem Text.Of.entry {r : IdRange} {w : Work} {x : Text} (h : Text.Of t d r w x) :
    ∃ label first rest, (splitAtLabels x.functions).2.head? = some (label, first ++ rest) ∧
      (∀ i ∈ first, i ∈ x.functions) ∧ x.memory.Of d w.table t.storage first := by
  obtain ⟨c, cs, hcodes, memory, -⟩ := h.memory
  obtain ⟨b, -, code⟩ := exists_left_of_forall₂ h.codes (hcodes ▸ List.mem_cons_self)
  have later : x.functions = x.head ++ (c.toList ++
      (cs.flatMap Code.toList ++ [.of .functionEnd []])) := by
    simp [Text.functions, hcodes]
  refine ⟨c.label, c.first, c.values.flatten ++ ([c.last] ++
    (splitAtLabels (cs.flatMap Code.toList ++ [.of .functionEnd []])).1), ?_, ?_, memory⟩
  swap
  · intro i hi
    simp [later, Code.toList, Code.inner, hi]
  rw [later, splitAtLabels, splitAtMarks_append h.label?_head, ← splitAtLabels, code.splitAtLabels,
    Code.inner, List.append_assoc, List.append_assoc]
  rfl

end Emission

/-! ## From names to variables -/

namespace Instruction

/-- The name that a cast was made from. Any other name stands for itself. -/
def origin (is : List Instruction) (w : Word) : Word :=
  match definition? is w with
  | some i => if i.isA .bitcast then i.operands.getD 2 w else w
  | none => w

variable {is : List Instruction} {type w source storage : Word}

theorem origin_variable (nodup : (results is).Nodup) (h : .of .variable [type, w, storage] ∈ is) :
    origin is w = w := by
  rw [origin, definition?_eq_some nodup h rfl]
  rfl

theorem origin_bitcast (nodup : (results is).Nodup) (h : .of .bitcast [type, w, source] ∈ is) :
    origin is w = source := by
  rw [origin, definition?_eq_some nodup h rfl]
  rfl

end Instruction

namespace Emission

variable {d : Dictionary} {T : IdTable} {storage : StorageClass} {as : List Allocation}
  {ys : List Place} {is : List Instruction}

theorem casts_cons (a : Allocation) (as : List Allocation) (y : Place) (ys : List Place) :
    casts (a :: as) (y :: ys) = (y.cast? a).toList ++ casts as ys := by
  unfold casts
  cases h : y.cast? a <;> simp [h]

theorem values_casts (h : List.Forall₂ (Place.Of d T storage) as ys) :
    (casts as ys).map (·.value) = (as.filter (·.isArray)).map (·.value) := by
  induction h with
  | nil => rfl
  | @cons a y _ _ _ _ ih =>
    rw [casts_cons, List.map_append, ih]
    by_cases ha : a.isArray <;> simp [Place.cast?, ha]

theorem results_written {cs : List Cast} {js : List Instruction}
    (h : List.Forall₂ (Cast.Written T) cs js) :
    (results js).map some = cs.map fun c => T.value? c.value := by
  induction h with
  | nil => rfl
  | cons written _ ih =>
    obtain ⟨type, value, named, rfl⟩ := written
    rw [results_cons, List.map_append, ih, List.map_cons, named]
    rfl

theorem results_places (ys : List Place) :
    results (ys.map Place.instruction) = ys.map (·.root.word) := by
  induction ys with
  | nil => rfl
  | cons y ys ih =>
    rw [List.map_cons, results_cons, ih]
    rfl

theorem Place.Of.traced {a : Allocation} {y : Place} (nodup : (results is).Nodup)
    (place : y.Of d T storage a) (declared : y.instruction ∈ is)
    (cast : ∀ c, y.cast? a = some c → ∃ i ∈ is, c.Written T i) :
    (T.value? a.value).map (origin is) = some y.root.word := by
  -- The name is that of the variable, or that of a cast which was made from it.
  cases ha : a.isArray with
  | false =>
    rw [place.single ha, Option.map_some, origin_variable nodup declared]
  | true =>
    obtain ⟨i, hi, type, value, named, rfl⟩ := cast _ (if_pos ha)
    rw [named, Option.map_some, origin_bitcast nodup hi]

/-- In the module `is` the name of an allocation leads to its place. -/
structure LeadsToPlace (d : Dictionary) (T : IdTable) (is : List Instruction) (storage : StorageClass)
    (a : Allocation) (y : Place) : Prop where
  place : y.Of d T storage a
  declared : y.instruction ∈ is
  root : (T.value? a.value).map (origin is) = some y.root.word

theorem forall₂_leadsToPlace (nodup : (results is).Nodup) (h : List.Forall₂ (Place.Of d T storage) as ys)
    (declared : ∀ y ∈ ys, y.instruction ∈ is) (cast : ∀ c ∈ casts as ys, ∃ i ∈ is, c.Written T i) :
    List.Forall₂ (LeadsToPlace d T is storage) as ys := by
  induction h with
  | nil => exact .nil
  | @cons a y as ys place _ ih =>
    simp only [casts_cons, List.mem_append, Option.mem_toList] at cast
    have first := declared y List.mem_cons_self
    refine .cons ⟨place, first, place.traced nodup first fun c hc => cast c (.inl hc)⟩ ?_
    exact ih (fun z hz => declared z (List.mem_cons_of_mem y hz)) fun c hc => cast c (.inr hc)

theorem roots_places (h : List.Forall₂ (LeadsToPlace d T is storage) as ys) :
    ((as.map (·.value)).map fun v => (T.value? v).map (origin is)) =
      (results (ys.map Place.instruction)).map some := by
  rw [results_places]
  induction h with
  | nil => rfl
  | cons leads _ ih => simp only [List.map_cons, leads.root, ih]

end Emission

end SpirvKernel
