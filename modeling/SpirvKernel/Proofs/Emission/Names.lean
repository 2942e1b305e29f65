import SpirvKernel.Proofs.Emission.Tariff
import SpirvKernel.Proofs.Outcome
import SpirvKernel.Proofs.WellFormed

/-!
# Names are given once

The emission of a method names each parameter, block and value at most once. So it never comes upon a
name that is taken already, unless the method itself uses one name for two things.
-/

namespace SpirvKernel

open Attempt

/-- Whether a fault is one of how a method is put together: a name for two things, or no block. -/
def Fault.isStructural : Fault → Bool
  | .alreadyAllocated _ | .emptyMethod _ => true
  | _ => false

theorem Fault.isStructural_of_isPlain {e : Fault} (h : e.isPlain = true) :
    e.isStructural = false := by
  cases e <;> first | rfl | cases h

/-! ## The tariff of a name -/

/-- One if both are the same, else zero. -/
def Entity.same (e e' : Entity) : Nat := if e' = e then 1 else 0

namespace IdTable

variable {α : Type} {e : Entity} {n : Nat}

/-- How often an entity was named, which is once at most. -/
def times (e : Entity) (t : IdTable) : Nat := if (t.get? e).isSome then 1 else 0

theorem times_le (e : Entity) (t : IdTable) : t.times e ≤ 1 := by
  unfold times
  split <;> omega

/-- However `x` ends, it names `e` at most `n` times, and fails for that name if it would be a second. -/
def Names (e : Entity) (n : Nat) (x : Attempt Fault IdTable α) : Prop :=
  -- All of the credit but one counts as used from the start, so that it ends with the first name.
  Draws (· = .alreadyAllocated e) (fun t => Supply.limit - 1 + t.times e)
    (fun f => f ≠ .alreadyAllocated e ∧ ∀ name, f ≠ .emptyMethod name) n x

theorem names_fresh : Names e 0 fresh := by
  intro t
  rw [fresh, onPart_apply]
  unfold IdRange.take
  split
  · refine ⟨Nat.le_refl _, ?_⟩
    rintro _ ⟨⟩
  · refine ⟨Nat.le_refl _, fun f hf => .inr ?_⟩
    cases hf
    simp

theorem names_taken {e' : Entity} {t : IdTable} (h : (t.get? e').isSome) :
    Fault.alreadyAllocated e' = .alreadyAllocated e ∧
        Supply.limit < Supply.limit - 1 + t.times e + e.same e' ∨
      Fault.alreadyAllocated e' ≠ .alreadyAllocated e ∧
        ∀ name, Fault.alreadyAllocated e' ≠ .emptyMethod name := by
  by_cases he : e' = e
  · subst he
    refine .inl ⟨rfl, ?_⟩
    rw [times, if_pos h, Entity.same, if_pos rfl]
    have : 1 ≤ Supply.limit := by decide
    omega
  · exact .inr ⟨fun heq => he (Fault.alreadyAllocated.inj heq), nofun⟩

theorem times_of_bind {t t' : IdTable} {e' : Entity} {id : Id} (h : bind e' id t = (.ok (), t')) :
    t'.times e ≤ t.times e + e.same e' := by
  have get := get?_of_bind h e
  by_cases he : e' = e
  · have := t'.times_le e
    rw [Entity.same, if_pos he]
    omega
  · rw [if_neg (Ne.symm he)] at get
    rw [times, get, times]
    exact Nat.le_add_right _ _

theorem names_bind (e' : Entity) (id : Id) : Names e (e.same e') (IdTable.bind e' id) := by
  intro t
  by_cases taken : (t.get? e').isSome
  · have run : IdTable.bind e' id t = (.error (.alreadyAllocated e'), t) := if_pos taken
    rw [run]
    refine ⟨Nat.le_add_right _ _, fun f hf => ?_⟩
    cases hf
    exact names_taken taken
  · have run : IdTable.bind e' id t = (.ok (), { t with entries := (e', id) :: t.entries }) :=
      if_neg taken
    have times := times_of_bind (e := e) run
    rw [run]
    exact ⟨by dsimp only; omega, nofun⟩

theorem names_allocate (e' : Entity) : Names e (e.same e') (allocate e') := by
  intro t
  by_cases taken : (t.get? e').isSome
  · have run : allocate e' t = (.error (.alreadyAllocated e'), t) := by
      simp [allocate, bind_apply, taken]
    rw [run]
    refine ⟨Nat.le_add_right _ _, fun f hf => ?_⟩
    cases hf
    exact names_taken taken
  · let named : Attempt Fault IdTable Id := do let id ← fresh; IdTable.bind e' id; pure id
    have free : Names e (e.same e') named := by
      refine names_fresh.pay (Nat.zero_le _) fun id => ?_
      exact (names_bind e' id).pay (Nat.le_refl _) fun _ => (draws_pure id).le (Nat.zero_le _)
    have run : allocate e' t = named t := by
      simp [allocate, named, bind_apply, taken]
    rw [run]
    exact free t

end IdTable

/-- Naming `e` costs one, all else nothing. -/
def Tariff.naming (e : Entity) : Tariff :=
  ofTable 0 e.same e.same (fun t => Supply.limit - 1 + t.times e) (· = .alreadyAllocated e)
    (fun f => f ≠ .alreadyAllocated e ∧ ∀ name, f ≠ .emptyMethod name)
    (fun h => by
      refine ⟨?_, ?_⟩
      · rintro rfl; cases h
      · rintro name rfl; cases h)
    IdTable.names_fresh IdTable.names_allocate IdTable.names_bind

/-! ## What is named -/

/-- All that a method names: its parameters, its values and its blocks. -/
def Method.entities (m : Method) : List Entity :=
  (m.params.map (·.value) ++ m.values.map (·.id)).map .value ++ (m.blocks.map (·.id)).map .block

theorem Method.Distinct.nodup_entities {m : Method} (h : m.Distinct) : m.entities.Nodup := by
  rw [entities, List.nodup_append]
  refine ⟨h.values.map fun _ _ => Entity.value.inj, h.blocks.map fun _ _ => Entity.block.inj, ?_⟩
  intro e he e' he'
  obtain ⟨v, -, rfl⟩ := List.mem_map.mp he
  obtain ⟨b, -, rfl⟩ := List.mem_map.mp he'
  nofun

namespace Tariff

variable (e : Entity)

theorem item_add_cast (a : Allocation) :
    (naming e).item a + (naming e).cast a = e.same (.value a.value) := by
  unfold item cast
  split <;> simp [naming, ofTable]

theorem group_add_cast (a : Allocation) :
    (naming e).group a + (naming e).cast a = e.same (.value a.value) := by
  unfold group cast
  split <;> simp [naming, ofTable]

theorem storage_naming (s : Storage) :
    (naming e).storage s = (s.all.map fun a => e.same (.value a.value)).sum := by
  -- An array is named by its cast, any other allocation by its variable.
  have items : (s.item.map (naming e).item).sum + (s.item.map (naming e).cast).sum =
      (s.item.map fun a => e.same (.value a.value)).sum := by
    rw [← List.sum_map_add]
    simp only [item_add_cast]
  rw [storage, Storage.all]
  generalize s.group ++ s.dynamicGroup = gs
  have groups : (gs.map (naming e).group).sum + (gs.map (naming e).cast).sum =
      (gs.map fun a => e.same (.value a.value)).sum := by
    rw [← List.sum_map_add]
    simp only [group_add_cast]
  simp only [List.map_append, List.sum_append]
  omega

theorem value_naming_le (v : Value) :
    (naming e).value v ≤ if v.kind.isAlloca then 0 else e.same (.value v.id) := by
  unfold value
  cases v.kind <;> simp [naming, ofTable, ValueKind.isAlloca]

theorem values_naming_le (vs : List Value) :
    ((vs.filter (·.kind.isAlloca)).map fun v => e.same (.value v.id)).sum +
        (vs.map (naming e).value).sum ≤ (vs.map fun v => e.same (.value v.id)).sum := by
  -- Allocations are named at the top, all other values where they stand.
  induction vs with
  | nil => exact Nat.le_refl _
  | cons v vs ih =>
    have first := value_naming_le e v
    rw [List.map_cons, List.map_cons, List.sum_cons, List.sum_cons, List.filter_cons]
    split at first
    · rename_i alloca
      rw [if_pos alloca, List.map_cons, List.sum_cons]
      omega
    · rename_i other
      rw [if_neg other]
      omega

theorem sum_same (es : List Entity) : (es.map e.same).sum = es.count e := by
  induction es with
  | nil => rfl
  | cons e' es ih =>
    rw [List.map_cons, List.sum_cons, ih, List.count_cons, Entity.same, Nat.add_comm]
    simp only [beq_iff_eq]

/-- The header and the body together name nothing twice that the method lists once. -/
theorem header_add_body_naming_le (m : Method) :
    (naming e).header m + (naming e).body m ≤ m.entities.count e := by
  have perm := ((Storage.values_ofMethod_perm m).map fun u => e.same (.value u)).sum_nat
  have values := values_naming_le e m.values
  rw [← sum_same, Method.entities]
  simp only [List.map_append, List.sum_append, List.map_map, Function.comp_def] at perm ⊢
  rw [body, storage_naming, header]
  simp only [naming, ofTable] at values ⊢
  omega

theorem naming_le_one {m : Method} (h : m.Distinct) : (naming e).header m + (naming e).body m ≤ 1 :=
  Nat.le_trans (header_add_body_naming_le e m) (List.nodup_iff_count_le_one.mp h.nodup_entities e)

end Tariff

/-! ## Runs -/

namespace Emission

variable {x : Emit Unit} {s : Emission} {n : Entity → Nat}

theorem not_isStructural_of_naming (charges : ∀ e, (Tariff.naming e).ChargesAt (n e) x s)
    (once : ∀ e, s.work.table.times e + n e ≤ 1) {f : Fault} (hf : (x s).1 = .error f) :
    f.isStructural = false := by
  cases f with
  | alreadyAllocated e =>
    rcases (charges e).2 _ hf with ⟨-, full⟩ | other
    · have := once e
      have : 1 ≤ Supply.limit := by decide
      simp only [Tariff.naming, Tariff.ofTable] at full
      omega
    · exact absurd rfl other.1
  | emptyMethod name =>
    rcases (charges (.value ⟨0⟩)).2 _ hf with ⟨short, -⟩ | other
    · cases short
    · exact absurd rfl (other.2 name)
  | _ => rfl

theorem settles_of_naming (charges : ∀ e, (Tariff.naming e).ChargesAt (n e) x s)
    (once : ∀ e, s.work.table.times e + n e ≤ 1) :
    Settles (·.isStructural = false) True (fun _ s' => x s = (.ok (), s') ∧
      ∀ e, s'.work.table.times e ≤ s.work.table.times e + n e) x s := by
  refine settles_of (fun _ s' run => ⟨trivial, run, fun e => ?_⟩) fun f s' run _ => ?_
  · have used := (charges e).1
    rw [run] at used
    simp only [Tariff.naming, Tariff.ofTable] at used
    omega
  · exact not_isStructural_of_naming charges once (by rw [run])

end Emission

end SpirvKernel
