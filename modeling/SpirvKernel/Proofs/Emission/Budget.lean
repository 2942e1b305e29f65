import SpirvKernel.Proofs.Emission.Acceptance
import SpirvKernel.Proofs.Emission.Tariff

/-!
# Emission keeps within the identifiers of a method

However the emission of a method ends, it takes no more identifiers from the range of the method than
were set aside: one for each parameter and block, up to three for a value. So the range never runs
out, and every allocation has its place.
-/

namespace SpirvKernel

open Attempt

/-- Whether a fault would be one of the emission itself and not of the method. -/
def Fault.isInternal : Fault → Bool
  | .rangeExhausted | .outOfOrder .. | .unplannedAllocation _ => true
  | _ => false

theorem Fault.isInternal_of_isPlain {e : Fault} (h : e.isPlain = true) : e.isInternal = false := by
  cases e <;> first | rfl | cases h

/-! ## The range of a method -/

namespace IdTable

variable {α : Type} {n : Nat}

/-- How far the range is used up, as if it ended at the limit of all identifiers. -/
def used (t : IdTable) : Nat := t.range.next + (Supply.limit - t.range.stop)

/-- However `x` ends, it takes at most `n`, with an internal fault only if they are not left. -/
def Consumes (n : Nat) (x : Attempt Fault IdTable α) : Prop :=
  Draws (· = .rangeExhausted) used (·.isInternal = false) n x

theorem consumes_fresh : Consumes 1 fresh := by
  intro t
  rw [fresh, onPart_apply]
  unfold IdRange.take used
  split
  · refine ⟨by dsimp only; omega, ?_⟩
    rintro _ ⟨⟩
  · rename_i full
    refine ⟨Nat.le_succ _, fun e he => .inl ?_⟩
    cases he
    exact ⟨rfl, by omega⟩

theorem consumes_bind (e : Entity) (id : Id) : Consumes 0 (IdTable.bind e id) := by
  intro t
  unfold IdTable.bind
  split
  · exact ⟨Nat.le_refl _, fun e he => .inr (by cases he; rfl)⟩
  · exact ⟨Nat.le_refl _, nofun⟩

theorem consumes_allocate (e : Entity) : Consumes 1 (allocate e) := by
  refine draws_state.pay (Nat.zero_le _) fun t => ?_
  split
  · exact fun _ => ⟨Nat.le_succ _, fun _ he => .inr (Except.error.inj he ▸ rfl)⟩
  · refine consumes_fresh.pay (Nat.le_refl _) fun id => ?_
    exact (consumes_bind e id).pay (Nat.zero_le _) fun _ => (draws_pure id).le (Nat.zero_le _)

end IdTable

namespace Tariff

/-- Every identifier of the range costs one, a name by itself nothing. -/
def identifiers : Tariff :=
  ofTable 1 (fun _ => 1) (fun _ => 0) IdTable.used (· = .rangeExhausted) (·.isInternal = false)
    Fault.isInternal_of_isPlain IdTable.consumes_fresh IdTable.consumes_allocate IdTable.consumes_bind

theorem value_identifiers_le (v : Value) : identifiers.value v ≤ v.idCount := by
  unfold value Value.idCount
  cases v.kind <;> simp [identifiers, ofTable, ValueKind.isAlloca]

theorem storage_identifiers_le (s : Storage) : identifiers.storage s ≤ 2 * s.all.length := by
  have item : identifiers.item = fun _ => 1 := funext fun _ => ite_self _
  have group : identifiers.group = fun _ => 0 := funext fun _ => ite_self _
  have casts : (s.all.map identifiers.cast).sum ≤ (s.all.map fun _ => 1).sum := by
    refine List.sum_le_sum fun a _ => ?_
    unfold cast
    split <;> simp [identifiers, ofTable]
  have all : s.item.length ≤ s.all.length := by simp [Storage.all]
  simp only [storage, item, group, List.map_const', List.sum_replicate_nat] at casts ⊢
  omega

theorem header_identifiers (m : Method) : identifiers.header m = m.params.length := by
  simp [header, identifiers, ofTable]

theorem body_identifiers_le (m : Method) :
    identifiers.body m ≤ m.blocks.length + 3 * m.values.length := by
  have blocks : (m.blocks.map fun b => identifiers.allocate (.block b.id)).sum = m.blocks.length := by
    simp [identifiers, ofTable]
  have values : (m.values.map identifiers.value).sum ≤ (m.values.map Value.idCount).sum :=
    List.sum_le_sum fun v _ => value_identifiers_le v
  have storage := storage_identifiers_le (.ofMethod m)
  have total := m.idCounts_le
  rw [body, blocks]
  omega

end Tariff

namespace Emission

variable {α : Type} {n : Nat} {t : Task} {s : Emission}

def used (s : Emission) : Nat := s.work.table.used

/-- As `Consumes`, for the one run from a state. -/
def ConsumesAt (n : Nat) (x : Emit α) (s : Emission) : Prop :=
  used (x s).2 ≤ used s + n ∧ ∀ e, (x s).1 = .error e →
    e = .rangeExhausted ∧ Supply.limit < used s + n ∨ e.isInternal = false

theorem header_consumes (t : Task) (hs : s.work.stage = Call.header.stage) :
    ConsumesAt t.method.params.length (header t) s := by
  have charges := Tariff.chargesAt_header (T := .identifiers) (t := t) rfl nofun hs
  rwa [Tariff.header_identifiers] at charges

theorem body_consumes (hstorage : t.storage = .ofMethod t.method)
    (hs : s.work.stage = Call.body.stage) :
    ConsumesAt (t.method.blocks.length + 3 * t.method.values.length) (body t) s :=
  (Tariff.chargesAt_body (T := .identifiers) rfl nofun hstorage hs fun _ => rfl).le
    (Tariff.body_identifiers_le t.method)

end Emission

end SpirvKernel
