import SpirvKernel.Proofs.Emission.Tariff

/-!
# How much emission can take

The size of a method bounds the identifiers that its declarations draw. Up to a moderate size, no
instruction is too long.
-/

namespace SpirvKernel

open Attempt

namespace Emission

variable {α : Type} {small : Prop} {n : Nat}

/-- The faults that the size of what is emitted does not exclude. -/
def Admits (small : Prop) (e : Fault) : Prop := e.isShortage = true → ¬ small

/-- Emission draws at most `n` for declarations. If `small`, no other shortage can stop it. -/
def Spends (small : Prop) (n : Nat) (x : Emit α) : Prop :=
  Draws (·.isShortage = true) (·.dictionary.supply.next) (Admits small) n x

/-! ## The tariff of declarations -/

theorem admits_of_isShortage_eq_false {e : Fault} (h : e.isShortage = false) : Admits small e := by
  intro hs
  rw [h] at hs
  cases hs

theorem spends_onTable {x : Attempt Fault IdTable α}
    (hx : Draws (fun _ => False) (fun _ => 0) (·.isShortage = false) 0 x) :
    Spends small 0 (onTable x) := by
  refine fun s => ⟨Nat.le_refl _, fun e he => .inr (admits_of_isShortage_eq_false ?_)⟩
  exact ((hx s.work.table).2 e he).resolve_left fun h => h.1

theorem draws_fresh :
    Draws (fun _ => False) (fun _ => 0) (·.isShortage = false) 0 IdTable.fresh := by
  have take : Draws (fun _ => False) (fun _ => 0) (·.isShortage = false) 0 IdRange.take := by
    intro r
    unfold IdRange.take
    split
    · exact ⟨Nat.le_refl 0, nofun⟩
    · exact ⟨Nat.le_refl 0, fun e he => .inr (by cases he; rfl)⟩
  exact take.onPart (fun _ => rfl) fun _ _ => rfl

theorem draws_bind (e : Entity) (id : Id) :
    Draws (fun _ => False) (fun _ => 0) (·.isShortage = false) 0 (IdTable.bind e id) := by
  intro table
  unfold IdTable.bind
  split
  · exact ⟨Nat.le_refl 0, fun e he => .inr (by cases he; rfl)⟩
  · exact ⟨Nat.le_refl 0, nofun⟩

theorem draws_allocate (e : Entity) :
    Draws (fun _ => False) (fun _ => 0) (·.isShortage = false) 0 (IdTable.allocate e) := by
  refine draws_state.pay (Nat.zero_le 0) fun table => ?_
  split
  · exact draws_fail rfl
  · refine draws_fresh.pay (Nat.zero_le 0) fun id => ?_
    exact (draws_bind e id).pay (Nat.zero_le 0) fun _ => draws_pure id

end Emission

open Emission

namespace Tariff

variable {small : Prop}

/-- Every identifier that a declaration draws costs one, all else nothing. -/
def declarations (small : Prop) : Tariff where
  small := small
  declaration := 1
  fresh := 0
  allocate _ := 0
  bind _ := 0
  used s := s.dictionary.supply.next
  short := (·.isShortage = true)
  other := Admits small
  isLocal h := admits_of_isShortage_eq_false (Fault.isShortage_of_isLocal h)
  oversized h _ := h
  used_congr h _ := by rw [h]
  draws_declare hx := by
    have admitted : Draws _ _ (Admits small) _ _ :=
      hx.mono (Nat.le_of_eq (Nat.one_mul _).symm) fun _ h _ => h.2
    exact admitted.onPart (fun _ => rfl) fun _ _ => rfl
  draws_fresh := spends_onTable Emission.draws_fresh
  draws_allocate e := spends_onTable (Emission.draws_allocate e)
  draws_bind e id := spends_onTable (Emission.draws_bind e id)

theorem body_declarations (m : Method) : (declarations small).body m = 0 := by
  have value : (declarations small).value = fun _ => 0 := by
    funext v
    unfold value
    cases v.kind <;> rfl
  have item : (declarations small).item = fun _ => 0 := funext fun _ => ite_self _
  have group : (declarations small).group = fun _ => 0 := funext fun _ => ite_self _
  have cast : (declarations small).cast = fun _ => 0 := funext fun _ => ite_self _
  have labels : (m.blocks.map fun b => (declarations small).allocate (.block b.id)).sum = 0 := by
    simp [declarations]
  simp [body, storage, value, item, group, cast, labels]

end Tariff

namespace Emission

variable {small : Prop} {t : Task}

/-! ## Calls -/

theorem spends_expect (call : Call) : Spends small 0 (expect call) := by
  refine draws_state.pay (Nat.zero_le _) fun s => ?_
  split
  · exact draws_pure ()
  · exact draws_fail nofun

theorem spends_header (h : small → t.method.size ≤ sizeLimit) :
    Spends small (7 * t.method.size) (header t) := by
  obtain ⟨x, hx, charges⟩ := header_charges (T := .declarations small) h
  rw [hx]
  refine (spends_expect .header).pay (Nat.zero_le _) fun _ => Draws.le charges ?_
  simp [Tariff.header, Tariff.declarations]

theorem spends_body (h : small → t.method.size ≤ sizeLimit)
    (hstorage : t.storage = .ofMethod t.method) :
    Spends small (25 * t.method.size) (body t) := by
  obtain ⟨x, hx, charges⟩ := body_charges (T := .declarations small) h hstorage fun _ => nofun
  rw [hx]
  refine (spends_expect .body).pay (Nat.zero_le _) fun _ => Draws.le charges ?_
  rw [Tariff.body_declarations]
  simp [Tariff.declarations]

end Emission

end SpirvKernel
