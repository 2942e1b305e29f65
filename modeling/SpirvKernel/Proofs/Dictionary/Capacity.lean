import Mathlib.Algebra.GroupWithZero.Nat
import SpirvKernel.Proofs.Dictionary.Growth

/-!
# How much a request can take

A request fails for want of room only: the identifiers run out, or an instruction is too long. How
many identifiers it draws at most is bounded by the weight of what it declares.
-/

namespace SpirvKernel

/-- Whether a fault is a matter of size alone. -/
def Fault.isShortage : Fault → Bool
  | .spaceExhausted | .oversized _ => true
  | _ => false

/-! ## Bounds on identifiers -/

namespace Attempt

variable {ε σ τ α β γ : Type} {short F G : ε → Prop} {next : σ → Nat} {n k : Nat}

/-- However `x` ends, it draws at most `n`. It fails `short` of them, or for a fault in `F`. -/
def Draws (short : ε → Prop) (next : σ → Nat) (F : ε → Prop) (n : Nat) (x : Attempt ε σ α) : Prop :=
  ∀ s, next (x s).2 ≤ next s + n ∧
    ∀ e, (x s).1 = .error e → short e ∧ Supply.limit < next s + n ∨ F e

theorem Draws.mono {x : Attempt ε σ α} (h : Draws short next F n x) (hn : n ≤ k)
    (hF : ∀ e, F e → G e) : Draws short next G k x := by
  intro s
  obtain ⟨hnext, herror⟩ := h s
  refine ⟨by omega, fun e he => ?_⟩
  rcases herror e he with ⟨hs, hl⟩ | hf
  · exact .inl ⟨hs, by omega⟩
  · exact .inr (hF e hf)

theorem Draws.le {x : Attempt ε σ α} (h : Draws short next F n x) (hn : n ≤ k) :
    Draws short next F k x := h.mono hn fun _ => id

theorem draws_pure (a : α) : Draws short next F 0 (pure a) := fun _ => ⟨Nat.le_refl _, nofun⟩

theorem draws_state : Draws short next F 0 state := fun _ => ⟨Nat.le_refl _, nofun⟩

theorem draws_fail {e : ε} (h : F e) : Draws short next F 0 (fail e : Attempt ε σ α) :=
  fun _ => ⟨Nat.le_refl _, fun _ he => .inr (Except.error.inj he ▸ h)⟩

theorem draws_change {f : σ → σ} (h : ∀ s, next (f s) = next s) :
    Draws short next F 0 (change f) := fun s => ⟨Nat.le_of_eq (h s), nofun⟩

theorem Draws.bind_ok {x : Attempt ε σ α} {f : α → Attempt ε σ β} (hx : Draws short next F n x)
    (hf : ∀ s a s', x s = (.ok a, s') → Draws short next F k (f a)) :
    Draws short next F (n + k) (x >>= f) := by
  intro s
  obtain ⟨hnext, herror⟩ := hx s
  rw [bind_apply]
  rcases h : x s with ⟨e | a, s'⟩ <;> rw [h] at hnext herror <;> simp only at hnext herror ⊢
  · refine ⟨by omega, fun e' he => ?_⟩
    cases he
    rcases herror e rfl with ⟨hs, hl⟩ | hF
    · exact .inl ⟨hs, by omega⟩
    · exact .inr hF
  · obtain ⟨hnext', herror'⟩ := hf s a s' h s'
    refine ⟨by omega, fun e' he => ?_⟩
    rcases herror' e' he with ⟨hs, hl⟩ | hF
    · exact .inl ⟨hs, by omega⟩
    · exact .inr hF

theorem Draws.bind {x : Attempt ε σ α} {f : α → Attempt ε σ β} (hx : Draws short next F n x)
    (hf : ∀ a, Draws short next F k (f a)) : Draws short next F (n + k) (x >>= f) :=
  hx.bind_ok fun _ a _ _ => hf a

/-- The first step takes its share, the rest makes do with what is left. -/
theorem Draws.pay_ok {x : Attempt ε σ α} {f : α → Attempt ε σ β} (hx : Draws short next F k x)
    (hk : k ≤ n) (hf : ∀ s a s', x s = (.ok a, s') → Draws short next F (n - k) (f a)) :
    Draws short next F n (x >>= f) :=
  (hx.bind_ok hf).le (by omega)

theorem Draws.pay {x : Attempt ε σ α} {f : α → Attempt ε σ β} (hx : Draws short next F k x)
    (hk : k ≤ n) (hf : ∀ a, Draws short next F (n - k) (f a)) : Draws short next F n (x >>= f) :=
  hx.pay_ok hk fun _ a _ _ => hf a

theorem Draws.map {x : Attempt ε σ α} (hx : Draws short next F n x) (f : α → β) :
    Draws short next F n (f <$> x) := by
  rw [← bind_pure_comp]
  exact hx.bind fun a => draws_pure (f a)

theorem draws_forM {f : β → Attempt ε σ Unit} {cost : β → Nat} {bs : List β}
    (hf : ∀ b ∈ bs, Draws short next F (cost b) (f b)) :
    Draws short next F (bs.map cost).sum (bs.forM f) := by
  induction bs with
  | nil => exact draws_pure ()
  | cons b bs ih =>
    exact (hf b List.mem_cons_self).bind fun _ => ih fun c hc => hf c (List.mem_cons_of_mem b hc)

theorem draws_mapM {f : β → Attempt ε σ γ} {cost : β → Nat} {bs : List β}
    (hf : ∀ b ∈ bs, Draws short next F (cost b) (f b)) :
    Draws short next F (bs.map cost).sum (bs.mapM f) := by
  induction bs with
  | nil => exact draws_pure []
  | cons b bs ih =>
    rw [List.mapM_cons]
    refine (hf b List.mem_cons_self).bind fun c => ?_
    exact (ih fun c hc => hf c (List.mem_cons_of_mem b hc)).bind fun _ => draws_pure _

theorem Draws.onPart {x : Attempt ε σ α} {get : τ → σ} {set : τ → σ → τ} {next' : τ → Nat}
    (hx : Draws short next F n x) (hget : ∀ t, next' t = next (get t))
    (hset : ∀ t s, next' (set t s) = next s) : Draws short next' F n (onPart get set x) := by
  intro t
  simp only [onPart_apply, hset, hget t]
  exact hx (get t)

theorem draws_tolerate {p : ε → Bool} {x : Attempt ε σ α} (hx : Draws short next F n x) :
    Draws short next F n (tolerate p x) := by
  intro s
  obtain ⟨hnext, herror⟩ := hx s
  unfold tolerate
  rcases h : x s with ⟨e | a, s'⟩ <;> rw [h] at hnext herror <;> dsimp only at hnext herror ⊢
  · split
    · exact ⟨hnext, nofun⟩
    · refine ⟨hnext, fun e' he => ?_⟩
      cases he
      exact herror e rfl
  · exact ⟨hnext, nofun⟩

end Attempt

/-! ## Requests -/

namespace Dictionary

open Attempt

variable {α β : Type} {small : Prop} {n k : Nat}

/-- The request draws at most `n`, and fails for want of room only: of identifiers, if `small`. -/
def Costs (small : Prop) (n : Nat) (x : Declare α) : Prop :=
  Draws (·.isShortage = true) (·.supply.next) (fun e => e.isShortage = true ∧ ¬ small) n x

theorem Costs.isShortage {x : Declare α} (h : Costs small n x) {d d' : Dictionary} {e : Fault}
    (hx : x d = (.error e, d')) : e.isShortage = true := by
  rcases (h d).2 e (by rw [hx]) with h | h
  · exact h.1
  · exact h.1

theorem costs_draw : Costs small 1 (onSupply Supply.draw) := by
  intro d
  rw [onSupply, onPart_apply, Supply.draw_apply]
  split
  · refine ⟨Nat.le_refl _, ?_⟩
    rintro _ ⟨⟩
  · rename_i full
    refine ⟨Nat.le_succ _, fun e he => .inl ?_⟩
    cases he
    exact ⟨rfl, Nat.lt_of_not_le full⟩

theorem costs_need (c : Option Capability) : Costs small 0 (need c) := by
  cases c with
  | none => exact draws_pure ()
  | some c => exact draws_change fun _ => rfl

theorem costs_emit {op : Opcode} {ws : List Word} (h : small → ws.length < Instruction.maxSize) :
    Costs small 0 (emit op ws) := by
  unfold emit
  dsimp only
  split
  · exact draws_change fun _ => rfl
  · rename_i long
    exact draws_fail ⟨rfl, fun hs => long (Instruction.fits_of op (h hs))⟩

theorem costs_define {op : Opcode} {type : Option Id} {ws : List Word}
    (h : small → ws.length + 2 < Instruction.maxSize) : Costs small 1 (define op type ws) := by
  refine Draws.bind (n := 1) (k := 0) costs_draw fun id => ?_
  refine Draws.bind (n := 0) (k := 0) (costs_emit fun hs => ?_) fun _ => draws_pure id
  have := h hs
  cases type <;> simp <;> omega

theorem costs_once {make : Declare Id} (key : Declaration) (h : Costs small n make) :
    Costs small n (once key make) := by
  refine draws_state.pay (Nat.zero_le n) fun d => ?_
  cases d.get? key with
  | some id => exact (draws_pure id).le (Nat.zero_le n)
  | none =>
    refine Draws.bind (n := n) (k := 0) h fun id => ?_
    exact Draws.bind (n := 0) (k := 0) (draws_change fun _ => rfl) fun _ => draws_pure id

/-! ## Types, constants and variables -/

theorem costs_pointerTo {pointee : Ty} {declared : Declare Id} (storage : StorageClass)
    (h : Costs small n declared) : Costs small (n + 1) (pointerTo pointee declared storage) := by
  refine costs_once _ (Draws.le (n := 0 + (n + 1)) ?_ (by omega))
  refine (costs_need _).bind fun _ => h.bind fun id => costs_define fun _ => ?_
  simp [Instruction.maxSize]

theorem length_literal (c : Constant) : c.literal.length ≤ 2 := by
  cases c <;> simp only [Constant.literal, Word.ofLiteral, List.length_nil, Nat.zero_le] <;>
    split <;> simp

theorem costs_constantOf {declared : Declare Id} (c : Constant) (h : Costs small n declared) :
    Costs small (n + 1) (constantOf declared c) := by
  refine costs_once _ (h.bind fun id => costs_define fun _ => ?_)
  have := length_literal c.truncate
  unfold Instruction.maxSize
  omega

theorem costs_intId (w : IntWidth) : Costs small 1 (intId w) := by
  refine costs_once _ (Draws.bind (n := 0) (costs_need _) fun _ => costs_define fun _ => ?_)
  simp [Instruction.maxSize]

theorem costs_floatId (w : FloatWidth) : Costs small 1 (floatId w) := by
  refine costs_once _ (Draws.bind (n := 0) (costs_need _) fun _ => costs_define fun _ => ?_)
  simp [Instruction.maxSize]

theorem costs_wordId (w : Word) : Costs small 2 (wordId w) := costs_constantOf _ (costs_intId _)

theorem length_typeIds {ts : List Ty} {d d' : Dictionary} {ids : List Id}
    (h : typeIds ts d = (.ok ids, d')) : ids.length = ts.length := by
  induction ts generalizing d d' ids with
  | nil => cases h; rfl
  | cons t ts ih =>
    simp only [typeIds, bind_eq_ok_iff, pure_ok_iff] at h
    obtain ⟨id, _, -, rest, _, hrest, rfl, -⟩ := h
    simp [ih hrest]

mutual

/-- The length of an array is a constant, for which its type may have to be declared. -/
theorem costs_typeId : (t : Ty) → (small → t.weight + 2 < Instruction.maxSize) →
    Costs small (2 * t.weight) (typeId t)
  | .void, _ | .bool, _ => by
    refine (costs_once _ (costs_define fun _ => ?_)).le (by simp [Ty.weight])
    simp [Instruction.maxSize]
  | .int w, _ => (costs_intId w).le (by simp [Ty.weight])
  | .float w, _ => (costs_floatId w).le (by simp [Ty.weight])
  | .vector elem count, h => by
    have inner := costs_typeId elem fun hs => by have := h hs; simp only [Ty.weight] at this; omega
    refine (costs_once _ (inner.bind fun id => costs_define fun _ => ?_)).le ?_
    · simp [Instruction.maxSize]
    · simp only [Ty.weight]; omega
  | .array elem length, h => by
    have inner := costs_typeId elem fun hs => by have := h hs; simp only [Ty.weight] at this; omega
    refine (costs_once _ (inner.bind fun id => (costs_wordId length).bind fun n =>
      costs_define fun _ => ?_)).le ?_
    · simp [Instruction.maxSize]
    · simp only [Ty.weight]; omega
  | .struct fields, h => by
    have inner := costs_typeIds fields fun hs => by have := h hs; simp only [Ty.weight] at this; omega
    refine (costs_once _ (inner.bind_ok fun d ids d' hids => costs_define fun hs => ?_)).le ?_
    · have := h hs
      have := Ty.length_le_weights fields
      simp only [Ty.weight, List.length_map, length_typeIds hids] at *
      omega
    · simp only [Ty.weight]; omega
  | .pointer pointee space, h => by
    have inner := costs_typeId pointee fun hs => by
      have := h hs; simp only [Ty.weight] at this; omega
    refine (costs_pointerTo space.storage inner).le ?_
    simp only [Ty.weight]; omega

theorem costs_typeIds : (ts : List Ty) → (small → Ty.weights ts + 2 < Instruction.maxSize) →
    Costs small (2 * Ty.weights ts) (typeIds ts)
  | [], _ => draws_pure []
  | t :: ts, h => by
    have first := costs_typeId t fun hs => by have := h hs; simp only [Ty.weights] at this; omega
    have rest := costs_typeIds ts fun hs => by have := h hs; simp only [Ty.weights] at this; omega
    rw [Ty.weights, Nat.mul_add]
    exact first.bind fun id => rest.bind fun ids => draws_pure (id :: ids)

end

theorem costs_pointerId {pointee : Ty} {storage : StorageClass}
    (h : small → pointee.weight + 2 < Instruction.maxSize) :
    Costs small (2 * pointee.weight + 1) (pointerId pointee storage) :=
  costs_pointerTo storage (costs_typeId pointee h)

theorem costs_constantId {c : Constant} (h : small → c.type.weight + 2 < Instruction.maxSize) :
    Costs small (2 * c.type.weight + 1) (constantId c) :=
  costs_constantOf c (costs_typeId c.type h)

theorem costs_signatureId {result : Ty} {params : List Ty}
    (h : small → Ty.weights (result :: params) + 2 < Instruction.maxSize) :
    Costs small (2 * Ty.weights (result :: params) + 1) (signatureId result params) := by
  refine costs_once _ ((costs_typeIds _ h).bind_ok fun d ids d' hids => costs_define fun hs => ?_)
  have := h hs
  have := Ty.length_le_weights (result :: params)
  rw [List.length_map, length_typeIds hids]
  omega

theorem costs_decorate (target : Id) (decoration : Decoration) (value : Word) :
    Costs small 0 (decorate target decoration value) := draws_change fun _ => rfl

theorem costs_builtinId (b : BuiltIn) : Costs small 6 (builtinId b) := by
  have pointer : Costs small 5 (pointerId BuiltIn.type .input) := costs_pointerId fun _ => by decide
  refine costs_once _ (pointer.pay (by omega) fun pointer => ?_)
  refine Draws.bind (k := 0) (costs_define fun _ => ?_) fun id => ?_
  · simp [Instruction.maxSize]
  refine Draws.bind (k := 0) (costs_decorate _ _ _) fun _ => ?_
  exact Draws.bind (n := 0) (k := 0) (draws_change fun _ => rfl) fun _ => draws_pure id

theorem costs_hostNumber (word : Id) : Costs small 1 (hostNumber word) := by
  refine Draws.bind (k := 0) (costs_define fun _ => ?_) fun id => ?_
  · simp [Instruction.maxSize]
  refine Draws.bind (n := 0) (k := 0) draws_state fun d => ?_
  refine Draws.bind (k := 0) (costs_decorate _ _ _) fun _ => ?_
  exact Draws.bind (n := 0) (k := 0) (draws_change fun _ => rfl) fun _ => draws_pure id

theorem costs_groupVariable {elem : Ty} {extent : Extent}
    (h : small → elem.weight + 4 < Instruction.maxSize) :
    Costs small (2 * elem.weight + 6) (groupVariable elem extent) := by
  have hsmall : small → elem.weight + 2 < Instruction.maxSize := fun hs => by have := h hs; omega
  have made : ∀ pointer : Id, Costs small 1
      (define .variable (some pointer) [StorageClass.workgroup.number]) :=
    fun _ => costs_define fun _ => by simp [Instruction.maxSize]
  cases extent with
  | single => exact ((costs_pointerId hsmall).bind made).le (by omega)
  | fixed n =>
    have pointer : Costs small (2 * Ty.weight (.array elem n) + 1)
        (pointerId (.array elem n) .workgroup) := costs_pointerId fun hs => by
      have := h hs
      simp only [Ty.weight]
      omega
    refine (pointer.bind made).le ?_
    simp only [Ty.weight]
    omega
  | dynamic =>
    have pointer : Costs small (2 + (2 * elem.weight + (1 + (1 + 1)))) (dynamicArrayPointer elem) := by
      refine Draws.bind (n := 2) (costs_typeId .i32 fun _ => by decide) fun word => ?_
      refine (costs_typeId _ hsmall).bind fun e => (costs_hostNumber word).bind fun length => ?_
      refine (costs_define fun _ => ?_).bind fun array => costs_define fun _ => ?_
      · simp [Instruction.maxSize]
      · simp [Instruction.maxSize]
    exact (pointer.bind made).le (by omega)

end Dictionary

end SpirvKernel
