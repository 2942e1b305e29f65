import SpirvKernel.Emission.Function
import SpirvKernel.Proofs.Dictionary.Capacity
import SpirvKernel.Proofs.Emission.Lowering
import SpirvKernel.Proofs.Emission.Storage
import SpirvKernel.Proofs.Size

/-!
# Tariffs

A tariff charges for each identifier that emission takes from the range of a method, for each name
that it gives and for each identifier that its declarations draw. What the emission of a method is
charged follows from the method alone, under any tariff and however the emission ends.
-/

namespace SpirvKernel

open Attempt

/-- Whether a fault lies in what a single value or terminator asks for. -/
def Fault.isLocal : Fault → Bool
  | .unallocated _ | .unsupported _ | .unknownMethod _ | .unknownValue _ => true
  | _ => false

/-- Whether a fault lies in what is asked for, or in how much of it there is. -/
def Fault.isPlain (e : Fault) : Bool := e.isLocal || e.isShortage

theorem Fault.isShortage_of_isLocal {e : Fault} (h : e.isLocal = true) : e.isShortage = false := by
  cases e <;> first | rfl | cases h

theorem Fault.isPlain_of_isShortage {e : Fault} (h : e.isShortage = true) : e.isPlain = true := by
  rw [isPlain, h, Bool.or_true]

structure Tariff where
  /-- Whether what is emitted is taken to be of moderate size. -/
  small : Prop
  /-- The rate for the identifiers that declarations draw. -/
  declaration : Nat
  fresh : Nat
  allocate : Entity → Nat
  bind : Entity → Nat
  /-- What has been charged so far. The credit ends at the limit of all identifiers. -/
  used : Emission → Nat
  /-- The fault that is met when the credit is used up. -/
  short : Fault → Prop
  /-- The faults that may be met besides. -/
  other : Fault → Prop
  isLocal : ∀ {e : Fault}, e.isLocal = true → other e
  oversized : ∀ {op : Opcode}, ¬ small → other (.oversized op)
  used_congr : ∀ {s s' : Emission}, s'.dictionary = s.dictionary → s'.work.table = s.work.table →
    used s' = used s
  draws_declare : ∀ {α : Type} {n : Nat} {x : Declare α}, Dictionary.Costs small n x →
    Draws short used other (declaration * n) (Emission.declare x)
  draws_fresh : Draws short used other fresh (Emission.onTable IdTable.fresh)
  draws_allocate : ∀ e, Draws short used other (allocate e) (Emission.onTable (IdTable.allocate e))
  draws_bind : ∀ e id, Draws short used other (bind e) (Emission.onTable (IdTable.bind e id))

namespace Tariff

/-- A tariff for names and identifiers of the range alone. Declarations are free. -/
def ofTable (fresh : Nat) (allocate bind : Entity → Nat) (used : IdTable → Nat)
    (short other : Fault → Prop) (plain : ∀ {e : Fault}, e.isPlain = true → other e)
    (draws_fresh : Draws short used other fresh IdTable.fresh)
    (draws_allocate : ∀ e, Draws short used other (allocate e) (IdTable.allocate e))
    (draws_bind : ∀ e id, Draws short used other (bind e) (IdTable.bind e id)) : Tariff where
  small := False
  declaration := 0
  fresh := fresh
  allocate := allocate
  bind := bind
  used s := used s.work.table
  short := short
  other := other
  isLocal h := plain (by rw [Fault.isPlain, h, Bool.true_or])
  oversized _ := plain rfl
  used_congr _ h := congrArg used h
  draws_declare hx := by
    intro s
    refine ⟨Nat.le_add_right _ _, fun e he => .inr (plain (Fault.isPlain_of_isShortage ?_))⟩
    exact hx.isShortage (Prod.ext he rfl)
  draws_fresh := Draws.onPart (draws_fresh.onPart (fun _ => rfl) fun _ _ => rfl) (fun _ => rfl)
    fun _ _ => rfl
  draws_allocate e := Draws.onPart ((draws_allocate e).onPart (fun _ => rfl) fun _ _ => rfl) (fun _ => rfl)
    fun _ _ => rfl
  draws_bind e id := Draws.onPart ((draws_bind e id).onPart (fun _ => rfl) fun _ _ => rfl) (fun _ => rfl)
    fun _ _ => rfl

variable (T : Tariff)

/-! ## What a method is charged for its names -/

/-- What a value is charged where it stands. -/
def value (v : Value) : Nat :=
  match v.kind with
  | .alloca .. | .store .. | .barrier | .inlineAssembly .. => 0
  | .constant _ => T.bind (.value v.id)
  -- The vector of indices and the one that is read from it go without a name.
  | .gridIndex .. => 2 * T.fresh + T.allocate (.value v.id)
  | _ => T.allocate (.value v.id)

/-- The variable of a work item's allocation. -/
def item (a : Allocation) : Nat := if a.isArray then T.fresh else T.allocate (.value a.value)

/-- The variable of a group's allocation. -/
def group (a : Allocation) : Nat := if a.isArray then 0 else T.bind (.value a.value)

/-- The cast of an array. -/
def cast (a : Allocation) : Nat := if a.isArray then T.allocate (.value a.value) else 0

def storage (s : Storage) : Nat :=
  (s.item.map T.item).sum + ((s.group ++ s.dynamicGroup).map T.group).sum + (s.all.map T.cast).sum

def header (m : Method) : Nat := (m.params.map fun p => T.allocate (.value p.value)).sum

def body (m : Method) : Nat :=
  (m.blocks.map fun b => T.allocate (.block b.id)).sum + T.storage (.ofMethod m) +
    (m.values.map T.value).sum

/-! ## Charges -/

/-- However `x` ends, it is charged at most `n` for names and draws at most `k` for declarations. -/
def Charges {α : Type} (n k : Nat) (x : Emit α) : Prop :=
  Draws T.short T.used T.other (n + T.declaration * k) x

variable {T} {α β γ : Type} {n n' k k' : Nat}

theorem Charges.le {x : Emit α} (h : T.Charges n k x) (hn : n ≤ n') (hk : k ≤ k') :
    T.Charges n' k' x :=
  Draws.le h (Nat.add_le_add hn (Nat.mul_le_mul_left _ hk))

theorem Charges.any {x : Emit α} (h : T.Charges 0 0 x) : T.Charges n k x :=
  h.le (Nat.zero_le _) (Nat.zero_le _)

theorem charges_pure (a : α) : T.Charges n k (pure a) := (draws_pure a).le (Nat.zero_le _)

theorem charges_fail {e : Fault} (h : e.isLocal = true) : T.Charges n k (fail e : Emit α) :=
  (draws_fail (T.isLocal h)).le (Nat.zero_le _)

theorem Charges.pay_ok {x : Emit α} {f : α → Emit β} (hx : T.Charges n k x) (hn : n ≤ n') (hk : k ≤ k')
    (hf : ∀ s a s', x s = (.ok a, s') → T.Charges (n' - n) (k' - k) (f a)) :
    T.Charges n' k' (x >>= f) := by
  have shares : T.declaration * k + T.declaration * (k' - k) = T.declaration * k' := by
    rw [← Nat.mul_add, Nat.add_sub_cancel' hk]
  exact (Draws.bind_ok hx hf).le (by omega)

theorem Charges.pay {x : Emit α} {f : α → Emit β} (hx : T.Charges n k x) (hn : n ≤ n') (hk : k ≤ k')
    (hf : ∀ a, T.Charges (n' - n) (k' - k) (f a)) : T.Charges n' k' (x >>= f) :=
  hx.pay_ok hn hk fun _ a _ _ => hf a

theorem Charges.free_ok {x : Emit α} {f : α → Emit β} (hx : T.Charges 0 0 x)
    (hf : ∀ s a s', x s = (.ok a, s') → T.Charges n k (f a)) : T.Charges n k (x >>= f) :=
  hx.pay_ok (Nat.zero_le _) (Nat.zero_le _) hf

theorem Charges.free {x : Emit α} {f : α → Emit β} (hx : T.Charges 0 0 x)
    (hf : ∀ a, T.Charges n k (f a)) : T.Charges n k (x >>= f) :=
  hx.free_ok fun _ a _ _ => hf a

theorem Charges.map {x : Emit α} (hx : T.Charges n k x) (f : α → β) : T.Charges n k (f <$> x) :=
  Draws.map hx f

theorem sum_shares (cost draws : β → Nat) (bs : List β) :
    (bs.map fun b => cost b + T.declaration * draws b).sum =
      (bs.map cost).sum + T.declaration * (bs.map draws).sum := by
  rw [List.sum_map_add, List.sum_map_mul_left]

theorem charges_forM {f : β → Emit Unit} {cost draws : β → Nat} {bs : List β}
    (hf : ∀ b ∈ bs, T.Charges (cost b) (draws b) (f b)) :
    T.Charges (bs.map cost).sum (bs.map draws).sum (bs.forM f) := by
  rw [Charges, ← sum_shares]
  exact draws_forM hf

theorem charges_mapM {f : β → Emit γ} {cost draws : β → Nat} {bs : List β}
    (hf : ∀ b ∈ bs, T.Charges (cost b) (draws b) (f b)) :
    T.Charges (bs.map cost).sum (bs.map draws).sum (bs.mapM f) := by
  rw [Charges, ← sum_shares]
  exact draws_mapM hf

end Tariff

namespace Emission

open Tariff

variable {α : Type} {n k : Nat} {t : Task} {v : Value} {T : Tariff}

/-! ## Primitives -/

theorem charges_state : T.Charges 0 0 (state : Emit Emission) := draws_state.le (Nat.zero_le _)

theorem charges_declare {x : Declare α} (hx : Dictionary.Costs T.small k x) :
    T.Charges 0 k (declare x) := (T.draws_declare hx).le (Nat.le_add_left _ _)

theorem charges_ofExcept {r : Except Fault α} (h : ∀ e, r = .error e → e.isLocal = true) :
    T.Charges 0 0 (ofExcept r) := by
  cases r with
  | ok a => exact charges_pure a
  | error e => exact charges_fail (h e rfl)

theorem charges_onWork {f : Work → Work} (h : ∀ w, (f w).table = w.table) :
    T.Charges 0 0 (onWork (change f)) :=
  Draws.le (draws_change fun s => T.used_congr rfl (h s.work)) (Nat.zero_le _)

theorem charges_emitTo {sec : Section} {op : Opcode} {ws : List Word}
    (h : T.small → ws.length ≤ sizeLimit + 5) : T.Charges 0 0 (emitTo sec op ws) := by
  unfold emitTo
  dsimp only
  split
  · exact charges_onWork fun _ => rfl
  · rename_i long
    refine Draws.le (draws_fail (T.oversized fun hs => long (Instruction.fits_of op ?_))) (Nat.zero_le _)
    have := h hs
    have := sizeLimit_lt_maxSize
    omega

theorem charges_emit {op : Opcode} {ws : List Word} (h : T.small → ws.length ≤ sizeLimit + 5) :
    T.Charges 0 0 (emit op ws) := charges_emitTo h

theorem charges_fresh : T.Charges T.fresh 0 (onTable IdTable.fresh) :=
  T.draws_fresh.le (Nat.le_add_right _ _)

theorem charges_allocate (e : Entity) : T.Charges (T.allocate e) 0 (onTable (IdTable.allocate e)) :=
  (T.draws_allocate e).le (Nat.le_add_right _ _)

theorem charges_bind (e : Entity) (id : Id) : T.Charges (T.bind e) 0 (onTable (IdTable.bind e id)) :=
  (T.draws_bind e id).le (Nat.le_add_right _ _)

theorem charges_load (e : Entity) : T.Charges 0 0 (onTable (IdTable.load e)) := by
  intro s
  have run : onTable (IdTable.load e) s = require (.unallocated e) (s.work.table.get? e) s := by
    simp only [onTable, onWork, onPart_apply, IdTable.load, bind_apply, state_apply]
    cases s.work.table.get? e <;> rfl
  rw [run]
  cases s.work.table.get? e with
  | some id => exact charges_pure (T := T) id s
  | none => exact charges_fail (T := T) rfl s

theorem charges_operand (u : ValueId) : T.Charges 0 0 (operand u) := (charges_load _).map _

theorem charges_label (b : BlockId) : T.Charges 0 0 (label b) := (charges_load _).map _

theorem charges_operands (us : List ValueId) : T.Charges 0 0 (us.mapM operand) := by
  have each : T.Charges _ _ (us.mapM operand) := charges_mapM fun u _ => charges_operand u
  exact each.le (by simp) (by simp)

theorem charges_typeOf (t : Task) (u : ValueId) : T.Charges 0 0 (typeOf t u) := by
  unfold typeOf
  cases t.method.typeOf? u with
  | some type => exact charges_pure type
  | none => exact charges_fail rfl

theorem charges_typeWord {type : Ty} (h : T.small → type.weight ≤ sizeLimit) :
    T.Charges 0 (2 * type.weight) (typeWord type) := by
  refine (charges_declare (Dictionary.costs_typeId type fun hs => ?_)).map _
  have := h hs
  have := sizeLimit_lt_maxSize
  omega

theorem charges_constant {c : Constant} (h : T.small → c.type.weight ≤ sizeLimit) :
    T.Charges 0 (2 * c.type.weight + 1) (declare (Dictionary.constantId c)) := by
  refine charges_declare (Dictionary.costs_constantId fun hs => ?_)
  have := h hs
  have := sizeLimit_lt_maxSize
  omega

theorem charges_pointer {pointee : Ty} {storage : StorageClass}
    (h : T.small → pointee.weight ≤ sizeLimit + 2) :
    T.Charges 0 (2 * pointee.weight + 1) (declare (Dictionary.pointerId pointee storage)) := by
  refine charges_declare (Dictionary.costs_pointerId fun hs => ?_)
  have := h hs
  have := sizeLimit_lt_maxSize
  omega

/-! ## Values -/

theorem charges_result (h : T.small → v.type.weight ≤ sizeLimit) :
    T.Charges (T.allocate (.value v.id)) (2 * v.type.weight) (result v) := by
  refine (charges_typeWord h).pay (Nat.zero_le _) (Nat.le_refl _) fun type => ?_
  exact (charges_allocate _).pay (Nat.le_refl _) (Nat.zero_le _) fun id => charges_pure _

theorem charges_emitResult {op : Opcode} {ws : List Word} (h : T.small → v.type.weight ≤ sizeLimit)
    (hws : T.small → ws.length ≤ sizeLimit + 3) :
    T.Charges (T.allocate (.value v.id)) (2 * v.type.weight) (emitResult v op ws) := by
  refine (charges_result h).pay (Nat.le_refl _) (Nat.le_refl _) fun r => ?_
  refine (charges_emit fun hs => ?_).any
  have := hws hs
  simp only [List.length_cons]
  omega

theorem charges_short {op : Opcode} {ws : List Word} (h : T.small → v.size ≤ sizeLimit)
    (hws : ws.length ≤ 3) (hk : 2 * v.size ≤ k) :
    T.Charges (T.allocate (.value v.id)) k (emitResult v op ws) := by
  refine (charges_emitResult (fun hs => ?_) fun _ => by omega).le (Nat.le_refl _) ?_
  · have := h hs
    unfold Value.size at this
    omega
  · unfold Value.size at hk
    omega

theorem charges_unitWord {type : Ty} {one : Bool} : T.Charges 0 3 (unitWord type one) := by
  have unit : T.Charges 0 0 (ofExcept (type.unit one)) := by
    refine charges_ofExcept fun e he => ?_
    unfold Ty.unit at he
    split at he <;> cases he
    rfl
  refine unit.free_ok fun s c s' hc => ?_
  have weight : c.type.weight = 1 := by
    have hc := Ty.unit_ok_iff.mp (ofExcept_ok_iff.mp hc).1
    unfold Ty.unit? at hc
    split at hc <;> cases hc <;> rfl
  have cost : T.Charges 0 (2 * c.type.weight + 1) (constantWord c) :=
    (charges_constant fun _ => by rw [weight]; decide).map _
  rwa [weight] at cost

theorem charges_wordConstant (w : Word) : T.Charges 0 3 (constantWord (.ofWord w)) :=
  (charges_constant fun _ => by rw [Constant.type_ofWord]; decide).map _

theorem charges_conversion {source : ValueId} {flags : ConvertFlags}
    (h : T.small → v.size ≤ sizeLimit) :
    T.Charges (T.allocate (.value v.id)) (2 * v.size + 6) (emitConversion t v source flags) := by
  have between (type : Ty) : T.Charges 0 0 (ofExcept (Conversion.between type v.type flags)) := by
    refine charges_ofExcept fun e he => ?_
    unfold Conversion.between at he
    split at he <;> cases he
    rfl
  refine (charges_typeOf t source).free fun type => ?_
  refine (between type).free fun conversion => ?_
  refine (charges_operand source).free fun x => ?_
  cases conversion with
  | direct op => exact charges_short h (by simp) (by omega)
  | fromBool =>
    refine charges_unitWord.pay (Nat.zero_le _) (by omega) fun one => ?_
    refine charges_unitWord.pay (Nat.zero_le _) (by omega) fun zero => ?_
    exact charges_short h (by simp) (by omega)
  | toBool op =>
    refine charges_unitWord.pay (Nat.zero_le _) (by omega) fun zero => ?_
    exact charges_short h (by simp) (by omega)

theorem charges_demand (op : Operator) (cls : ScalarClass) (o : Option α) :
    T.Charges 0 0 (ofExcept (op.demand cls o)) := by
  refine charges_ofExcept fun e he => ?_
  cases o <;> cases he
  rfl

theorem charges_call {callee : Callee} {args : List ValueId} {flags : ArithmeticFlags}
    (hk : v.kind = .call callee args flags) (h : T.small → v.size ≤ sizeLimit) :
    T.Charges (T.allocate (.value v.id)) (2 * v.size) (emitCall t v callee args flags) := by
  refine (charges_operands args).free_ok fun s xs s' hxs => ?_
  have length : v.size = v.type.weight + xs.length := by
    rw [length_of_mapM_ok hxs, Value.size, hk]
    rfl
  have many {op : Opcode} {ws : List Word} (hws : ws.length ≤ xs.length + 2) :
      T.Charges (T.allocate (.value v.id)) (2 * v.size) (emitResult v op ws) := by
    refine (charges_emitResult (fun hs => ?_) fun hs => ?_).le (Nat.le_refl _) (by omega)
    · have := h hs
      omega
    · have := h hs
      omega
  cases callee with
  | method m =>
    have get : T.Charges 0 0 (ofExcept (t.frame.functions.get m)) := by
      refine charges_ofExcept fun e he => ?_
      unfold FunctionTable.get at he
      split at he <;> cases he
      rfl
    exact get.free fun function => many (by simp)
  | intrinsic f =>
    cases args with
    | nil => exact charges_fail rfl
    | cons first rest =>
      refine (charges_typeOf t first).free fun type => ?_
      refine (charges_demand _ _ _).free fun form => ?_
      cases form with
      | core op => exact many (by simp)
      | extended number => exact many (by simp)

theorem charges_gridIndex {builtin : GridBuiltin} {dimension : UInt8}
    (h : T.small → v.size ≤ sizeLimit) :
    T.Charges (2 * T.fresh + T.allocate (.value v.id)) (2 * v.size + 12)
      (emitGridIndex v builtin dimension) := by
  -- A grid index is the one value that takes identifiers besides its own.
  have vectorWord : T.Charges 0 4 (typeWord BuiltIn.type) := charges_typeWord fun _ => by decide
  have wideWord : T.Charges 0 2 (typeWord .i64) := charges_typeWord fun _ => by decide
  unfold emitGridIndex
  split
  · exact charges_fail rfl
  · split
    · refine (charges_declare (Dictionary.costs_builtinId _)).pay (Nat.zero_le _) (by omega) fun vars => ?_
      refine vectorWord.pay (Nat.zero_le _) (by omega) fun vector => ?_
      refine wideWord.pay (Nat.zero_le _) (by omega) fun wide => ?_
      refine (charges_fresh.map _).pay (by omega) (Nat.zero_le _) fun loaded => ?_
      refine (charges_emit fun _ => by simp).free fun _ => ?_
      split
      · exact (charges_short h (by simp) (Nat.le_refl _)).le (by omega) (by omega)
      · refine (charges_fresh.map _).pay (by omega) (Nat.zero_le _) fun extracted => ?_
        refine (charges_emit fun _ => by simp).free fun _ => ?_
        exact (charges_short h (by simp) (Nat.le_refl _)).le (by omega) (by omega)
    · exact charges_fail rfl

theorem charges_phiOperands (t : Task) (start : Nat) (incoming : List (ValueId × BlockId)) :
    T.Charges 0 0 (phiOperands t start incoming) := by
  induction incoming generalizing start with
  | nil => exact charges_pure _
  | cons x incoming ih =>
    refine (charges_typeOf t x.1).free fun _ => ?_
    refine charges_state.free fun s => ?_
    refine (charges_label x.2).free fun block => ?_
    refine (ih (start + 2)).free fun r => ?_
    cases s.work.table.get? (.value x.1) with
    | some id => exact charges_pure _
    | none => exact charges_pure _

theorem length_phiOperands {start : Nat} {incoming : List (ValueId × BlockId)} {s s' : Emission}
    {r : List Word × List (Nat × ValueId)} (h : phiOperands t start incoming s = (.ok r, s')) :
    r.1.length = 2 * incoming.length := by
  induction incoming generalizing start r s s' with
  | nil =>
    obtain ⟨rfl, -⟩ := pure_ok_iff.mp h
    rfl
  | cons x incoming ih =>
    simp only [phiOperands, bind_eq_ok_iff, typeOf_ok_iff, state_ok_iff] at h
    obtain ⟨_, _, -, s₁, _, -, block, _, -, rest, _, hrest, h⟩ := h
    have length := ih hrest
    cases hvalue : s₁.work.table.get? (.value x.1) with
    | some id =>
      rw [hvalue] at h
      obtain ⟨rfl, -⟩ := pure_ok_iff.mp h
      simp only [List.length_cons, length]
      omega
    | none =>
      rw [hvalue] at h
      obtain ⟨rfl, -⟩ := pure_ok_iff.mp h
      simp only [List.length_cons, length]
      omega

theorem charges_phi {incoming : List (ValueId × BlockId)} (hk : v.kind = .phi incoming)
    (h : T.small → v.size ≤ sizeLimit) :
    T.Charges (T.allocate (.value v.id)) (2 * v.size) (emitPhi t v incoming) := by
  have size : v.size = v.type.weight + 2 * incoming.length := by
    rw [Value.size, hk]
    simp [ValueKind.size, ValueKind.operands, ValueKind.incoming]
  refine (charges_result fun hs => ?_).pay (Nat.le_refl _) (by omega) fun r => ?_
  · have := h hs
    omega
  refine (charges_phiOperands t 2 incoming).free_ok fun s q s' hq => ?_
  refine charges_state.free fun s => ?_
  refine (charges_emit fun hs => ?_).free fun _ => ?_
  · have := h hs
    simp only [List.length_cons, length_phiOperands hq]
    omega
  · refine Charges.any (charges_onWork ?_)
    intro w; rfl

theorem charges_barrier : T.Charges 0 6 emitBarrier := by
  refine (charges_wordConstant _).pay (Nat.zero_le _) (by omega) fun scope => ?_
  refine (charges_wordConstant _).pay (Nat.zero_le _) (by omega) fun semantics => ?_
  exact charges_emit fun _ => by simp

theorem charges_emitValue (hstorage : t.storage = .ofMethod t.method) (hv : v ∈ t.method.values)
    (h : T.small → v.size ≤ sizeLimit) : T.Charges (T.value v) (2 * v.size + 12) (emitValue t v) := by
  have result {op : Opcode} {ws : List Word} (hws : ws.length ≤ 3) :
      T.Charges (T.allocate (.value v.id)) (2 * v.size + 12) (emitResult v op ws) :=
    charges_short h hws (by omega)
  unfold emitValue Tariff.value
  cases hk : v.kind with
  | constant c =>
    have size : v.size = v.type.weight + c.type.weight := by
      rw [Value.size, hk]
      rfl
    refine (charges_constant fun hs => ?_).pay (Nat.zero_le _) (by omega) fun id => ?_
    · have := h hs
      omega
    · exact (charges_bind _ id).le (Nat.le_refl _) (Nat.zero_le _)
  | undef => exact result (by simp)
  | binary op lhs rhs flags =>
    refine (charges_demand _ _ _).free fun opcode => ?_
    refine (charges_operand lhs).free fun x => ?_
    exact (charges_operand rhs).free fun y => result (by simp)
  | unary op source =>
    refine (charges_demand _ _ _).free fun opcode => ?_
    exact (charges_operand source).free fun x => result (by simp)
  | compare op lhs rhs flags =>
    refine (charges_typeOf t lhs).free fun type => ?_
    refine (charges_demand _ _ _).free fun opcode => ?_
    refine (charges_operand lhs).free fun x => ?_
    exact (charges_operand rhs).free fun y => result (by simp)
  | convert source flags => exact (charges_conversion h).le (Nat.le_refl _) (by omega)
  | select cond thenValue elseValue =>
    refine (charges_operand cond).free fun c => ?_
    refine (charges_operand thenValue).free fun x => ?_
    exact (charges_operand elseValue).free fun y => result (by simp)
  | alloca elem extent =>
    -- The plan of the method lists every allocation of it.
    have planned := Storage.isSome_kindOf?_ofMethod hv (by rw [hk]; rfl)
    rw [← hstorage] at planned
    obtain ⟨kind, hkind⟩ := Option.isSome_iff_exists.mp planned
    simp only [hkind]
    exact charges_pure ()
  | load address => exact (charges_operand address).free fun x => result (by simp)
  | store address source =>
    refine (charges_operand address).free fun x => ?_
    exact (charges_operand source).free fun y => (charges_emit fun _ => by simp).any
  | elementAddress base index =>
    refine (charges_operand base).free fun x => ?_
    exact (charges_operand index).free fun y => result (by simp)
  | fieldAddress base field =>
    refine (charges_operand base).free fun x => ?_
    refine (charges_wordConstant field).pay (Nat.zero_le _) (by omega) fun i => ?_
    exact charges_short h (by simp) (by omega)
  | extractField aggregate field =>
    exact (charges_operand aggregate).free fun x => result (by simp)
  | call callee args flags => exact (charges_call hk h).le (Nat.le_refl _) (by omega)
  | phi incoming => exact (charges_phi hk h).le (Nat.le_refl _) (by omega)
  | gridIndex builtin dimension => exact charges_gridIndex h
  | barrier => exact charges_barrier.le (Nat.le_refl _) (by omega)
  | inlineAssembly code args => exact charges_fail rfl

/-! ## Storage -/

variable {a : Allocation}

theorem weight_content {type : Ty} (h : content a = .ok type) : type.weight ≤ a.elem.weight + 2 := by
  unfold content at h
  split at h <;> cases h
  · omega
  · rw [Ty.weight]

theorem charges_placeItem (h : T.small → a.elem.weight ≤ sizeLimit) :
    T.Charges (T.item a) (2 * a.elem.weight + 6) (placeItem t a) := by
  have space (type : Ty) : T.Charges 0 0 (ofExcept (checkSpace type)) := by
    refine charges_ofExcept fun e he => ?_
    unfold checkSpace at he
    split at he <;> cases he <;> rfl
  have held : T.Charges 0 0 (ofExcept (content a)) := by
    refine charges_ofExcept fun e he => ?_
    unfold content at he
    split at he <;> cases he
    rfl
  refine (charges_typeOf t a.value).free fun type => ?_
  refine (space type).free fun _ => ?_
  refine held.free_ok fun s type s' htype => ?_
  have weight := weight_content (ofExcept_ok_iff.mp htype).1
  refine (charges_pointer fun hs => ?_).pay (Nat.zero_le _) (by omega) fun pointer => ?_
  · have := h hs
    omega
  unfold Tariff.item
  split
  · refine charges_fresh.pay (Nat.le_refl _) (Nat.zero_le _) fun id => ?_
    exact (charges_emit fun _ => by simp).free fun _ => charges_pure _
  · refine (charges_allocate _).pay (Nat.le_refl _) (Nat.zero_le _) fun id => ?_
    exact (charges_emit fun _ => by simp).free fun _ => charges_pure _

theorem charges_placeGroup (h : T.small → a.elem.weight ≤ sizeLimit) :
    T.Charges (T.group a) (2 * a.elem.weight + 6) (placeGroup a) := by
  refine (charges_declare (Dictionary.costs_groupVariable fun hs => ?_)).pay (Nat.zero_le _)
    (Nat.le_refl _) fun id => ?_
  · have := h hs
    have := sizeLimit_lt_maxSize
    omega
  unfold Tariff.group
  split
  · exact charges_pure _
  · exact (charges_bind _ id).pay (Nat.le_refl _) (Nat.zero_le _) fun _ => charges_pure _

theorem charges_emitCast {c : Cast} (h : T.small → c.elem.weight ≤ sizeLimit) :
    T.Charges (T.allocate (.value c.value)) (2 * c.elem.weight + 1) (emitCast c) := by
  refine (charges_pointer fun hs => ?_).pay (Nat.zero_le _) (Nat.le_refl _) fun type => ?_
  · have := h hs
    omega
  refine (charges_allocate _).pay (Nat.le_refl _) (Nat.zero_le _) fun id => ?_
  exact (charges_emit fun _ => by simp).any

/-- What is left to cast when the memory of an allocation is set up. -/
def castOf (a : Allocation) : Option (ValueId × Ty) :=
  if a.isArray then some (a.value, a.elem) else none

theorem placeItem_casts {r : Option Cast} {s s' : Emission} (h : placeItem t a s = (.ok r, s')) :
    r.map (fun c => (c.value, c.elem)) = castOf a := by
  simp only [placeItem, bind_eq_ok_iff] at h
  obtain ⟨type, _, -, _, _, -, content, _, -, pointer, _, -, h⟩ := h
  unfold castOf
  split at h <;> simp only [bind_eq_ok_iff, pure_ok_iff] at h
  · obtain ⟨id, _, -, _, _, -, rfl, -⟩ := h
    simp_all
  · obtain ⟨id, _, -, _, _, -, rfl, -⟩ := h
    simp_all

theorem placeGroup_casts {r : Option Cast} {s s' : Emission} (h : placeGroup a s = (.ok r, s')) :
    r.map (fun c => (c.value, c.elem)) = castOf a := by
  simp only [placeGroup, bind_eq_ok_iff] at h
  obtain ⟨id, _, -, h⟩ := h
  unfold castOf
  split at h <;> simp only [bind_eq_ok_iff, pure_ok_iff] at h
  · obtain ⟨rfl, -⟩ := h
    simp_all
  · obtain ⟨_, _, -, rfl, -⟩ := h
    simp_all

section Casts

variable {cs : List (Option Cast)} {as : List Allocation}
  (h : cs.map (·.map fun c => (c.value, c.elem)) = as.map castOf)

include h

theorem casts_eq : (cs.filterMap id).map (fun c => (c.value, c.elem)) = as.filterMap castOf := by
  have := congrArg (List.filterMap id) h
  simpa [List.filterMap_map, List.map_filterMap, Function.comp_def] using this

theorem elem_of_mem_casts {c : Cast} (hc : c ∈ cs.filterMap id) : ∃ a ∈ as, a.elem = c.elem := by
  have hmem := List.mem_map_of_mem (f := fun c : Cast => (c.value, c.elem)) hc
  rw [casts_eq h, List.mem_filterMap] at hmem
  obtain ⟨a, ha, hcast⟩ := hmem
  unfold castOf at hcast
  split at hcast
  · exact ⟨a, ha, (Prod.mk.inj (Option.some.inj hcast)).2⟩
  · cases hcast

theorem sum_casts (f : ValueId → Ty → Nat) :
    ((cs.filterMap id).map fun c => f c.value c.elem).sum =
      (as.map fun a => if a.isArray then f a.value a.elem else 0).sum := by
  have each : ((as.filterMap castOf).map fun x => f x.1 x.2).sum =
      (as.map fun a => if a.isArray then f a.value a.elem else 0).sum := by
    clear h
    induction as with
    | nil => rfl
    | cons a as ih =>
      rw [List.map_cons, List.sum_cons, ← ih, List.filterMap_cons, castOf]
      cases a.isArray <;> simp
  rw [← each, ← casts_eq h, List.map_map]
  rfl

end Casts

theorem charges_emitStorage (h : T.small → ∀ a ∈ t.storage.all, a.elem.weight ≤ sizeLimit) :
    T.Charges (T.storage t.storage) (t.storage.all.map fun a => 4 * a.elem.weight + 7).sum
      (emitStorage t) := by
  have items : T.Charges (t.storage.item.map T.item).sum
      (t.storage.item.map fun a => 2 * a.elem.weight + 6).sum (t.storage.item.mapM (placeItem t)) :=
    charges_mapM fun a ha => charges_placeItem fun hs => h hs a (List.mem_append_left _ ha)
  have groups : T.Charges ((t.storage.group ++ t.storage.dynamicGroup).map T.group).sum
      ((t.storage.group ++ t.storage.dynamicGroup).map fun a => 2 * a.elem.weight + 6).sum
      ((t.storage.group ++ t.storage.dynamicGroup).mapM placeGroup) :=
    charges_mapM fun a ha => charges_placeGroup fun hs => h hs a (List.mem_append_right _ ha)
  have total : (t.storage.all.map fun a => 4 * a.elem.weight + 7).sum =
      (t.storage.item.map fun a => 2 * a.elem.weight + 6).sum +
        ((t.storage.group ++ t.storage.dynamicGroup).map fun a => 2 * a.elem.weight + 6).sum +
          (t.storage.all.map fun a => 2 * a.elem.weight + 1).sum := by
    rw [← List.sum_append, ← List.map_append, ← Storage.all, ← List.sum_map_add]
    congr 2
    funext a
    omega
  unfold Tariff.storage
  refine items.pay_ok (by omega) (by omega) fun s rs s' hrs => ?_
  refine groups.pay_ok (by omega) (by omega) fun s₁ qs s₂ hqs => ?_
  have left : (rs ++ qs).map (·.map fun c => (c.value, c.elem)) = t.storage.all.map castOf := by
    have items : rs.map (·.map fun c => (c.value, c.elem)) = t.storage.item.map castOf :=
      map_of_mapM_ok (fun _ _ _ _ h => placeItem_casts h) hrs
    have groups : qs.map (·.map fun c => (c.value, c.elem)) =
        (t.storage.group ++ t.storage.dynamicGroup).map castOf :=
      map_of_mapM_ok (fun _ _ _ _ h => placeGroup_casts h) hqs
    rw [List.map_append, items, groups, ← List.map_append, Storage.all]
  have casts : T.Charges _ _ (((rs ++ qs).filterMap id).forM emitCast) :=
    charges_forM fun c hc => charges_emitCast fun hs => by
      obtain ⟨a, ha, helem⟩ := elem_of_mem_casts left hc
      exact helem ▸ h hs a ha
  have names : (((rs ++ qs).filterMap id).map fun c => T.allocate (.value c.value)).sum =
      (t.storage.all.map T.cast).sum := sum_casts left fun v _ => T.allocate (.value v)
  have drawn : (((rs ++ qs).filterMap id).map fun c => 2 * c.elem.weight + 1).sum ≤
      (t.storage.all.map fun a => 2 * a.elem.weight + 1).sum := by
    rw [sum_casts left fun _ type => 2 * type.weight + 1]
    refine List.sum_le_sum fun a _ => ?_
    split
    · exact Nat.le_refl _
    · exact Nat.zero_le _
  exact casts.le (by omega) (by omega)

/-! ## Terminators -/

theorem charges_switchCases (width : IntWidth) (cases : List (UInt64 × BlockId)) :
    T.Charges 0 0 (switchCases width cases) := by
  induction cases with
  | nil => exact charges_pure []
  | cons c cases ih =>
    refine (charges_label c.2).free fun block => ?_
    exact ih.free fun rest => charges_pure _

theorem length_switchCases {width : IntWidth} {cases : List (UInt64 × BlockId)} {ws : List Word}
    {s s' : Emission} (h : switchCases width cases s = (.ok ws, s')) :
    ws.length ≤ 3 * cases.length := by
  induction cases generalizing s s' ws with
  | nil =>
    obtain ⟨rfl, -⟩ := pure_ok_iff.mp h
    exact Nat.le_refl _
  | cons c cases ih =>
    simp only [switchCases, bind_eq_ok_iff, pure_ok_iff] at h
    obtain ⟨block, _, -, rest, _, hrest, rfl, -⟩ := h
    have rest := ih hrest
    have literal : (Word.ofLiteral (c.1 &&& width.mask) (width = .i64)).length ≤ 2 := by
      unfold Word.ofLiteral
      split <;> simp
    simp only [List.length_append, List.length_cons]
    omega

theorem charges_emitTerminator {x : Terminator} (h : T.small → x.size ≤ sizeLimit) :
    T.Charges 0 0 (emitTerminator t x) := by
  cases x with
  | ret v =>
    cases v with
    | none => exact charges_emit fun _ => by simp
    | some v => exact (charges_operand v).free fun x => charges_emit fun _ => by simp
  | branch target => exact (charges_label target).free fun block => charges_emit fun _ => by simp
  | condBranch cond yes no =>
    refine (charges_operand cond).free fun c => ?_
    refine (charges_label yes).free fun block => ?_
    exact (charges_label no).free fun block => charges_emit fun _ => by simp
  | switch selector cases default =>
    refine (charges_typeOf t selector).free fun type => ?_
    split
    · refine (charges_operand selector).free fun x => ?_
      refine (charges_label default).free fun block => ?_
      refine (charges_switchCases _ cases).free_ok fun s rest s' hrest => ?_
      refine charges_emit fun hs => ?_
      have := h hs
      have := length_switchCases hrest
      simp only [Terminator.size, Terminator.successors, List.length_cons, List.length_map] at *
      omega
    · exact charges_fail rfl
  | unreachable => exact charges_emit fun _ => by simp

/-! ## Functions -/

theorem charges_setStage (stage : Stage) : T.Charges 0 0 (setStage stage) := charges_onWork fun _ => rfl

theorem charges_checkResult : T.Charges 0 0 (checkResult t) := by
  unfold checkResult
  split
  · exact charges_fail rfl
  · exact charges_pure ()

end Emission

theorem costs_predeclareValue {small : Prop} {v : Value} (h : small → v.size ≤ sizeLimit) :
    Dictionary.Costs small (2 * v.size + 1) (Emission.predeclareValue v) := by
  have bound {w : Nat} (hw : w ≤ v.size) : small → w + 2 < Instruction.maxSize := by
    intro hs
    have := h hs
    have := sizeLimit_lt_maxSize
    omega
  have type : v.type.weight ≤ v.size := Nat.le_add_right _ _
  unfold Emission.predeclareValue
  split
  · exact (draws_pure ()).le (Nat.zero_le _)
  · split
    · exact (draws_pure ()).le (Nat.zero_le _)
    · refine draws_tolerate ?_
      split
      · rename_i c hk
        have constant : c.type.weight ≤ v.size := by
          rw [Value.size, hk]
          exact Nat.le_add_left _ _
        exact (Dictionary.costs_constantId (bound constant)).le (by omega)
      · exact (Dictionary.costs_typeId _ (bound type)).le (by omega)

theorem costs_predeclare {small : Prop} {m : Method} (h : small → m.size ≤ sizeLimit) :
    Dictionary.Costs small (3 * m.valueSize) (Emission.predeclare m) := by
  have cost : Dictionary.Costs small _ (Emission.predeclare m) := draws_forM fun v hv =>
    costs_predeclareValue fun hs => Nat.le_trans (Method.size_le_of_mem_values hv) (h hs)
  exact cost.le (m.sum_le_valueSize 2 1)

namespace Storage

theorem weight_of_request {v : Value} {kind : StorageKind} {a : Allocation}
    (h : request? v = some (kind, a)) : a.elem.weight ≤ v.size := by
  unfold request? at h
  split at h
  · rename_i hk
    cases h
    rw [Value.size, hk]
    exact Nat.le_add_left _ _
  · cases h

theorem sum_requests_le (vs : List Value) :
    (((vs.filterMap request?).map Prod.snd).map fun a => 4 * a.elem.weight + 7).sum ≤
      (vs.map fun v => 4 * v.size + 7).sum := by
  induction vs with
  | nil => exact Nat.le_refl _
  | cons v vs ih =>
    rw [List.filterMap_cons, List.map_cons, List.sum_cons]
    cases hrequest : request? v with
    | none =>
      dsimp only
      omega
    | some request =>
      have := weight_of_request hrequest
      simp only [List.map_cons, List.sum_cons]
      omega

theorem sum_ofMethod_le (m : Method) :
    ((ofMethod m).all.map fun a => 4 * a.elem.weight + 7).sum ≤ 11 * m.valueSize := by
  rw [((all_ofMethod_perm m).map _).sum_eq]
  exact Nat.le_trans (sum_requests_le m.values) (m.sum_le_valueSize 4 7)

theorem weight_le_of_mem_ofMethod {m : Method} {a : Allocation} (ha : a ∈ (ofMethod m).all) :
    a.elem.weight ≤ m.size := by
  obtain ⟨request, hr, rfl⟩ := List.mem_map.mp ((all_ofMethod_perm m).subset ha)
  obtain ⟨v, hv, hrequest⟩ := List.mem_filterMap.mp hr
  exact Nat.le_trans (weight_of_request hrequest) (Method.size_le_of_mem_values hv)

end Storage

namespace Emission

open Tariff

variable {n k : Nat} {t : Task} {T : Tariff}

theorem charges_emitParams {m : Method} (h : T.small → m.size ≤ sizeLimit) :
    T.Charges (T.header m) (2 * Ty.weights (m.params.map (·.type))) (m.params.forM emitParam) := by
  have params : T.Charges (T.header m) (m.params.map fun x => 2 * x.type.weight).sum
      (m.params.forM emitParam) := by
    refine charges_forM fun x hx => ?_
    have weight (hs : T.small) := Nat.le_trans (Method.weight_le_of_mem_params hx) (h hs)
    refine (charges_typeWord weight).pay (Nat.zero_le _) (Nat.le_refl _) fun type => ?_
    refine (charges_allocate _).pay (Nat.le_refl _) (Nat.zero_le _) fun id => ?_
    exact (charges_emit fun _ => by simp).any
  rw [← sum_weight, ← List.sum_map_mul_left, List.map_map]
  exact params

theorem charges_emitName (h : T.small → t.method.size ≤ sizeLimit) :
    T.Charges 0 0 (emitName t) := by
  unfold emitName
  split
  · refine charges_emitTo fun hs => ?_
    have := h hs
    unfold Method.size at this
    rw [List.length_cons]
    omega
  · exact charges_pure ()

theorem charges_emitGroupSize : T.Charges 0 0 (emitGroupSize t) := by
  unfold emitGroupSize
  split
  · exact charges_emitTo fun _ => by simp
  · exact charges_pure ()

/-- What a header is charged once it is known to be next. -/
theorem header_charges (h : T.small → t.method.size ≤ sizeLimit) :
    ∃ x, header t = (expect .header >>= fun _ => x) ∧
      T.Charges (T.header t.method) (7 * t.method.size) x := by
  have weights : Ty.weights (t.method.returnType :: t.method.params.map (·.type)) =
    t.method.returnType.weight + Ty.weights (t.method.params.map (·.type)) := rfl
  have positive := t.method.returnType.one_le_weight
  have values := t.method.valueSize_le
  have size : t.method.size = (Literal.encode t.method.name).length +
    Ty.weights (t.method.returnType :: t.method.params.map (·.type)) +
      (t.method.blocks.map Block.size).sum := rfl
  have signature : T.Charges 0 (2 * Ty.weights (t.method.returnType :: t.method.params.map (·.type)) + 1)
      (declare (Dictionary.signatureId t.method.returnType (t.method.params.map (·.type)))) := by
    refine charges_declare (Dictionary.costs_signatureId fun hs => ?_)
    have := h hs
    have := sizeLimit_lt_maxSize
    omega
  refine ⟨_, rfl, ?_⟩
  refine charges_checkResult.free fun _ => ?_
  refine (charges_typeWord fun hs => ?_).pay (Nat.zero_le _) (by omega) fun type => ?_
  · have := h hs
    omega
  refine signature.pay (Nat.zero_le _) (by omega) fun signature => ?_
  refine (charges_declare (costs_predeclare h)).pay (Nat.zero_le _) (by omega) fun _ => ?_
  refine (charges_emit fun _ => by simp).free fun _ => ?_
  refine (charges_emitParams h).pay (by omega) (by omega) fun _ => ?_
  refine (charges_emitName h).free fun _ => ?_
  exact (charges_setStage _).free fun _ => charges_emitGroupSize.any

theorem charges_emitBlock {first : Emit Unit} {b : Block} (hstorage : t.storage = .ofMethod t.method)
    (hb : b ∈ t.method.blocks) (h : T.small → t.method.size ≤ sizeLimit) (hf : T.Charges n k first) :
    T.Charges (n + (b.body.map T.value).sum) (k + (b.body.map fun v => 2 * v.size + 12).sum)
      (emitBlock t first b) := by
  have mem {v : Value} (hv : v ∈ b.body) : v ∈ t.method.values := List.mem_flatMap.mpr ⟨b, hb, hv⟩
  have values : T.Charges (b.body.map T.value).sum (b.body.map fun v => 2 * v.size + 12).sum
      (b.body.forM (emitValue t)) := charges_forM fun v hv =>
    charges_emitValue hstorage (mem hv) fun hs =>
      Nat.le_trans (Method.size_le_of_mem_values (mem hv)) (h hs)
  refine (charges_label b.id).free fun id => ?_
  refine (charges_emit fun _ => by simp).free fun _ => ?_
  refine hf.pay (by omega) (by omega) fun _ => ?_
  refine values.pay (by omega) (by omega) fun _ => ?_
  refine (charges_emitTerminator fun hs => ?_).any
  exact Nat.le_trans (Method.size_le_of_mem_blocks hb) (h hs)

theorem charges_resolveAll : T.Charges 0 0 resolveAll := by
  refine charges_state.free fun s => ?_
  refine Charges.free (charges_onWork fun _ => rfl) fun _ => ?_
  have each (q : Pending) : T.Charges 0 0 (resolve q) :=
    (charges_operand q.value).free fun x => charges_onWork fun _ => rfl
  have all : T.Charges _ _ (s.work.pending.forM resolve) := charges_forM fun q _ => each q
  exact all.le (by simp) (by simp)

theorem charges_allocateLabels (bs : List Block) :
    T.Charges (bs.map fun b => T.allocate (.block b.id)).sum 0 (bs.forM allocateLabel) := by
  have labels : T.Charges _ _ (bs.forM allocateLabel) := charges_forM fun b _ =>
    (charges_allocate (.block b.id)).pay (Nat.le_refl _) (Nat.le_refl _) fun _ => charges_pure _
  exact labels.le (Nat.le_refl _) (by simp)

theorem body_charges (h : T.small → t.method.size ≤ sizeLimit)
    (hstorage : t.storage = .ofMethod t.method)
    (empty : t.method.blocks = [] → T.other (.emptyMethod t.method.name)) :
    ∃ x, body t = (expect .body >>= fun _ => x) ∧
      T.Charges (T.body t.method) (25 * t.method.size) x := by
  have storage : T.Charges (T.storage t.storage) (11 * t.method.valueSize) (emitStorage t) := by
    refine (charges_emitStorage fun hs a ha => ?_).le (Nat.le_refl _) ?_
    · rw [hstorage] at ha
      exact Nat.le_trans (Storage.weight_le_of_mem_ofMethod ha) (h hs)
    · rw [hstorage]
      exact Storage.sum_ofMethod_le t.method
  have total : 25 * t.method.valueSize ≤ 25 * t.method.size := by
    have := t.method.valueSize_le
    unfold Method.size
    omega
  have values := t.method.sum_le_valueSize 2 12
  refine ⟨_, rfl, ?_⟩
  split
  · rename_i hblocks
    exact (draws_fail (empty hblocks)).le (Nat.zero_le _)
  · rename_i entry blocks hblocks
    have first := charges_emitBlock hstorage (by simp [hblocks]) h storage (b := entry)
    have later : T.Charges _ _ (blocks.forM (emitBlock t (pure ()))) := charges_forM fun b hb =>
      charges_emitBlock (n := 0) (k := 0) hstorage (by simp [hblocks, hb]) h (charges_pure ())
    -- The charges of the blocks add up to that of all values.
    have split (f : Value → Nat) : (t.method.values.map f).sum = (entry.body.map f).sum +
        (blocks.map fun b => 0 + (b.body.map f).sum).sum := by
      simp only [Method.values, hblocks, sum_bodies, List.map_cons, List.sum_cons, Nat.zero_add]
    have sizes := split fun v => 2 * v.size + 12
    rw [Tariff.body, split, ← hstorage, hblocks]
    refine (charges_allocateLabels _).pay (by omega) (Nat.zero_le _) fun _ => ?_
    refine first.pay (by omega) (by omega) fun _ => ?_
    refine later.pay (by omega) (by omega) fun _ => ?_
    refine charges_resolveAll.free fun _ => ?_
    refine (charges_emit fun _ => by simp).free fun _ => ?_
    exact (charges_setStage _).any

end Emission

namespace Tariff

variable {α : Type} {n k : Nat} {t : Task} {s : Emission} {T : Tariff}

/-- What `Charges` says of one run, if declarations are free. -/
def ChargesAt (T : Tariff) (n : Nat) (x : Emit α) (s : Emission) : Prop :=
  T.used (x s).2 ≤ T.used s + n ∧ ∀ e, (x s).1 = .error e →
    T.short e ∧ Supply.limit < T.used s + n ∨ T.other e

theorem ChargesAt.le {x : Emit α} {k : Nat} (h : T.ChargesAt n x s) (hn : n ≤ k) :
    T.ChargesAt k x s := by
  refine ⟨Nat.le_trans h.1 (Nat.add_le_add_left hn _), fun e he => ?_⟩
  rcases h.2 e he with ⟨short, full⟩ | other
  · exact .inl ⟨short, Nat.lt_of_lt_of_le full (Nat.add_le_add_left hn _)⟩
  · exact .inr other

open Emission

theorem chargesAt_call {call : Call} {x : Emit Unit} (free : T.declaration = 0)
    (hs : s.work.stage = call.stage) (hx : T.Charges n k x) :
    T.ChargesAt n (expect call >>= fun _ => x) s := by
  have ready : expect call s = (.ok (), s) := by
    simp only [expect, bind_apply, state_apply, if_pos hs, pure_apply]
  rw [Charges, free, Nat.zero_mul, Nat.add_zero] at hx
  rw [ChargesAt, bind_apply, ready]
  exact hx s

theorem chargesAt_header (free : T.declaration = 0) (h : T.small → t.method.size ≤ sizeLimit)
    (hs : s.work.stage = Call.header.stage) :
    T.ChargesAt (T.header t.method) (Emission.header t) s := by
  obtain ⟨x, hx, charges⟩ := header_charges h
  rw [hx]
  exact chargesAt_call free hs charges

theorem chargesAt_body (free : T.declaration = 0) (h : T.small → t.method.size ≤ sizeLimit)
    (hstorage : t.storage = .ofMethod t.method) (hs : s.work.stage = Call.body.stage)
    (empty : t.method.blocks = [] → T.other (.emptyMethod t.method.name)) :
    T.ChargesAt (T.body t.method) (Emission.body t) s := by
  obtain ⟨x, hx, charges⟩ := body_charges h hstorage empty
  rw [hx]
  exact chargesAt_call free hs charges

end Tariff

end SpirvKernel
