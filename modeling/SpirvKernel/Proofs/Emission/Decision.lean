import SpirvKernel.Proofs.Dictionary.Capacity
import SpirvKernel.Proofs.Emission.Lowering
import SpirvKernel.Proofs.Emission.Storage
import SpirvKernel.Proofs.WellFormed

/-!
# When values can be emitted

Whether a value or terminator can be emitted is decided by the names and labels that there are. The
identifiers of the method never run out on the way.
-/

namespace SpirvKernel

open Attempt

/-! ## What there is -/

/-- The values `N` and blocks `L` have names, and operands `us` of phis have one or wait for it. -/
structure Work.HasNames (N : ValueId → Prop) (L : BlockId → Prop) (us : List ValueId) (k : Nat)
    (w : Work) : Prop where
  values : ∀ u, (w.table.get? (.value u)).isSome ↔ N u
  blocks : ∀ b, (w.table.get? (.block b)).isSome ↔ L b
  room : w.table.range.next + k ≤ w.table.range.stop
  missing : ∀ q ∈ w.pending, q.value ∈ us
  accounted : ∀ u ∈ us, N u ∨ ∃ q ∈ w.pending, q.value = u

section

variable {N N' : ValueId → Prop} {L : BlockId → Prop} {us : List ValueId} {j k : Nat} {w w' : Work}
  {s s' : Emission}

theorem Work.HasNames.congr (h : w.HasNames N L us k) (ht : w'.table = w.table)
    (hp : w'.pending = w.pending) : w'.HasNames N L us k := by
  constructor
  · rw [ht]; exact h.values
  · rw [ht]; exact h.blocks
  · rw [ht]; exact h.room
  · rw [hp]; exact h.missing
  · rw [hp]; exact h.accounted

theorem Work.HasNames.le (h : w.HasNames N L us k) (hj : j ≤ k) : w.HasNames N L us j :=
  { h with room := by have := h.room; omega }

theorem Work.HasNames.names (h : w.HasNames N L us k) (hN : ∀ u, N u ↔ N' u) : w.HasNames N' L us k where
  values u := (h.values u).trans (hN u)
  blocks := h.blocks
  room := h.room
  missing := h.missing
  accounted u hu := by
    rw [← hN]
    exact h.accounted u hu

theorem Work.HasNames.taken (h : s.work.HasNames N L us (k + 1)) : s.taken.work.HasNames N L us k where
  values := h.values
  blocks := h.blocks
  room := by
    have := h.room
    simp only [Emission.taken]
    omega
  missing := h.missing
  accounted := h.accounted

theorem Work.HasNames.named (h : s.work.HasNames N L us k) (v : ValueId) (id : Id) :
    (s.named (.value v) id).work.HasNames (fun u => N u ∨ u = v) L us k where
  values u := by
    rw [Emission.get?_named, ← h.values]
    by_cases hu : u = v <;> simp [hu]
  blocks b := by
    rw [Emission.get?_named, if_neg nofun]
    exact h.blocks b
  room := h.room
  missing := h.missing
  accounted u hu := by
    rcases h.accounted u hu with hN | hq
    · exact .inl (.inl hN)
    · exact .inr hq

theorem Work.HasNames.await (h : w.HasNames N L us k) (vs : List ValueId) (qs : List Pending)
    (hqs : ∀ q ∈ qs, q.value ∈ vs) (hvs : ∀ u ∈ vs, N u ∨ ∃ q ∈ qs, q.value = u) :
    Work.HasNames N L (us ++ vs) k { w with pending := w.pending ++ qs } where
  values := h.values
  blocks := h.blocks
  room := h.room
  missing q hq := by
    rcases List.mem_append.mp hq with hq | hq
    · exact List.mem_append_left _ (h.missing q hq)
    · exact List.mem_append_right _ (hqs q hq)
  accounted u hu := by
    rcases List.mem_append.mp hu with hu | hu
    · rcases h.accounted u hu with hN | ⟨q, hq, rfl⟩
      · exact .inl hN
      · exact .inr ⟨q, List.mem_append_left _ hq, rfl⟩
    · rcases hvs u hu with hN | ⟨q, hq, rfl⟩
      · exact .inl hN
      · exact .inr ⟨q, List.mem_append_right _ hq, rfl⟩

theorem Work.HasNames.labelled (h : s.work.HasNames N L us k) (b : BlockId) (id : Id) :
    (s.named (.block b) id).work.HasNames N (fun c => L c ∨ c = b) us k where
  values u := by
    rw [Emission.get?_named, if_neg nofun]
    exact h.values u
  blocks c := by
    rw [Emission.get?_named, ← h.blocks]
    by_cases hc : c = b <;> simp [hc]
  room := h.room
  missing := h.missing
  accounted := h.accounted

end

/-! ## Primitives -/

namespace Emission

variable {N : ValueId → Prop} {L : BlockId → Prop} {us : List ValueId} {k : Nat}
  {s : Emission} {t : Task}

/-- An attempt succeeds exactly under the condition `C`, unless there is a shortage. -/
abbrev Decides {α : Type} (C : Prop) (Q : α → Emission → Prop) (x : Emit α) (s : Emission) : Prop :=
  Settles (·.isShortage = true) C Q x s

theorem decides_load {e : Entity} {C : Prop} (named : (s.work.table.get? e).isSome ↔ C) :
    Decides C (fun x s' => (s.work.table.get? e).map Id.word = some x ∧ s' = s)
      (Id.word <$> onTable (IdTable.load e)) s := by
  have base : Decides _ _ (Id.word <$> onTable (IdTable.load e)) s :=
    settles_of_iff fun _ _ => load_ok_iff
  refine (base.imp fun _ _ h => ⟨h.1, h.2.symm⟩).congr ?_
  rw [← named]
  simp [Option.isSome_iff_exists]

theorem decides_operand (h : s.work.HasNames N L us k) (u : ValueId) :
    Decides (N u) (fun x s' => s.work.table.value? u = some x ∧ s' = s) (operand u) s :=
  decides_load (h.values u)

theorem decides_label (h : s.work.HasNames N L us k) (b : BlockId) :
    Decides (L b) (fun x s' => s.work.table.label? b = some x ∧ s' = s) (label b) s :=
  decides_load (h.blocks b)

theorem decides_typeOf (t : Task) (u : ValueId) (s : Emission) :
    Decides (t.method.typeOf? u).isSome (fun type s' => t.method.typeOf? u = some type ∧ s' = s)
      (typeOf t u) s := settles_require

theorem decides_operands (h : s.work.HasNames N L us k) (vs : List ValueId) :
    Decides (∀ u ∈ vs, N u) (fun xs s' => vs.mapM s.work.table.value? = some xs ∧ s' = s)
      (vs.mapM operand) s := by
  have base : Decides _ _ (vs.mapM operand) s := settles_of_iff fun _ _ => operands_ok_iff
  refine (base.imp fun _ _ h => ⟨h.1, h.2.symm⟩).congr ?_
  have named : ∀ u, N u ↔ (s.work.table.value? u).isSome := by
    intro u
    rw [← h.values, IdTable.value?, Option.isSome_map]
  simp only [named]
  rw [← isSome_mapM_iff, Option.isSome_iff_exists]
  constructor
  · rintro ⟨ws, _, hws, -⟩; exact ⟨ws, hws⟩
  · rintro ⟨ws, hws⟩; exact ⟨ws, s, hws, rfl⟩

/-! ### Steps that only a shortage can stop -/

theorem decides_declare {α : Type} {n : Nat} {x : Declare α} (hx : Dictionary.Costs False n x)
    (h : s.work.HasNames N L us k) :
    Decides True (fun _ s' => s'.work.HasNames N L us k) (declare x) s := by
  refine settles_of (fun a s' hok => ⟨trivial, ?_⟩) fun e s' herror _ => ?_
  · obtain ⟨d, -, rfl⟩ := onPart_ok_iff.mp hok
    exact h
  · have : x s.dictionary = (.error e, (x s.dictionary).2) := Prod.ext (Prod.mk.inj herror).1 rfl
    exact hx.isShortage this

theorem decides_typeWord (type : Ty) (h : s.work.HasNames N L us k) :
    Decides True (fun _ s' => s'.work.HasNames N L us k) (typeWord type) s :=
  (decides_declare (Dictionary.costs_typeId type False.elim) h).map fun _ _ => id

theorem decides_constantWord (c : Constant) (h : s.work.HasNames N L us k) :
    Decides True (fun _ s' => s'.work.HasNames N L us k) (constantWord c) s :=
  (decides_declare (Dictionary.costs_constantId False.elim) h).map fun _ _ => id

theorem decides_emitTo (sec : Section) (op : Opcode) (ws : List Word)
    (h : s.work.HasNames N L us k) : Decides True
      (fun _ s' => s'.work.HasNames N L us k ∧ s'.work.stage = s.work.stage) (emitTo sec op ws) s := by
  unfold emitTo
  dsimp only
  split
  · exact ⟨trivial, h.congr rfl rfl, rfl⟩
  · exact settles_spare rfl

theorem decides_emit (op : Opcode) (ws : List Word) (h : s.work.HasNames N L us k) :
    Decides True (fun _ s' => s'.work.HasNames N L us k) (emit op ws) s :=
  (decides_emitTo _ op ws h).imp fun _ _ => And.left

theorem decides_fresh (h : s.work.HasNames N L us (k + 1)) :
    Decides True (fun _ s' => s'.work.HasNames N L us k) (onTable IdTable.fresh) s := by
  have base : Decides _ _ (onTable IdTable.fresh) s := settles_of_iff fun _ _ => fresh_ok_iff
  refine (base.imp fun _ _ hs => ?_).congr ⟨fun _ => trivial, fun _ => ?_⟩
  · obtain ⟨-, -, rfl⟩ := hs
    exact h.taken
  · have := h.room
    exact ⟨_, _, by omega, rfl, rfl⟩

theorem decides_freshWord (h : s.work.HasNames N L us (k + 1)) :
    Decides True (fun _ s' => s'.work.HasNames N L us k) fresh s :=
  (decides_fresh h).map fun _ _ => id

theorem decides_allocate {v : ValueId} (h : s.work.HasNames N L us (k + 1)) (new : ¬ N v) :
    Decides True (fun _ s' => s'.work.HasNames (fun u => N u ∨ u = v) L us k)
      (onTable (IdTable.allocate (.value v))) s := by
  have base : Decides _ _ (onTable (IdTable.allocate (.value v))) s :=
    settles_of_iff fun _ _ => allocate_ok_iff
  refine (base.imp fun _ _ hs => ?_).congr ⟨fun _ => trivial, fun _ => ?_⟩
  · obtain ⟨-, -, -, rfl⟩ := hs
    exact h.taken.named v s.nextId
  · have := h.room
    rw [← h.values, Option.not_isSome_iff_eq_none] at new
    exact ⟨_, _, new, by omega, rfl, rfl⟩

theorem decides_bind {v : ValueId} (id : Id) (h : s.work.HasNames N L us k) (new : ¬ N v) :
    Decides True (fun _ s' => s'.work.HasNames (fun u => N u ∨ u = v) L us k)
      (onTable (IdTable.bind (.value v) id)) s := by
  have base : Decides _ _ (onTable (IdTable.bind (.value v) id)) s :=
    settles_of_iff fun _ _ => bind_ok_iff
  refine (base.imp fun _ _ hs => ?_).congr ⟨fun _ => trivial, fun _ => ?_⟩
  · obtain ⟨-, rfl⟩ := hs
    exact h.named v id
  · rw [← h.values, Option.not_isSome_iff_eq_none] at new
    exact ⟨(), _, new, rfl⟩

theorem decides_result {v : Value} (h : s.work.HasNames N L us (k + 1)) (new : ¬ N v.id) :
    Decides True (fun _ s' => s'.work.HasNames (fun u => N u ∨ u = v.id) L us k) (result v) s := by
  refine (decides_typeWord v.type h).bind id fun type s₁ _ h₁ => ?_
  refine (decides_allocate h₁ new).bind id fun id s₂ _ h₂ => ?_
  exact settles_pure trivial h₂

theorem decides_emitResult {v : Value} (op : Opcode) (ws : List Word)
    (h : s.work.HasNames N L us (k + 1)) (new : ¬ N v.id) :
    Decides True (fun _ s' => s'.work.HasNames (fun u => N u ∨ u = v.id) L us k)
      (emitResult v op ws) s :=
  (decides_result h new).bind id fun _ _ _ h₁ => decides_emit _ _ h₁

/-! ## Values -/

end Emission

/-- A task of the program `p`: it knows the functions of the program and has placed its own storage. -/
structure Task.Serves (p : Program) (t : Task) : Prop where
  storage : t.storage = .ofMethod t.method
  callees : ∀ id, (t.frame.functions.get? id).isSome ↔ ∃ m ∈ p.methods, m.id = id
  distinct : t.method.Distinct

/-- What is asked of a value when it is emitted. Whether the operands of a phi get names shows later. -/
@[mk_iff]
structure Value.Emittable (p : Program) (m : Method) (N : ValueId → Prop) (L : BlockId → Prop)
    (v : Value) : Prop where
  operands : ∀ u ∈ v.kind.operands, N u
  supported : v.Supported p m
  incoming : ∀ x ∈ v.kind.incoming, (m.typeOf? x.1).isSome ∧ L x.2

namespace Emission

variable {p : Program} {N : ValueId → Prop} {L : BlockId → Prop} {us : List ValueId} {k : Nat}
  {s : Emission} {t : Task} {v : Value}

/-- The state after a value was emitted. -/
def AfterValue (v : Value) (N : ValueId → Prop) (L : BlockId → Prop) (us : List ValueId) (k : Nat)
    (s : Emission) : Prop :=
  s.work.HasNames (fun u => N u ∨ v.kind.isNamed = true ∧ u = v.id) L
    (us ++ v.kind.incoming.map Prod.fst) k

theorem afterValue_of_named {kind : ValueKind} (hk : v.kind = kind)
    (plain : kind.isNamed = true ∧ kind.incoming = [])
    (h : s.work.HasNames (fun u => N u ∨ u = v.id) L us k) : AfterValue v N L us k s := by
  unfold AfterValue
  rw [hk, plain.2, List.map_nil, List.append_nil]
  exact h.names fun u => by simp [plain.1]

theorem afterValue_of_silent {kind : ValueKind} (hk : v.kind = kind)
    (plain : kind.isNamed = false ∧ kind.incoming = []) (h : s.work.HasNames N L us k) :
    AfterValue v N L us k s := by
  unfold AfterValue
  rw [hk, plain.2, List.map_nil, List.append_nil]
  exact h.names fun u => by simp [plain.1]

theorem decides_last {E : Prop} {op : Opcode} {ws : List Word} {kind : ValueKind}
    (hk : v.kind = kind) (plain : kind.isNamed = true ∧ kind.incoming = []) (new : ¬ N v.id)
    (h : s.work.HasNames N L us (k + 1)) (hE : E) :
    Decides E (fun _ => AfterValue v N L us k) (emitResult v op ws) s :=
  ((decides_emitResult op ws h new).imp fun _ _ => afterValue_of_named hk plain).also hE

theorem decides_unitWord {type : Ty} {one : Bool} (h : s.work.HasNames N L us k) :
    Decides (type.unit? one).isSome (fun _ s' => s'.work.HasNames N L us k) (unitWord type one) s :=
  (settles_choice (fun _ => Ty.unit_ok_iff) s).read id fun c hunit _ =>
    (decides_constantWord c h).also hunit

theorem decides_conversion {source : ValueId} {flags : ConvertFlags}
    (hk : v.kind = .convert source flags) (typed : ∀ u, N u → (t.method.typeOf? u).isSome)
    (new : ¬ N v.id) (h : s.work.HasNames N L us (k + 1)) :
    Decides (v.Emittable p t.method N L) (fun _ => AfterValue v N L us k)
      (emitConversion t v source flags) s := by
  have hE := Value.emittable_iff p t.method N L v
  simp only [ValueKind.operands, ValueKind.incoming, Value.Supported, hk, List.mem_singleton,
    forall_eq, List.not_mem_nil, IsEmpty.forall_iff, implies_true, and_true] at hE
  refine (decides_typeOf t source s).read (fun e => typed _ (hE.mp e).1) fun type _ htype => ?_
  simp only [htype, Option.some.injEq, exists_eq_left', Convertible] at hE
  refine (settles_choice (fun _ => Conversion.between_ok_iff) s).read (fun e => ?_)
    fun conversion _ hconversion => ?_
  · have := (hE.mp e).2
    split at this <;> simp_all
  rw [hconversion] at hE
  refine (decides_operand h source).read (fun e => (hE.mp e).1) fun x hx _ => ?_
  cases conversion with
  | direct op => exact decides_last hk ⟨rfl, rfl⟩ new h (hE.mpr ⟨hx, trivial⟩)
  | fromBool =>
    refine (decides_unitWord h).bind (fun e => (hE.mp e).2 true) fun one s₁ hone h₁ => ?_
    refine (decides_unitWord h₁).bind (fun e => (hE.mp e).2 false) fun zero s₂ hzero h₂ => ?_
    exact decides_last hk ⟨rfl, rfl⟩ new h₂ (hE.mpr ⟨hx, Bool.forall_bool.mpr ⟨hzero, hone⟩⟩)
  | toBool op =>
    refine (decides_unitWord h).bind (fun e => (hE.mp e).2) fun zero s₁ hzero h₁ => ?_
    exact decides_last hk ⟨rfl, rfl⟩ new h₁ (hE.mpr ⟨hx, hzero⟩)

theorem decides_call {callee : Callee} {args : List ValueId} {flags : ArithmeticFlags}
    (serves : t.Serves p) (hk : v.kind = .call callee args flags)
    (typed : ∀ u, N u → (t.method.typeOf? u).isSome) (new : ¬ N v.id)
    (h : s.work.HasNames N L us (k + 1)) :
    Decides (v.Emittable p t.method N L) (fun _ => AfterValue v N L us k)
      (emitCall t v callee args flags) s := by
  have hE := Value.emittable_iff p t.method N L v
  simp only [ValueKind.operands, ValueKind.incoming, Value.Supported, hk, List.not_mem_nil,
    IsEmpty.forall_iff, implies_true, and_true] at hE
  refine (decides_operands h args).read (fun e => (hE.mp e).1) fun xs hargs _ => ?_
  cases callee with
  | method m =>
    refine (settles_choice (fun _ => FunctionTable.get_ok_iff) s).read
      (fun e => (serves.callees m).mpr (hE.mp e).2) fun function hm _ => ?_
    exact decides_last hk ⟨rfl, rfl⟩ new h (hE.mpr ⟨hargs, (serves.callees m).mp hm⟩)
  | intrinsic f =>
    cases args with
    | nil => exact settles_fail fun e => by simpa using (hE.mp e).2
    | cons first rest =>
      simp only [List.head?_cons, Option.some.injEq, exists_and_left, exists_eq_left'] at hE
      have hfirst := typed first (hargs first List.mem_cons_self)
      refine (decides_typeOf t first s).read (fun _ => hfirst) fun type _ htype => ?_
      simp only [htype, Option.some.injEq, exists_eq_left'] at hE
      refine (settles_choice (fun _ => Operator.demand_ok_iff) s).read (fun e => (hE.mp e).2)
        fun form hform _ => ?_
      have hv := hE.mpr ⟨hargs, hform⟩
      cases form with
      | core op => exact decides_last hk ⟨rfl, rfl⟩ new h hv
      | extended number => exact decides_last hk ⟨rfl, rfl⟩ new h hv

theorem decides_gridIndex {builtin : GridBuiltin} {dimension : UInt8}
    (hk : v.kind = .gridIndex builtin dimension) (new : ¬ N v.id)
    (h : s.work.HasNames N L us (k + 3)) :
    Decides (v.Emittable p t.method N L) (fun _ => AfterValue v N L us k)
      (emitGridIndex v builtin dimension) s := by
  have hE := Value.emittable_iff p t.method N L v
  simp only [ValueKind.operands, ValueKind.incoming, Value.Supported, hk, List.not_mem_nil,
    IsEmpty.forall_iff, implies_true, and_true, true_and] at hE
  unfold emitGridIndex
  split
  · rename_i hd
    exact settles_fail fun e => absurd (hE.mp e).1 (UInt8.not_le.mpr hd)
  · rename_i hd
    split
    · rename_i width htype
      have hv := hE.mpr ⟨UInt8.not_lt.mp hd, width, htype⟩
      have all (hx : v.Emittable p t.method N L) : True := trivial
      refine (decides_declare (Dictionary.costs_builtinId _) h).bind all fun vars s₁ _ h₁ => ?_
      refine (decides_typeWord _ h₁).bind all fun vector s₂ _ h₂ => ?_
      refine (decides_typeWord _ h₂).bind all fun wide s₃ _ h₃ => ?_
      refine (decides_freshWord h₃).bind all fun loaded s₄ _ h₄ => ?_
      refine (decides_emit _ _ h₄).bind all fun _ s₅ _ h₅ => ?_
      split
      · exact decides_last hk ⟨rfl, rfl⟩ new (h₅.le (by omega)) hv
      · refine (decides_freshWord h₅).bind all fun extracted s₆ _ h₆ => ?_
        refine (decides_emit _ _ h₆).bind all fun _ s₇ _ h₇ => ?_
        exact decides_last hk ⟨rfl, rfl⟩ new h₇ hv
    · rename_i htype
      refine settles_fail fun e => ?_
      obtain ⟨-, width, hwidth⟩ := hE.mp e
      exact htype width hwidth

/-! ### Phis -/

theorem decides_phiOperands (start : Nat) {incoming : List (ValueId × BlockId)}
    (h : s.work.HasNames N L us k) :
    Decides (∀ x ∈ incoming, (t.method.typeOf? x.1).isSome ∧ L x.2)
      (fun r s' => ((∀ q ∈ r.2, q.2 ∈ incoming.map Prod.fst) ∧
        ∀ u ∈ incoming.map Prod.fst, N u ∨ ∃ q ∈ r.2, q.2 = u) ∧ s' = s)
      (phiOperands t start incoming) s := by
  induction incoming generalizing start with
  | nil => exact settles_pure nofun ⟨⟨nofun, nofun⟩, rfl⟩
  | cons x incoming ih =>
    obtain ⟨v, b⟩ := x
    simp only [List.forall_mem_cons]
    refine (decides_typeOf t v s).read (fun e => e.1.1) fun type hv _ => ?_
    refine settles_state.read (fun _ => trivial) ?_
    rintro _ - rfl
    refine (decides_label h b).read (fun e => e.1.2) fun block hb _ => ?_
    refine (ih (start + 2)).read (fun e => e.2) fun r hrest hr => ?_
    cases hvalue : s.work.table.get? (.value v) with
    | some id =>
      have hN : N v := (h.values v).mp (by simp [hvalue])
      refine settles_pure ⟨⟨hv, hb⟩, hrest⟩ ⟨⟨fun q hq => ?_, fun u hu => ?_⟩, rfl⟩
      · exact List.mem_cons_of_mem v (hr.1 q hq)
      · rcases List.mem_cons.mp hu with rfl | hu
        · exact .inl hN
        · exact hr.2 u hu
    | none =>
      refine settles_pure ⟨⟨hv, hb⟩, hrest⟩ ⟨⟨fun q hq => ?_, fun u hu => ?_⟩, rfl⟩
      · rcases List.mem_cons.mp hq with rfl | hq
        · exact List.mem_cons_self
        · exact List.mem_cons_of_mem v (hr.1 q hq)
      · rcases List.mem_cons.mp hu with rfl | hu
        · exact .inr ⟨(start, _), List.mem_cons_self, rfl⟩
        · rcases hr.2 u hu with hN | ⟨q, hq, rfl⟩
          · exact .inl hN
          · exact .inr ⟨q, List.mem_cons_of_mem _ hq, rfl⟩

theorem decides_phi {incoming : List (ValueId × BlockId)} (hk : v.kind = .phi incoming)
    (new : ¬ N v.id) (h : s.work.HasNames N L us (k + 1)) :
    Decides (v.Emittable p t.method N L) (fun _ => AfterValue v N L us k) (emitPhi t v incoming) s := by
  have hE := Value.emittable_iff p t.method N L v
  simp only [ValueKind.operands, ValueKind.incoming, Value.Supported, hk, List.not_mem_nil,
    IsEmpty.forall_iff, implies_true, true_and] at hE
  refine Settles.congr ?_ hE.symm
  refine (decides_result h new).bind (fun _ => trivial) fun r s₁ _ h₁ => ?_
  refine (decides_phiOperands 2 h₁).read id fun q hq hmissing => ?_
  refine settles_state.read (fun _ => trivial) ?_
  rintro _ - rfl
  refine (decides_emit _ _ h₁).bind (fun _ => trivial) fun _ s₂ _ h₂ => ?_
  have waiting := h₂.await (incoming.map Prod.fst) (q.2.map fun x =>
    ⟨s₁.work.output.functions.length, x.1, x.2⟩) ?_ fun u hu => ?_
  · refine ⟨hq, ?_⟩
    unfold AfterValue
    rw [hk]
    exact waiting.names fun u => by simp [ValueKind.isNamed]
  · intro x hx
    obtain ⟨y, hy, rfl⟩ := List.mem_map.mp hx
    exact hmissing.1 y hy
  · rcases hmissing.2 u hu with hN | ⟨y, hy, rfl⟩
    · exact .inl hN
    · exact .inr ⟨_, List.mem_map_of_mem hy, rfl⟩

theorem decides_barrier (h : s.work.HasNames N L us k) :
    Decides True (fun _ s' => s'.work.HasNames N L us k) emitBarrier s := by
  refine (decides_constantWord _ h).bind id fun scope s₁ _ h₁ => ?_
  refine (decides_constantWord _ h₁).bind id fun semantics s₂ _ h₂ => ?_
  exact decides_emit _ _ h₂

/-! ### All kinds -/

theorem decides_computed (serves : t.Serves p) (typed : ∀ u, N u → (t.method.typeOf? u).isSome)
    (computed : v.kind.isAlloca = false) (new : ¬ N v.id) (h : s.work.HasNames N L us (k + 3)) :
    Decides (v.Emittable p t.method N L) (fun _ => AfterValue v N L us k) (emitValue t v) s := by
  -- Allocations are placed before, at the top of the entry block.
  have h₁ : s.work.HasNames N L us (k + 1) := h.le (by omega)
  unfold emitValue
  cases hk : v.kind with
  | constant c =>
    have hE : v.Emittable p t.method N L := by
      simp [Value.emittable_iff, Value.Supported, hk, ValueKind.operands, ValueKind.incoming]
    refine (decides_declare (Dictionary.costs_constantId False.elim) h₁).bind
      (fun _ => trivial) fun id s₁ _ h₂ => ?_
    refine ((decides_bind id h₂ new).imp fun _ _ h₃ => ?_).also hE
    exact afterValue_of_named hk ⟨rfl, rfl⟩ (h₃.le (by omega))
  | undef =>
    have hE : v.Emittable p t.method N L := by
      simp [Value.emittable_iff, Value.Supported, hk, ValueKind.operands, ValueKind.incoming]
    exact decides_last hk ⟨rfl, rfl⟩ new h₁ hE
  | binary op lhs rhs flags =>
    have hE : v.Emittable p t.method N L ↔
        (N lhs ∧ N rhs) ∧ (op.opcode? v.type.scalarClass flags).isSome := by
      simp [Value.emittable_iff, Value.Supported, hk, ValueKind.operands, ValueKind.incoming]
    refine (settles_choice (fun _ => Operator.demand_ok_iff) s).read (fun e => (hE.mp e).2)
      fun opcode hop _ => ?_
    refine (decides_operand h₁ lhs).read (fun e => (hE.mp e).1.1) fun x hx _ => ?_
    refine (decides_operand h₁ rhs).read (fun e => (hE.mp e).1.2) fun y hy _ => ?_
    exact decides_last hk ⟨rfl, rfl⟩ new h₁ (hE.mpr ⟨⟨hx, hy⟩, hop⟩)
  | unary op source =>
    have hE : v.Emittable p t.method N L ↔
        N source ∧ (op.opcode? v.type.scalarClass).isSome := by
      simp [Value.emittable_iff, Value.Supported, hk, ValueKind.operands, ValueKind.incoming]
    refine (settles_choice (fun _ => Operator.demand_ok_iff) s).read (fun e => (hE.mp e).2)
      fun opcode hop _ => ?_
    refine (decides_operand h₁ source).read (fun e => (hE.mp e).1) fun x hx _ => ?_
    exact decides_last hk ⟨rfl, rfl⟩ new h₁ (hE.mpr ⟨hx, hop⟩)
  | compare op lhs rhs flags =>
    have hE : v.Emittable p t.method N L ↔ (N lhs ∧ N rhs) ∧
        ∃ type, t.method.typeOf? lhs = some type ∧ (op.opcode? type.scalarClass flags).isSome := by
      simp [Value.emittable_iff, Value.Supported, hk, ValueKind.operands, ValueKind.incoming]
    refine (decides_typeOf t lhs s).read (fun e => typed _ (hE.mp e).1.1) fun type _ htype => ?_
    simp only [htype, Option.some.injEq, exists_eq_left'] at hE
    refine (settles_choice (fun _ => Operator.demand_ok_iff) s).read (fun e => (hE.mp e).2)
      fun opcode hop _ => ?_
    refine (decides_operand h₁ lhs).read (fun e => (hE.mp e).1.1) fun x hx _ => ?_
    refine (decides_operand h₁ rhs).read (fun e => (hE.mp e).1.2) fun y hy _ => ?_
    exact decides_last hk ⟨rfl, rfl⟩ new h₁ (hE.mpr ⟨⟨hx, hy⟩, hop⟩)
  | convert source flags =>
    exact decides_conversion hk typed new h₁
  | select cond thenValue elseValue =>
    have hE : v.Emittable p t.method N L ↔ N cond ∧ N thenValue ∧ N elseValue := by
      simp [Value.emittable_iff, Value.Supported, hk, ValueKind.operands, ValueKind.incoming]
    refine (decides_operand h₁ cond).read (fun e => (hE.mp e).1) fun c hc _ => ?_
    refine (decides_operand h₁ thenValue).read (fun e => (hE.mp e).2.1) fun x hx _ => ?_
    refine (decides_operand h₁ elseValue).read (fun e => (hE.mp e).2.2) fun y hy _ => ?_
    exact decides_last hk ⟨rfl, rfl⟩ new h₁ (hE.mpr ⟨hc, hx, hy⟩)
  | alloca elem extent => simp [hk, ValueKind.isAlloca] at computed
  | load address =>
    have hE : v.Emittable p t.method N L ↔ N address := by
      simp [Value.emittable_iff, Value.Supported, hk, ValueKind.operands, ValueKind.incoming]
    refine (decides_operand h₁ address).read hE.mp fun x hx _ => ?_
    exact decides_last hk ⟨rfl, rfl⟩ new h₁ (hE.mpr hx)
  | store address source =>
    have hE : v.Emittable p t.method N L ↔ N address ∧ N source := by
      simp [Value.emittable_iff, Value.Supported, hk, ValueKind.operands, ValueKind.incoming]
    refine (decides_operand h₁ address).read (fun e => (hE.mp e).1) fun x hx _ => ?_
    refine (decides_operand h₁ source).read (fun e => (hE.mp e).2) fun y hy _ => ?_
    refine ((decides_emit _ _ h₁).imp fun _ _ h₂ => ?_).also (hE.mpr ⟨hx, hy⟩)
    exact afterValue_of_silent hk ⟨rfl, rfl⟩ (h₂.le (by omega))
  | elementAddress base index =>
    have hE : v.Emittable p t.method N L ↔ N base ∧ N index := by
      simp [Value.emittable_iff, Value.Supported, hk, ValueKind.operands, ValueKind.incoming]
    refine (decides_operand h₁ base).read (fun e => (hE.mp e).1) fun x hx _ => ?_
    refine (decides_operand h₁ index).read (fun e => (hE.mp e).2) fun y hy _ => ?_
    exact decides_last hk ⟨rfl, rfl⟩ new h₁ (hE.mpr ⟨hx, hy⟩)
  | fieldAddress base field =>
    have hE : v.Emittable p t.method N L ↔ N base := by
      simp [Value.emittable_iff, Value.Supported, hk, ValueKind.operands, ValueKind.incoming]
    refine (decides_operand h₁ base).read hE.mp fun x hx _ => ?_
    refine (decides_constantWord _ h₁).bind (fun _ => trivial) fun i s₁ _ h₂ => ?_
    exact decides_last hk ⟨rfl, rfl⟩ new h₂ (hE.mpr hx)
  | extractField aggregate field =>
    have hE : v.Emittable p t.method N L ↔ N aggregate := by
      simp [Value.emittable_iff, Value.Supported, hk, ValueKind.operands, ValueKind.incoming]
    refine (decides_operand h₁ aggregate).read hE.mp fun x hx _ => ?_
    exact decides_last hk ⟨rfl, rfl⟩ new h₁ (hE.mpr hx)
  | call callee args flags =>
    exact decides_call serves hk typed new h₁
  | phi incoming =>
    exact decides_phi hk new h₁
  | gridIndex builtin dimension =>
    exact decides_gridIndex hk new h
  | barrier =>
    have hE : v.Emittable p t.method N L := by
      simp [Value.emittable_iff, Value.Supported, hk, ValueKind.operands, ValueKind.incoming]
    refine ((decides_barrier h₁).imp fun _ _ h₂ => ?_).also hE
    exact afterValue_of_silent hk ⟨rfl, rfl⟩ (h₂.le (by omega))
  | inlineAssembly code args =>
    exact settles_fail fun e => by simpa [Value.Supported, hk] using e.supported

/-! ### Allocations -/

end Emission

/-- How many identifiers a value takes at most where it stands. -/
def Value.idCount (v : Value) : Nat := if v.kind.isAlloca then 0 else 3

namespace Emission

variable {p : Program} {N : ValueId → Prop} {L : BlockId → Prop} {us : List ValueId} {k : Nat}
  {s : Emission} {t : Task} {v : Value}

theorem decides_alloca (serves : t.Serves p) (hv : v ∈ t.method.values)
    (ha : v.kind.isAlloca = true) (placed : N v.id) (h : s.work.HasNames N L us k) :
    Decides (v.Emittable p t.method N L) (fun _ => AfterValue v N L us k) (emitValue t v) s := by
  have known := Storage.isSome_kindOf?_ofMethod hv ha
  rw [← serves.storage, Option.isSome_iff_exists] at known
  obtain ⟨kind, hkind⟩ := known
  obtain ⟨elem, extent, hk⟩ := ValueKind.isAlloca_iff.mp ha
  have hE : v.Emittable p t.method N L := by
    simp [Value.emittable_iff, Value.Supported, hk, ValueKind.operands, ValueKind.incoming]
  have names (u : ValueId) : N u ↔ N u ∨ u = v.id := by
    constructor
    · exact .inl
    · rintro (hu | rfl)
      · exact hu
      · exact placed
  unfold emitValue
  rw [hk]
  dsimp only
  rw [hkind]
  exact settles_pure hE (afterValue_of_named hk ⟨rfl, rfl⟩ (h.names names))

theorem decides_emitValue (serves : t.Serves p) (hv : v ∈ t.method.values)
    (typed : ∀ u, N u → (t.method.typeOf? u).isSome) (placed : v.kind.isAlloca = true → N v.id)
    (new : v.kind.isAlloca = false → ¬ N v.id) (h : s.work.HasNames N L us (k + v.idCount)) :
    Decides (v.Emittable p t.method N L) (fun _ => AfterValue v N L us k) (emitValue t v) s := by
  cases ha : v.kind.isAlloca with
  | true => exact decides_alloca serves hv ha (placed ha) (h.le (by omega))
  | false =>
    rw [Value.idCount, ha] at h
    exact decides_computed serves typed ha (new ha) h

end Emission

end SpirvKernel
