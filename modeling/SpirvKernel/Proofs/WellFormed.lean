import Mathlib.Data.List.Nodup
import Mathlib.Tactic.MkIffOfInductiveProp
import SpirvKernel.Kernel.Method
import SpirvKernel.Proofs.Outcome
import SpirvKernel.Selection.Conversion
import SpirvKernel.Selection.Intrinsic

/-!
# Well-formed programs

What can be asked of a program without emitting it: names are known where they are used, blocks exist,
and every value and terminator is of a kind that has an instruction.
-/

namespace SpirvKernel

/-! ## Names -/

namespace ValueKind

def isAlloca : ValueKind → Bool
  | .alloca .. => true
  | _ => false

theorem isAlloca_iff {kind : ValueKind} :
    kind.isAlloca = true ↔ ∃ elem extent, kind = .alloca elem extent := by
  cases kind <;> simp [isAlloca]

/-- Whether there is a result to refer to. -/
def isNamed : ValueKind → Bool
  | .store .. | .barrier => false
  | _ => true

/-- The operands that are needed where the value stands. A phi needs none of its own there. -/
def operands : ValueKind → List ValueId
  | .binary _ lhs rhs _ | .compare _ lhs rhs _ => [lhs, rhs]
  | .unary _ x | .convert x _ | .load x | .fieldAddress x _ | .extractField x _ => [x]
  | .select c x y => [c, x, y]
  | .store address x => [address, x]
  | .elementAddress base index => [base, index]
  | .call _ args _ | .inlineAssembly _ args => args
  | .constant _ | .undef | .alloca .. | .phi _ | .gridIndex .. | .barrier => []

def incoming : ValueKind → List (ValueId × BlockId)
  | .phi incoming => incoming
  | _ => []

end ValueKind

def Terminator.operands : Terminator → List ValueId
  | .ret (some v) => [v]
  | .condBranch cond _ _ => [cond]
  | .switch selector _ _ => [selector]
  | .ret none | .branch _ | .unreachable => []

namespace Method

/-- No name stands for two things. -/
structure Distinct (m : Method) : Prop where
  values : (m.params.map (·.value) ++ m.values.map (·.id)).Nodup
  blocks : (m.blocks.map (·.id)).Nodup

/-- What may be referred to after the values `before`. Allocations count from the start. -/
inductive InScope (m : Method) (before : List Value) : ValueId → Prop
  | param {p : Param} (h : p ∈ m.params) : InScope m before p.value
  | alloca {v : Value} (h : v ∈ m.values) (ha : v.kind.isAlloca = true) : InScope m before v.id
  | earlier {v : Value} (h : v ∈ before) (hn : v.kind.isNamed = true) : InScope m before v.id

def HasBlock (m : Method) (b : BlockId) : Prop := ∃ c ∈ m.blocks, c.id = b

end Method

/-! ## Values and terminators -/

/-- There is a conversion, and it finds the constants that it takes. -/
def Convertible (source target : Ty) (flags : ConvertFlags) : Prop :=
  match Conversion.between? source target flags with
  | some (.direct _) => True
  | some .fromBool => ∀ one, (target.unit? one).isSome
  | some (.toBool _) => (source.unit? false).isSome
  | none => False

/-- There is an instruction for the value. -/
def Value.Supported (p : Program) (m : Method) (v : Value) : Prop :=
  match v.kind with
  | .binary op _ _ flags => (op.opcode? v.type.scalarClass flags).isSome
  | .unary op _ => (op.opcode? v.type.scalarClass).isSome
  | .compare op lhs _ flags =>
    ∃ type, m.typeOf? lhs = some type ∧ (op.opcode? type.scalarClass flags).isSome
  | .convert source flags => ∃ type, m.typeOf? source = some type ∧ Convertible type v.type flags
  | .call (.method callee) _ _ => ∃ c ∈ p.methods, c.id = callee
  | .call (.intrinsic f) args flags => ∃ first type, args.head? = some first ∧
    m.typeOf? first = some type ∧ (f.form? type.scalarClass flags).isSome
  | .gridIndex _ dimension => dimension ≤ 2 ∧ ∃ width, v.type = .int width
  | .inlineAssembly .. => False
  | _ => True

structure Value.WellFormed (p : Program) (m : Method) (before : List Value) (v : Value) : Prop where
  operands : ∀ u ∈ v.kind.operands, m.InScope before u
  supported : v.Supported p m
  incoming : ∀ x ∈ v.kind.incoming, m.InScope m.values x.1 ∧ m.HasBlock x.2

/-- A work item's own allocation is a pointer to local memory, of a size that is known. -/
def Value.Placeable (v : Value) : Prop :=
  ∀ elem extent, v.kind = .alloca elem extent → v.type.space? ≠ some .shared →
    v.type.space? = some .local ∧ extent ≠ .dynamic

@[mk_iff]
structure Terminator.WellFormed (m : Method) (before : List Value) (x : Terminator) : Prop where
  operands : ∀ u ∈ x.operands, m.InScope before u
  targets : ∀ b ∈ x.successors, m.HasBlock b
  selector : ∀ selector cases default, x = .switch selector cases default →
    ∃ type width, m.typeOf? selector = some type ∧ type.scalarClass = .int width

/-! ## Methods and programs -/

structure Block.WellFormed (p : Program) (m : Method) (before : List Value) (b : Block) : Prop where
  values : InTurn (fun done v => v.WellFormed p m (before ++ done)) [] b.body
  terminator : b.terminator.WellFormed m (before ++ b.body)

structure Method.WellFormed (p : Program) (m : Method) : Prop where
  nonempty : m.blocks ≠ []
  storage : ∀ v ∈ m.values, v.Placeable
  blocks : InTurn (fun done b => b.WellFormed p m (done.flatMap (·.body))) [] m.blocks

structure Program.WellFormed (p : Program) (entry : EntryPoint) : Prop where
  present : ∃ m ∈ p.methods, m.id = entry.method
  kernel : ∀ m ∈ p.methods, m.id = entry.method → m.returnType = .void
  methods : ∀ m ∈ p.methods, m.WellFormed p

/-! ## Types of names -/

namespace Method

variable {m : Method} {before : List Value} {u : ValueId} {v : Value}

theorem isSome_typeOf?_iff : (m.typeOf? u).isSome ↔ u ∈ m.definitions.map Prod.fst := by
  rw [typeOf?, List.lookup_isSome_iff]
  simp

theorem InScope.typed (h : m.InScope before u) (hb : before ⊆ m.values) :
    (m.typeOf? u).isSome := by
  rw [isSome_typeOf?_iff]
  simp only [definitions, List.map_append, List.map_map, List.mem_append, List.mem_map]
  cases h with
  | param h => exact .inl ⟨_, h, rfl⟩
  | alloca h => exact .inr ⟨_, h, rfl⟩
  | earlier h => exact .inr ⟨_, hb h, rfl⟩

theorem Distinct.typeOf?_value (distinct : m.Distinct) (hv : v ∈ m.values) :
    m.typeOf? v.id = some v.type := by
  have keys : m.definitions.map Prod.fst = m.params.map (·.value) ++ m.values.map (·.id) := by
    simp [definitions, Function.comp_def]
  have hmem : (v.id, v.type) ∈ m.definitions.reverse := by
    rw [List.mem_reverse]
    exact List.mem_append_right _ (List.mem_map_of_mem hv)
  obtain ⟨before, after, hsplit⟩ := List.append_of_mem hmem
  have nodup : ((before ++ (v.id, v.type) :: after).map Prod.fst).Nodup := by
    rw [← hsplit, List.map_reverse, List.nodup_reverse, keys]
    exact distinct.values
  rw [typeOf?, List.lookup_eq_some_iff]
  refine ⟨before, after, hsplit, fun x hx => ?_⟩
  simp only [List.map_append, List.map_cons, List.nodup_append, List.mem_map, List.mem_cons] at nodup
  have := nodup.2.2 x.1 ⟨x, hx, rfl⟩ v.id (.inl rfl)
  exact bne_iff_ne.mpr this.symm

/-! ## What comes into scope -/

theorem inScope_append_iff :
    m.InScope (before ++ [v]) u ↔ m.InScope before u ∨ v.kind.isNamed = true ∧ u = v.id := by
  constructor
  · intro h
    cases h with
    | param h => exact .inl (.param h)
    | alloca h ha => exact .inl (.alloca h ha)
    | earlier h hn =>
      rcases List.mem_append.mp h with h | h
      · exact .inl (.earlier h hn)
      · rw [List.mem_singleton.mp h] at hn ⊢
        exact .inr ⟨hn, rfl⟩
  · rintro (h | ⟨hn, rfl⟩)
    · cases h with
      | param h => exact .param h
      | alloca h ha => exact .alloca h ha
      | earlier h hn => exact .earlier (List.mem_append_left _ h) hn
    · exact .earlier (by simp) hn

theorem Distinct.not_inScope (distinct : m.Distinct) {after : List Value}
    (hv : m.values = before ++ v :: after) (hk : v.kind.isAlloca = false) :
    ¬ m.InScope before v.id := by
  have nodup := distinct.values
  rw [List.nodup_append] at nodup
  obtain ⟨-, hvalues, apart⟩ := nodup
  have mem : v ∈ m.values := by simp [hv]
  intro h
  generalize hu : v.id = u at h
  cases h with
  | @param p h =>
    exact apart _ (List.mem_map_of_mem h) _ (List.mem_map_of_mem mem) hu.symm
  | @alloca w h ha =>
    obtain rfl := List.inj_on_of_nodup_map hvalues mem h hu
    rw [hk] at ha
    cases ha
  | @earlier w h =>
    rw [hv, List.map_append, List.map_cons, List.nodup_append] at hvalues
    exact hvalues.2.2 _ (List.mem_map_of_mem h) _ List.mem_cons_self hu.symm

end Method

end SpirvKernel
