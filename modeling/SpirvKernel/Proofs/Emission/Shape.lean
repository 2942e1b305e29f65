import SpirvKernel.Proofs.Emission.Method

/-!
# The shape of functions

The opcodes of a function follow a grammar: its first instruction, one instruction for each parameter,
one group for each block and its last instruction. A group starts with its label, ends with the only
terminator in it and computes in between.
-/

namespace SpirvKernel

/-! ## The grammar -/

def IsGroup (ops : List Opcode) : Prop :=
  ∃ inner last, ops = .label :: (inner ++ [last]) ∧ (∀ op ∈ inner, op.isInner = true) ∧
    last.isTerminator = true

/-- The opcodes of a function for the method. -/
def Method.IsFunction (m : Method) (ops : List Opcode) : Prop :=
  ∃ groups : List (List Opcode), groups.length = m.blocks.length ∧ (∀ g ∈ groups, IsGroup g) ∧
    ops = .function :: (List.replicate m.params.length .functionParameter ++
      (groups.flatten ++ [.functionEnd]))

theorem not_isInner {op : Opcode} (h : op ∈ [.function, .functionEnd]) :
    op.isInner = false ∧ op.isTerminator = false ∧ op ≠ .label := by
  simp only [List.mem_cons, List.not_mem_nil, or_false] at h
  rcases h with rfl | rfl <;> exact ⟨rfl, rfl, nofun⟩

theorem IsGroup.not_mem {ops : List Opcode} (h : IsGroup ops) {op : Opcode}
    (hop : op ∈ [.function, .functionEnd]) : op ∉ ops := by
  obtain ⟨hinner, hterminator, hlabel⟩ := not_isInner hop
  obtain ⟨inner, last, rfl, hall, hlast⟩ := h
  intro hmem
  simp only [List.mem_cons, List.mem_append, List.not_mem_nil, or_false] at hmem
  rcases hmem with rfl | hmem | rfl
  · exact hlabel rfl
  · rw [hall op hmem] at hinner
    cases hinner
  · rw [hlast] at hterminator
    cases hterminator

/-- One function from its first instruction to its last. -/
structure IsSingleFunction (ops : List Opcode) : Prop where
  first : ops.head? = some .function
  opened : ops.count .function = 1
  last : ops.getLast? = some .functionEnd
  closed : ops.count .functionEnd = 1

theorem Method.IsFunction.single {m : Method} {ops : List Opcode} (h : m.IsFunction ops) :
    IsSingleFunction ops := by
  obtain ⟨groups, -, hgroups, rfl⟩ := h
  have none : ∀ op ∈ [Opcode.function, .functionEnd], groups.flatten.count op = 0 := by
    intro op hop
    rw [List.count_eq_zero, List.mem_flatten]
    rintro ⟨g, hg, hmem⟩
    exact (hgroups g hg).not_mem hop hmem
  have hopen := none .function (by simp)
  have hclose := none .functionEnd (by simp)
  constructor
  · rfl
  · simp [List.count_replicate, hopen]
  · rw [List.getLast?_cons, ← List.append_assoc, List.getLast?_concat]
    rfl
  · simp [List.count_replicate, hclose]

/-! ## Opcodes of instructions -/

namespace Instruction

/-- The instructions have the opcodes `ops`. -/
def Spell (is : List Instruction) (ops : List Opcode) : Prop := is.map opcode? = ops.map some

theorem Spell.append {is js : List Instruction} {ops ops' : List Opcode} (hi : Spell is ops)
    (hj : Spell js ops') : Spell (is ++ js) (ops ++ ops') := by
  unfold Spell at *
  rw [List.map_append, List.map_append, hi, hj]

theorem Spell.cons {i : Instruction} {is : List Instruction} {op : Opcode} {ops : List Opcode}
    (hi : i.opcode? = some op) (his : Spell is ops) : Spell (i :: is) (op :: ops) := by
  unfold Spell at *
  rw [List.map_cons, List.map_cons, hi, his]

theorem spell_nil : Spell [] [] := rfl

theorem spell_singleton {i : Instruction} {op : Opcode} (h : i.opcode? = some op) : Spell [i] [op] :=
  spell_nil.cons h

theorem exists_spell {is : List Instruction} {P : Opcode → Prop}
    (h : ∀ i ∈ is, ∃ op, i.opcode? = some op ∧ P op) : ∃ ops, Spell is ops ∧ ∀ op ∈ ops, P op := by
  induction is with
  | nil => exact ⟨[], spell_nil, by simp⟩
  | cons i is ih =>
    obtain ⟨op, hop, hP⟩ := h i List.mem_cons_self
    obtain ⟨ops, hops, hall⟩ := ih fun j hj => h j (List.mem_cons_of_mem i hj)
    exact ⟨op :: ops, hops.cons hop, by simpa using ⟨hP, hall⟩⟩

theorem spell_replicate {is : List Instruction} {op : Opcode} (h : ∀ i ∈ is, i.opcode? = some op) :
    Spell is (List.replicate is.length op) := by
  unfold Spell
  rw [List.map_replicate, List.eq_replicate_iff]
  simpa using h

theorem isInner_iff {i : Instruction} :
    i.isInner = true ↔ ∃ op, i.opcode? = some op ∧ op.isInner = true := by
  simp [isInner, Option.any_eq_true]

end Instruction

/-! ## Values and terminators -/

namespace Emission

open Instruction

variable {t : Task} {d : Dictionary} {T : IdTable}

theorem Computes.inner {type : Ty} {kind : ValueKind} {op : Opcode} {ws : List Word}
    {before : List Instruction} (h : Computes t d T type kind op ws before) :
    op.isInner = true ∧ ∀ i ∈ before, i.isInner = true := by
  cases h with
  | binary select => exact ⟨Opcode.isInner_computation (Opcode.OfOperator.binary select).computation, nofun⟩
  | unary select => exact ⟨Opcode.isInner_computation (Opcode.OfOperator.unary select).computation, nofun⟩
  | compare _ select =>
    exact ⟨Opcode.isInner_computation (Opcode.OfOperator.compare select).computation, nofun⟩
  | convert _ select =>
    exact ⟨Opcode.isInner_computation (Conversion.computation_of_between? select rfl), nofun⟩
  | toBool _ select =>
    exact ⟨Opcode.isInner_computation (Conversion.computation_of_between? select rfl), nofun⟩
  | callCore _ select =>
    exact ⟨Opcode.isInner_computation (Opcode.OfOperator.intrinsic select).computation, nofun⟩
  | gridIndex | narrowGridIndex => exact ⟨rfl, by simp [Opcode.isInner, Opcode.isTerminator,
      Opcode.isDeclaration]⟩
  | undef | fromBool | select | load | elementAddress | fieldAddress | extractField | callMethod
  | callExtended | phi => exact ⟨rfl, nofun⟩

theorem Lowers.inner {v : Value} {is : List Instruction} (h : Lowers t d T v is) :
    ∀ i ∈ is, i.isInner = true := by
  cases h with
  | constant | alloca => nofun
  | store | barrier => simp [Opcode.isInner, Opcode.isTerminator, Opcode.isDeclaration]
  | computed how =>
    obtain ⟨hop, hbefore⟩ := how.inner
    intro i hi
    rcases List.mem_append.mp hi with hi | hi
    · exact hbefore i hi
    · rw [List.mem_singleton.mp hi, isInner_of]
      exact hop

theorem LowersTerminator.isTerminator {x : Terminator} {i : Instruction} (h : LowersTerminator t T x i) :
    ∃ op, i.opcode? = some op ∧ op.isTerminator = true := by
  cases h <;> exact ⟨_, opcode?_of _ _, rfl⟩

/-! ## Blocks and functions -/

theorem Code.Of.group {b : Block} {c : Code} (h : c.Of t d T b) :
    ∃ ops, Spell c.toList ops ∧ IsGroup ops := by
  have hinner : ∀ i ∈ c.inner, ∃ op, i.opcode? = some op ∧ op.isInner = true := by
    intro i hi
    rw [← isInner_iff]
    rcases List.mem_append.mp hi with hi | hi
    · exact h.storage i hi
    · obtain ⟨is, his, hi⟩ := List.mem_flatten.mp hi
      obtain ⟨v, -, lowers⟩ := exists_left_of_forall₂ h.values his
      exact lowers.inner i hi
  obtain ⟨inner, hspell, hall⟩ := exists_spell hinner
  obtain ⟨last, hlast, hterminator⟩ := h.last.isTerminator
  refine ⟨.label :: (inner ++ [last]), ?_, inner, last, rfl, hall, hterminator⟩
  exact (hspell.append (spell_singleton hlast)).cons (opcode?_of _ _)

theorem groups_of_codes {bs : List Block} {cs : List Code}
    (h : List.Forall₂ (Code.Of t d T) bs cs) :
    ∃ groups : List (List Opcode), groups.length = bs.length ∧ (∀ g ∈ groups, IsGroup g) ∧
      Spell (cs.flatMap Code.toList) groups.flatten := by
  induction h with
  | nil => exact ⟨[], rfl, by simp, spell_nil⟩
  | cons code _ ih =>
    obtain ⟨ops, hops, hgroup⟩ := code.group
    obtain ⟨groups, hlength, hgroups, hspell⟩ := ih
    refine ⟨ops :: groups, by simp [hlength], ?_, hops.append hspell⟩
    simpa using ⟨hgroup, hgroups⟩

theorem Text.Of.isFunction {r : IdRange} {w : Work} {x : Text} (h : x.Of t d r w) :
    ∃ ops, Spell x.functions ops ∧ t.method.IsFunction ops := by
  obtain ⟨type, signature, wss, hparams, hhead⟩ := h.head
  obtain ⟨groups, hlength, hgroups, hspell⟩ := groups_of_codes h.codes
  have params : Spell (wss.map (Instruction.of .functionParameter))
      (List.replicate t.method.params.length .functionParameter) := by
    rw [← hparams, ← List.length_map (f := Instruction.of .functionParameter)]
    apply spell_replicate
    simp
  refine ⟨_, ?_, groups, hlength, hgroups, rfl⟩
  rw [Text.functions, hhead]
  apply Spell.cons (opcode?_of _ _)
  exact params.append (hspell.append (spell_singleton (opcode?_of _ _)))

end Emission

end SpirvKernel
