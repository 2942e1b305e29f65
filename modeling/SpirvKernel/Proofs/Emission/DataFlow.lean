import SpirvKernel.Proofs.Module.Reservation

/-!
# Data flow

Emission works in two passes: it writes instructions while names are still missing and fills these in
at the end. The output is what a translation in one pass with the final names would give: each value
that is computed has one instruction, whose operands are the final names of the value's operands in
order, and each constant is the constant of the dictionary.
-/

namespace SpirvKernel

open Instruction

/-- Whether a value is computed by an instruction of its own. -/
def ValueKind.isComputed : ValueKind → Bool
  | .constant _ | .alloca .. | .store .. | .barrier => false
  | _ => true

namespace Emission

variable {t : Task} {d : Dictionary} {T : IdTable} {v : Value}

theorem isTyped_computation {op : Opcode} (h : op.format false = .computation) :
    op.isTyped = true := (Opcode.reads_computation h []).typed

theorem Computes.isTyped {type : Ty} {kind : ValueKind} {op : Opcode} {ws : List Word}
    {before : List Instruction} (h : Computes t d T type kind op ws before) : op.isTyped = true := by
  cases h with
  | binary select => exact isTyped_computation (Opcode.OfOperator.binary select).computation
  | unary select => exact isTyped_computation (Opcode.OfOperator.unary select).computation
  | compare _ select => exact isTyped_computation (Opcode.OfOperator.compare select).computation
  | convert _ select => exact isTyped_computation (Conversion.computation_of_between? select rfl)
  | toBool _ select => exact isTyped_computation (Conversion.computation_of_between? select rfl)
  | callCore _ select => exact isTyped_computation (Opcode.OfOperator.intrinsic select).computation
  | _ => rfl

theorem Lowers.computed_of {is : List Instruction} (h : Lowers t d T v is)
    (hv : v.kind.isComputed = true) :
    ∃ op ws before type id, Computes t d T v.type v.kind op ws before ∧
      d.get? (.ofType v.type) = some type ∧ T.get? (.value v.id) = some id ∧
      is = before ++ [.of op (type.word :: id.word :: ws)] := by
  cases h with
  | constant kind | alloca kind | store kind | barrier kind => rw [kind] at hv; cases hv
  | computed how hasType named => exact ⟨_, _, _, _, _, how, hasType, named, rfl⟩

theorem Lowers.constant_of {is : List Instruction} {c : Constant} (h : Lowers t d T v is)
    (hv : v.kind = .constant c) :
    ∃ id, T.get? (.value v.id) = some id ∧ d.get? (.constant c.truncate) = some id := by
  cases h with
  | constant kind named declared =>
    obtain rfl := ValueKind.constant.inj (hv.symm.trans kind)
    exact ⟨_, named, declared⟩
  | alloca kind | store kind | barrier kind => cases hv.symm.trans kind
  | computed how => rw [hv] at how; cases how

theorem Text.Of.lowers {r : IdRange} {w : Work} {x : Text} (h : Text.Of t d r w x)
    (hv : v ∈ t.method.values) : ∃ is, Lowers t d w.table v is ∧ is <:+: x.functions := by
  obtain ⟨b, hb, hv⟩ := List.mem_flatMap.mp hv
  obtain ⟨c, hc, code⟩ := exists_right_of_forall₂ h.codes hb
  obtain ⟨is, his, lowers⟩ := exists_right_of_forall₂ code.values hv
  have hvalues : is <:+: c.inner :=
    (List.infix_of_mem_flatten his).trans (List.suffix_append _ _).isInfix
  have hcode : c.inner <:+: c.toList := ⟨[Code.opening c.label], [c.last], by simp [Code.toList]⟩
  have hcodes : c.toList <:+: x.codes.flatMap Code.toList :=
    List.infix_of_mem_flatten (List.mem_map_of_mem hc)
  have hwhole : x.codes.flatMap Code.toList <:+: x.functions :=
    ⟨x.head, [.of .functionEnd []], by simp [Text.functions]⟩
  exact ⟨is, lowers, hvalues.trans (hcode.trans (hcodes.trans hwhole))⟩

/-- Every value is computed by the one instruction for its kind, from its operands. -/
theorem values_translated {p : Program} {debugNames : Bool} {frame : Frame} {m : Method}
    {storage : Storage} {entry : Option EntryPoint} {s₀ s s' : Supply} {t : Task} {w : Work}
    {d₁ d₂ : Dictionary} {g₁ g₂ : Layout Instruction} {s₁ s₂ : Emission}
    (hframe : Frame.ofProgram p debugNames Supply.new = (.ok frame, s₀)) (hlater : s₀.next ≤ s.next)
    (hstart : Task.start frame m storage entry s = (.ok (t, w), s'))
    (hheader : header t ⟨d₁, g₁, w⟩ = (.ok (), s₁))
    (hbody : body t ⟨d₂, g₂, s₁.work⟩ = (.ok (), s₂)) :
    (∀ v ∈ m.values, v.kind.isComputed = true → ∃ id type op operands before,
      s₂.work.table.get? (.value v.id) = some id ∧
      Dictionary.typeId v.type s₂.dictionary = (.ok type, s₂.dictionary) ∧
      Computes t s₂.dictionary s₂.work.table v.type v.kind op operands before ∧
      s₂.work.output.functions.filter (·.result? = some id.word) =
        [.of op (type.word :: id.word :: operands)] ∧
      before ++ [.of op (type.word :: id.word :: operands)] <:+: s₂.work.output.functions) ∧
    ∀ v ∈ m.values, ∀ c, v.kind = .constant c → ∃ id,
      s₂.work.table.get? (.value v.id) = some id ∧
      Dictionary.constantId c s₂.dictionary = (.ok id, s₂.dictionary) := by
  obtain ⟨rfl, -, r, x, text, nodup⟩ := generated_text hframe hlater hstart hheader hbody
  have houtput : s₂.work.output.functions = x.functions := by rw [text.output]
  rw [houtput]
  refine ⟨fun v hv computed => ?_, fun v hv c hc => ?_⟩
  · obtain ⟨is, lowers, hpiece⟩ := text.lowers hv
    obtain ⟨op, ws, before, type, id, how, hasType, named, rfl⟩ := lowers.computed_of computed
    refine ⟨id, type, op, ws, before, named, Dictionary.typeId_known hasType, how, ?_, hpiece⟩
    -- Results are distinct, so no other instruction has this one.
    refine filter_result nodup (hpiece.subset ?_) (result?_of_typed? (typed?_of how.isTyped _ _ _))
    exact List.mem_append_right _ (List.mem_singleton.mpr rfl)
  · obtain ⟨is, lowers, -⟩ := text.lowers hv
    obtain ⟨id, named, declared⟩ := lowers.constant_of hc
    exact ⟨id, named, Dictionary.constantId_known declared⟩

/-- A loop that adds up an index, whose phi refers to a value that is computed after it. -/
def scan : Method where
  id := ⟨0⟩
  name := "scan"
  params := [⟨⟨0⟩, .pointer .i32 .global⟩]
  returnType := .void
  blocks := [
    { id := ⟨4⟩
      body := [⟨⟨1⟩, .i32, .gridIndex .globalIndex 0⟩, ⟨⟨2⟩, .i32, .constant (.ofWord 0)⟩]
      terminator := .branch ⟨9⟩ },
    { id := ⟨9⟩
      body := [⟨⟨3⟩, .i32, .phi [(⟨2⟩, ⟨4⟩), (⟨4⟩, ⟨9⟩)]⟩,
        ⟨⟨4⟩, .i32, .binary .add ⟨3⟩ ⟨1⟩ .none⟩, ⟨⟨5⟩, .bool, .compare .lt ⟨4⟩ ⟨1⟩ .none⟩]
      terminator := .condBranch ⟨5⟩ ⟨9⟩ ⟨2⟩ },
    { id := ⟨2⟩
      body := [⟨⟨6⟩, .pointer .i32 .global, .elementAddress ⟨0⟩ ⟨4⟩⟩, ⟨⟨7⟩, .void, .store ⟨6⟩ ⟨3⟩⟩]
      terminator := .ret none }]

def scanTask : Task := ⟨⟨⟨[(⟨0⟩, ⟨2⟩)]⟩, ⟨1⟩, true⟩, scan, .ofMethod scan, ⟨2⟩, none⟩

theorem scan_values_translated :
    Frame.ofProgram ⟨[scan]⟩ true Supply.new = (.ok scanTask.frame, ⟨3⟩) ∧
    Task.start scanTask.frame scan (.ofMethod scan) none ⟨3⟩ =
      (.ok (scanTask, start ⟨3, 29⟩), ⟨29⟩) ∧
    ∃ s₁ s₂, header scanTask ⟨.new ⟨29⟩, .empty, start ⟨3, 29⟩⟩ = (.ok (), s₁) ∧
      body scanTask ⟨s₁.dictionary, s₁.target, s₁.work⟩ = (.ok (), s₂) ∧
      (∀ v ∈ scan.values, v.kind.isComputed = true → ∃ id type op operands before,
        s₂.work.table.get? (.value v.id) = some id ∧
        Dictionary.typeId v.type s₂.dictionary = (.ok type, s₂.dictionary) ∧
        Computes scanTask s₂.dictionary s₂.work.table v.type v.kind op operands before ∧
        s₂.work.output.functions.filter (·.result? = some id.word) =
          [.of op (type.word :: id.word :: operands)] ∧
        before ++ [.of op (type.word :: id.word :: operands)] <:+: s₂.work.output.functions) ∧
      ∀ v ∈ scan.values, ∀ c, v.kind = .constant c → ∃ id,
        s₂.work.table.get? (.value v.id) = some id ∧
        Dictionary.constantId c s₂.dictionary = (.ok id, s₂.dictionary) := by
  have hframe : Frame.ofProgram ⟨[scan]⟩ true Supply.new = (.ok scanTask.frame, ⟨3⟩) := rfl
  have hstart : Task.start scanTask.frame scan (.ofMethod scan) none ⟨3⟩ =
      (.ok (scanTask, start ⟨3, 29⟩), ⟨29⟩) := rfl
  obtain ⟨s₁, s₂, hheader, hbody⟩ := Attempt.exists_runs_of_isSome (x := header scanTask)
    (y := body scanTask) (s := ⟨.new ⟨29⟩, .empty, start ⟨3, 29⟩⟩) (by decide +kernel)
  exact ⟨hframe, hstart, s₁, s₂, hheader, hbody,
    values_translated hframe (Nat.le_refl 3) hstart hheader hbody⟩

end Emission

end SpirvKernel
