import SpirvKernel.Proofs.Emission.Memory
import SpirvKernel.Proofs.Module.FunctionIds

/-!
# The entry point of a module

The entry point gives the function of the entry method, the name of the kernel and the input variables
of the module. The name ends where a reader finds the first zero byte. So a name without U+0000 reads
back, and the variables after it do. No other name does, and yet the module is written.
-/

namespace SpirvKernel

open Instruction Attempt Emission

/-! ## Input variables -/

namespace Instruction

/-- The input variables of a module, in their order. -/
def inputs (is : List Instruction) : List Word := results (is.filter (isVariableIn .input))

end Instruction

namespace Parts

variable {p : Program} {entry : EntryPoint} {c : Parts}

theorem Of.inputs (h : c.Of p entry) :
    inputs (c.instructions entry) = c.dictionary.interface.map Id.word := by
  have front : (c.front entry).filter (isVariableIn .input) = [] := by
    rw [List.filter_eq_nil_iff]
    intro i hi
    obtain ⟨op, hop, hdeclares, -⟩ := h.opcode_front i hi
    have other : i.opcode? ≠ some .variable := by
      rintro heq
      obtain rfl := Option.some.inj (hop.symm.trans heq)
      cases hdeclares
    simp [not_isVariableIn other]
  have functions : c.functions.filter (isVariableIn .input) = [] := by
    rw [List.filter_eq_nil_iff]
    intro i hi
    obtain ⟨x, hx, hi⟩ := List.mem_flatMap.mp hi
    obtain ⟨m, -, hof⟩ := h.product hx
    have other : StorageClass.input ≠ .function := nofun
    simp [hof.text.isVariableIn other i hi]
  obtain ⟨supply, steps⟩ := h.grown
  rw [Instruction.inputs, instructions_eq, List.filter_append, List.filter_append, front, functions,
    List.nil_append, List.append_nil]
  exact steps.listed

theorem Of.nodup_inputs (h : c.Of p entry) : (Instruction.inputs (c.instructions entry)).Nodup := by
  obtain ⟨supply, steps⟩ := h.grown
  rw [h.inputs, ← steps.listed]
  exact List.Nodup.sublist (List.filter_sublist.filterMap _) (List.Nodup.of_append_left h.apart.nodup)

end Parts

/-- The entry point reads back whole exactly if its name holds no U+0000. -/
theorem compile_entryPoint_reads_back_iff {o : Options} {p : Program} {entry : EntryPoint} {m : Module}
    (h : compile o p entry = .ok m) :
    ∃ is kernel ws, decodeAll (m.words.drop Layout.headerSize) = (is, []) ∧
      is.filter (isA .entryPoint) = [.of .entryPoint (executionModel :: kernel :: ws)] ∧
      (functionIds is).length = p.methods.length ∧ entry.method ∈ p.methods.map (·.id) ∧
      (∀ z ∈ p.methods.zip (functionIds is), z.1.id = entry.method → z.2 = kernel) ∧
      ws = Literal.encode entry.name ++ inputs is ∧ (inputs is).Nodup ∧
      ∃ text used, Literal.decode? ws = some (text, used) ∧
        text.toList = entry.name.toList.takeWhile (· ≠ '\x00') ∧
        (text = entry.name ∧ ws.drop used = inputs is ↔ '\x00' ∉ entry.name.toList) := by
  obtain ⟨c, supply, hof, -, -, -, rfl⟩ := compile_parts h
  have ids := hof.functionIds.trans (Parts.number_of_products hof.products)
  have kernel : c.number entry.method = c.kernel.word := by
    rw [Parts.number, hof.kernel]
    rfl
  refine ⟨c.instructions entry, c.kernel.word, Literal.encode entry.name ++
    inputs (c.instructions entry), hof.decode _ _ _, ?_, ?_, ?_, fun z hz hid => ?_, rfl,
    hof.nodup_inputs, _, _, Literal.decode?_encode_append _ _, String.toList_ofList .., ?_⟩
  · rw [hof.filter_instructions, hof.filter_declarations rfl, hof.filter_functions rfl, hof.inputs]
    simp [Parts.point]
  · rw [ids, List.length_map]
  · -- Without the entry method the run stops before anything is built.
    obtain ⟨found, -⟩ := compile_ok_iff.mp h
    obtain ⟨a, ha, hid⟩ := List.find?_isSome.mp (Option.isNone_eq_false_iff.mp found)
    exact List.mem_map.mpr ⟨a, ha, of_decide_eq_true hid⟩
  · rw [ids, ← List.map_id p.methods, List.map_map, List.zip_map'] at hz
    obtain ⟨a, -, rfl⟩ := List.mem_map.mp hz
    rw [← kernel, ← hid]
    rfl
  · constructor
    · -- The name was read up to U+0000, so it cannot hold one.
      rintro ⟨whole, -⟩ hzero
      have kept := congrArg String.toList whole
      rw [String.toList_ofList, List.takeWhile_eq_self_iff] at kept
      simpa using kept _ hzero
    · intro free
      have whole : entry.name.toList.takeWhile (· ≠ '\x00') = entry.name.toList := by
        rw [List.takeWhile_eq_self_iff]
        intro a ha
        exact decide_eq_true fun heq => free (heq ▸ ha)
      rw [whole, String.ofList_toList]
      exact ⟨rfl, List.drop_left ..⟩

/-- A kernel that reads one input variable, under a name with U+0000 in it. -/
def broken : Program where
  methods := [
    { id := ⟨0⟩, name := "k", params := [], returnType := .void
      blocks := [{ id := ⟨0⟩, body := [⟨⟨0⟩, .i64, .gridIndex .globalIndex 0⟩], terminator := .ret none }] }]

def brokenEntry : EntryPoint where
  method := ⟨0⟩
  name := "a\x00bcd"
  rank := .one
  groupSize := none

theorem broken_entryPoint_misread : ∃ m, compile {} broken brokenEntry = .ok m ∧
    ∃ is kernel ws, decodeAll (m.words.drop Layout.headerSize) = (is, []) ∧
      is.filter (isA .entryPoint) = [.of .entryPoint (executionModel :: kernel :: ws)] ∧
      ∃ text used, Literal.decode? ws = some (text, used) ∧ text = "a" ∧ text ≠ brokenEntry.name ∧
        ws.drop used ≠ inputs is := by
  obtain ⟨m, h, -⟩ : ∃ m, compile {} broken brokenEntry = .ok m ∧ true = true :=
    exists_ok_of_any (by decide +kernel)
  obtain ⟨is, kernel, ws, hdecode, hpoint, -, -, -, hws, -, text, used, hread, htext, -⟩ :=
    compile_entryPoint_reads_back_iff h
  have short : text = "a" := by
    rw [← String.toList_inj, htext]
    decide
  refine ⟨m, h, is, kernel, ws, hdecode, hpoint, text, used, hread, short, short ▸ by decide, ?_⟩
  -- The name takes two words, of which only the first is read.
  have hused : used = 1 := by
    rw [hws, Literal.decode?_encode_append, Option.some.injEq, Prod.mk.injEq] at hread
    exact hread.2.symm.trans (by decide)
  have hlength : (Literal.encode brokenEntry.name).length = 2 := by decide
  intro heq
  have := congrArg List.length heq
  rw [hws, hused, List.length_drop, List.length_append, hlength] at this
  omega

end SpirvKernel
