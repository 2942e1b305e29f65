import SpirvKernel.Proofs.Emission.Shape
import SpirvKernel.Proofs.Module.ResultIds

/-!
# The grammar of modules

A module that compiles decodes without a rest, and its opcodes are laid out as the format asks:
capabilities, the import, the memory model, the entry point, execution modes, names, decorations, then
all declarations, then one function for each method.
-/

namespace SpirvKernel

open Instruction Emission

/-- The opcodes of a module for the program. -/
def Program.IsModule (p : Program) (ops : List Opcode) : Prop :=
  ∃ (capabilities modes names decorations : Nat) (declarations : List Opcode)
    (functions : List (List Opcode)),
    0 < capabilities ∧ (∀ op ∈ declarations, op.isDeclaration = true) ∧
      List.Forall₂ Method.IsFunction p.methods functions ∧
      ops = List.replicate capabilities .capability ++
        ([.extInstImport, .memoryModel, .entryPoint] ++ (List.replicate modes .executionMode ++
          (List.replicate names .name ++ (List.replicate decorations .decorate ++
            (declarations ++ functions.flatten)))))

/-! ## What the dictionary declares -/

namespace Dictionary

variable {d d₁ : Dictionary}

theorem Unnamed.opcode {i : Instruction} (h : d.Unnamed i) :
    ∃ op, i.opcode? = some op ∧ op.isDeclaration = true := by
  cases h <;> exact ⟨_, opcode?_of _ _, rfl⟩

theorem Step.opcodes (h : Step d d₁) :
    ∀ i ∈ d₁.declarations, i ∈ d.declarations ∨ ∃ op, i.opcode? = some op ∧ op.isDeclaration = true := by
  intro i hi
  cases h with
  | need | reserve => exact .inl hi
  | record _ made =>
    rcases List.mem_append.mp hi with hi | hi
    · exact .inl hi
    · rw [List.mem_singleton.mp hi]
      exact .inr (Declaration.instruction?_opcode made)
  | length =>
    rcases List.mem_append.mp hi with hi | hi
    · exact .inl hi
    · rw [List.mem_singleton.mp hi]
      exact .inr ⟨_, opcode?_of _ _, rfl⟩
  | unnamed made =>
    rcases List.mem_append.mp hi with hi | hi
    · exact .inl hi
    · rw [List.mem_singleton.mp hi]
      exact .inr made.opcode

theorem Steps.grown {supply : Supply} (h : Steps (new supply) d) :
    .addresses ∈ d.capabilities ∧
      ∀ i ∈ d.declarations, ∃ op, i.opcode? = some op ∧ op.isDeclaration = true := by
  induction h with
  | refl => exact ⟨rfl, by simp [new]⟩
  | tail _ hs ih =>
    refine ⟨hs.capabilities ih.1, fun i hi => ?_⟩
    rcases hs.opcodes i hi with hi | hop
    · exact ih.2 i hi
    · exact hop

end Dictionary

/-! ## The whole module -/

namespace Parts

variable {p : Program} {entry : EntryPoint} {c : Parts}

theorem opcode_capabilities (c : Parts) : ∀ i ∈ c.capabilities, i.opcode? = some .capability := by
  intro i hi
  obtain ⟨x, -, rfl⟩ := List.mem_map.mp hi
  exact opcode?_of _ _

theorem Of.opcode_names (h : c.Of p entry) : ∀ i ∈ c.names, i.opcode? = some .name := by
  intro i hi
  obtain ⟨x, hx, hi⟩ := List.mem_flatMap.mp hi
  obtain ⟨m, -, hof⟩ := h.product hx
  exact (hof.text.names i hi).opcode

theorem Of.opcode_modes (h : c.Of p entry) : ∀ i ∈ c.modes, i.opcode? = some .executionMode := by
  intro i hi
  obtain ⟨x, hx, hi⟩ := List.mem_flatMap.mp hi
  obtain ⟨m, -, hof⟩ := h.product hx
  exact (hof.text.modes i hi).opcode

theorem Of.opcode_annotations (h : c.Of p entry) :
    ∀ i ∈ c.dictionary.annotations, i.opcode? = some .decorate := by
  intro i hi
  obtain ⟨w, -, a, b, rfl⟩ := h.sound.annotations i hi
  exact opcode?_of _ _

theorem spell_functions {ms : List Method} {xs : List Product} {frame : Frame} {d : Dictionary}
    (h : List.Forall₂ (Product.Of frame d) ms xs) :
    ∃ functions : List (List Opcode), List.Forall₂ Method.IsFunction ms functions ∧
      Spell (xs.flatMap (·.text.functions)) functions.flatten := by
  induction h with
  | nil => exact ⟨[], .nil, spell_nil⟩
  | cons hof _ ih =>
    obtain ⟨ops, hops, hfunction⟩ := hof.text.isFunction
    obtain ⟨functions, hall, hspell⟩ := ih
    rw [hof.method] at hfunction
    exact ⟨ops :: functions, .cons hfunction hall, hops.append hspell⟩

theorem Of.isModule (h : c.Of p entry) :
    ∃ ops, Spell (c.instructions entry) ops ∧ p.IsModule ops := by
  obtain ⟨supply, steps⟩ := h.grown
  obtain ⟨haddresses, hdeclared⟩ := steps.grown
  have nonempty : 0 < c.capabilities.length := by
    have hmem : .addresses ∈ c.dictionary.capabilities.toList := CapabilitySet.mem_toList.mpr haddresses
    rw [Parts.capabilities, List.length_map]
    exact List.length_pos_of_mem hmem
  have single : Spell [c.extension, model, c.point entry] [.extInstImport, .memoryModel, .entryPoint] :=
    ((spell_singleton (opcode?_of _ _)).cons (opcode?_of _ _)).cons (opcode?_of _ _)
  obtain ⟨declarations, hdeclarations, hall⟩ := exists_spell hdeclared
  obtain ⟨functions, hfunctions, hspell⟩ := spell_functions h.products
  refine ⟨_, ?_, c.capabilities.length, c.modes.length, c.names.length,
    c.dictionary.annotations.length, declarations, functions, nonempty, hall, hfunctions, rfl⟩
  apply (spell_replicate c.opcode_capabilities).append
  apply single.append
  apply (spell_replicate h.opcode_modes).append
  apply (spell_replicate h.opcode_names).append
  apply (spell_replicate h.opcode_annotations).append
  exact hdeclarations.append hspell

end Parts

/-- The words of a module that compiles decode to opcodes that follow the grammar. -/
theorem compile_follows_grammar {o : Options} {p : Program} {entry : EntryPoint} {m : Module}
    (h : compile o p entry = .ok m) :
    ∃ is ops, decodeAll (m.words.drop Layout.headerSize) = (is, []) ∧
      is.map opcode? = ops.map some ∧ p.IsModule ops := by
  obtain ⟨c, hof, hwords, -⟩ := compile_ok h
  obtain ⟨ops, hspell, hmodule⟩ := hof.isModule
  refine ⟨c.instructions entry, ops, ?_, hspell, hmodule⟩
  rw [hwords]
  exact decodeAll_encodeAll _ hof.fits

theorem doubling_follows_grammar :
    ∃ m, compile {} doubling doublingEntry = .ok m ∧
      ∃ is ops, decodeAll (m.words.drop Layout.headerSize) = (is, []) ∧
        is.map opcode? = ops.map some ∧ doubling.IsModule ops := by
  obtain ⟨m, h, -⟩ : ∃ m, compile {} doubling doublingEntry = .ok m ∧ true = true :=
    exists_ok_of_any (by decide +kernel)
  exact ⟨m, h, compile_follows_grammar h⟩

end SpirvKernel
