import SpirvKernel.Proofs.Dictionary.Capabilities
import SpirvKernel.Proofs.Module.Requests
import SpirvKernel.Proofs.Module.Sections

/-!
# The capabilities of a module

A module lists its capabilities once each and in order, and every declaration that calls for one finds
it in the list.
-/

namespace SpirvKernel

open Instruction Emission

theorem Dictionary.kept_licensed : Kept fun d d₁ => d.Licensed → d₁.Licensed :=
  ⟨fun _ => id, fun _ _ _ h h' hd => h' (h hd), fun r _ d => (keepsToDemands_perform r d).licensed⟩

theorem Dictionary.Licensed.answers {rs : List Request} {d d₁ : Dictionary} {ids : List Id}
    (hd : d.Licensed) (answered : Answers rs d ids d₁) : d₁.Licensed := by
  rw [← (performAll_of_mapM answered).2]
  exact performAll_licensed rs hd

theorem Build.functions_licensed {p : Program} {debugNames : Bool} {frame : Frame} {entry : EntryPoint}
    {supply : Supply} {b : Build}
    (hframe : Frame.ofProgram p debugNames Supply.new = (.ok frame, supply))
    (run : Build.functions frame entry p (.new frame supply) = (.ok (), b)) :
    b.dictionary.Licensed := by
  obtain ⟨d, ids, headed, answered⟩ :=
    functions_requests Dictionary.kept_licensed (fun _ _ _ hd => hd) hframe run
  exact (headed (Dictionary.licensed_new supply)).answers answered

theorem CapabilitySet.ascending (s : CapabilitySet) :
    (s.toList.map Capability.number).Pairwise (· < ·) := by
  have all : (Capability.all.map Capability.number).Pairwise (· < ·) := by decide
  exact all.sublist (List.filter_sublist.map _)

namespace Parts

variable {p : Program} {entry : EntryPoint} {c : Parts}

theorem Of.operands_capabilities (h : c.Of p entry) :
    ((c.instructions entry).filter (isA .capability)).flatMap (·.operands) =
      c.dictionary.capabilities.toList.map Capability.number := by
  have found : (c.instructions entry).filter (isA .capability) = c.capabilities := by
    rw [h.filter_instructions, h.filter_declarations rfl, h.filter_functions rfl]
    simp
  rw [found, capabilities, List.flatMap_map, List.map_eq_flatMap]
  rfl

theorem Of.demands (h : c.Of p entry) {i : Instruction} (hi : i ∈ c.instructions entry) {x : Capability}
    (hx : i.capability? = some x) : c.dictionary.Demands x := by
  obtain ⟨op, hop, hdeclares, inside⟩ :
      ∃ op, i.opcode? = some op ∧ op.isDeclaration = true ∧ op.inFunction = false := by
    unfold capability? at hx
    split at hx
    · exact ⟨.typeInt, by assumption, rfl, rfl⟩
    · exact ⟨.typeFloat, by assumption, rfl, rfl⟩
    · exact ⟨.typePointer, by assumption, rfl, rfl⟩
    · cases hx
  rw [instructions_eq, List.mem_append, List.mem_append] at hi
  rcases hi with hi | hi | hi
  · obtain ⟨op', hop', other, -⟩ := h.opcode_front i hi
    obtain rfl : op = op' := Option.some.inj (hop.symm.trans hop')
    rw [hdeclares] at other
    cases other
  · exact ⟨i, hi, hx⟩
  · obtain ⟨op', hop', other⟩ := h.inFunction i hi
    obtain rfl : op = op' := Option.some.inj (hop.symm.trans hop')
    rw [inside] at other
    cases other

end Parts

/-- The capabilities are those that declarations call for. -/
theorem capabilities_exact :
    (∀ (first : Nat) (rs : List Dictionary.Request),
      let run := Dictionary.performAll rs (.new (.startingAt first))
      .addresses ∈ run.2.capabilities ∧ .kernel ∈ run.2.capabilities ∧
      (∀ i ∈ run.2.declarations, ∀ c, i.capability? = some c → c ∈ run.2.capabilities) ∧
      (Dictionary.allAnswered run.1 → ∀ c ∈ run.2.capabilities,
        c = .addresses ∨ c = .kernel ∨ ∃ i ∈ run.2.declarations, i.capability? = some c)) ∧
    ∀ (o : Options) (p : Program) (entry : EntryPoint) (m : Module), compile o p entry = .ok m →
      ∃ is, decodeAll (m.words.drop Layout.headerSize) = (is, []) ∧
        ((is.filter (isA .capability)).flatMap (·.operands)).Pairwise (· < ·) ∧
        ∀ i ∈ is, ∀ c, i.capability? = some c → .of .capability [c.number] ∈ is := by
  constructor
  · intro first rs run
    have steps := Dictionary.performAll_steps rs (.new (.startingAt first))
    have licensed := Dictionary.performAll_licensed rs (Dictionary.licensed_new (.startingAt first))
    refine ⟨steps.capabilities rfl, steps.capabilities rfl,
      fun i hi c hc => licensed c ⟨i, hi, hc⟩, fun answered c hc => ?_⟩
    -- A capability was there at first, or a declaration calls for it.
    rcases (Dictionary.performAll_earned answered).capabilities c hc with base | demanded
    · have : c = .addresses ∨ c = .kernel := by
        cases c <;> first | exact .inl rfl | exact .inr rfl | cases base
      exact this.imp_right .inl
    · exact .inr (.inr demanded)
  · -- In a module only the declarations call for capabilities.
    intro o p entry m h
    obtain ⟨c, supply, hof, hframe, -, ⟨b, run, hd, -⟩, rfl⟩ := compile_parts h
    have licensed : c.dictionary.Licensed := hd ▸ Build.functions_licensed hframe run
    refine ⟨c.instructions entry, hof.decode _ _ _, ?_, fun i hi x hx => ?_⟩
    · rw [hof.operands_capabilities]
      exact CapabilitySet.ascending _
    · have noted := licensed x (hof.demands hi hx)
      exact List.mem_append_left _ (List.mem_map_of_mem (CapabilitySet.mem_toList.mpr noted))

/-- Parameters and a value of unusual widths behind a generic pointer. -/
def widths : Program where
  methods := [
    { id := ⟨0⟩, name := "widths", returnType := .void
      params := [⟨⟨0⟩, .pointer (.int .i8) .generic⟩, ⟨⟨1⟩, .float .f16⟩]
      blocks := [
        { id := ⟨0⟩, body := [⟨⟨2⟩, .int .i64, .constant (.int .i64 7)⟩], terminator := .ret none }] }]

def widthsEntry : EntryPoint := { method := ⟨0⟩, name := "widths", rank := .one, groupSize := none }

/-- The second request fails for want of identifiers, with its capability noted. -/
def starved : List (Dictionary.Request × Except Fault Id) × Dictionary :=
  Dictionary.performAll [.type (.int .i64), .type (.float .f64)]
    (.new (.startingAt (Supply.limit - 1)))

theorem widths_capabilities :
    (starved.2.capabilities.toList = [.addresses, .kernel, .float64, .int64] ∧
      ∀ i ∈ starved.2.declarations, ∀ c, i.capability? = some c → c ∈ starved.2.capabilities) ∧
    (let run := Dictionary.performAll Dictionary.gridRequests (.new (.startingAt 6))
     Dictionary.allAnswered run.1 ∧ ∀ c ∈ run.2.capabilities,
        c = .addresses ∨ c = .kernel ∨ ∃ i ∈ run.2.declarations, i.capability? = some c) ∧
    ∃ m, compile {} widths widthsEntry = .ok m ∧
      ∃ is, decodeAll (m.words.drop Layout.headerSize) = (is, []) ∧
        ((is.filter (isA .capability)).flatMap (·.operands)).Pairwise (· < ·) ∧
        ∀ i ∈ is, ∀ c, i.capability? = some c → .of .capability [c.number] ∈ is := by
  have answered : Dictionary.allAnswered
      (Dictionary.performAll Dictionary.gridRequests (.new (.startingAt 6))).1 := by decide +kernel
  obtain ⟨m, h, -⟩ : ∃ m, compile {} widths widthsEntry = .ok m ∧ true = true :=
    exists_ok_of_any (by decide +kernel)
  refine ⟨⟨by decide +kernel, (capabilities_exact.1 _ _).2.2.1⟩, ⟨answered, ?_⟩, m, h, ?_⟩
  · exact (capabilities_exact.1 6 _).2.2.2 answered
  · exact capabilities_exact.2 {} widths widthsEntry m h

end SpirvKernel
