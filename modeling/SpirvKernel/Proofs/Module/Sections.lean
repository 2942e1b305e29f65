import SpirvKernel.Proofs.Module.Grammar
import SpirvKernel.Proofs.Module.References

/-!
# Where the instructions of a module stand

Each kind of instruction has its place in a module. What a reader finds by looking for an opcode in the
whole module is what one of its parts holds.
-/

namespace SpirvKernel

open Instruction Emission

/-! ## Instructions of one opcode -/

namespace Instruction

def isA (op : Opcode) (i : Instruction) : Bool := i.opcode? = some op

@[simp] theorem isA_of (op op' : Opcode) (ws : List Word) : (of op' ws).isA op = decide (op' = op) := by
  simp [isA]

theorem not_isA {i : Instruction} {op op' : Opcode} (h : i.opcode? = some op') (hne : op' ≠ op) :
    i.isA op = false := by
  simp [isA, h, hne]

theorem filter_isA {is : List Instruction} {op' : Opcode} (h : ∀ i ∈ is, i.opcode? = some op')
    (op : Opcode) : is.filter (isA op) = if op' = op then is else [] := by
  split
  · rename_i heq
    apply List.filter_eq_self.mpr
    intro i hi
    simp [isA, h i hi, heq]
  · rename_i hne
    apply List.filter_eq_nil_iff.mpr
    intro i hi
    simp [not_isA (h i hi) hne]

theorem filter_isA_eq_nil {is : List Instruction} {op : Opcode}
    (h : ∀ i ∈ is, ∃ op', i.opcode? = some op' ∧ op' ≠ op) : is.filter (isA op) = [] := by
  apply List.filter_eq_nil_iff.mpr
  intro i hi
  obtain ⟨op', hop', hne⟩ := h i hi
  simp [not_isA hop' hne]

theorem length_filter_isA {is : List Instruction} {ops : List Opcode} (h : Spell is ops)
    (op : Opcode) : (is.filter (isA op)).length = ops.count op := by
  have hopcodes : is.countP (isA op) = (is.map opcode?).countP fun o => decide (o = some op) := by
    rw [List.countP_map]
    rfl
  rw [← List.countP_eq_length_filter, hopcodes, h, List.countP_map, List.count_eq_countP]
  congr 1
  funext o
  simp [Bool.beq_eq_decide_eq]

theorem mem_of_spell {is : List Instruction} {ops : List Opcode} (h : Spell is ops) :
    ∀ i ∈ is, ∃ op ∈ ops, i.opcode? = some op := by
  intro i hi
  have hmem : i.opcode? ∈ ops.map some := h ▸ List.mem_map_of_mem hi
  obtain ⟨op, hop, heq⟩ := List.mem_map.mp hmem
  exact ⟨op, hop, heq.symm⟩

/-! ## Cutting a module at its functions -/

def function? (i : Instruction) : Option Instruction := if i.isA .function then some i else none

/-- What stands before the first function, and then the functions. -/
def splitAtFunctions (is : List Instruction) : List Instruction × List (List Instruction) :=
  ((splitAtMarks function? is).1, (splitAtMarks function? is).2.map fun f => f.1 :: f.2)

def isDeclaration (i : Instruction) : Bool := i.opcode?.any Opcode.isDeclaration

/-- The declarations of a module, which stand before its functions. -/
def declarations (is : List Instruction) : List Instruction :=
  (splitAtFunctions is).1.filter isDeclaration

theorem function?_eq_none {is : List Instruction} (h : ∀ i ∈ is, i.isA .function = false) :
    ∀ i ∈ is, i.function? = none := by
  intro i hi
  simp [function?, h i hi]

end Instruction

/-! ## Opcodes of functions -/

namespace Opcode

/-- Whether an instruction may stand in a function. -/
def inFunction (op : Opcode) : Bool :=
  op.isInner || op.isTerminator || op ∈ [.function, .functionParameter, .label, .functionEnd]

end Opcode

theorem Method.IsFunction.inFunction {m : Method} {ops : List Opcode} (h : m.IsFunction ops) :
    ∀ op ∈ ops, op.inFunction = true := by
  obtain ⟨groups, -, hgroups, rfl⟩ := h
  intro op hop
  simp only [List.mem_cons, List.mem_append, List.mem_flatten, List.not_mem_nil, or_false] at hop
  rcases hop with rfl | hop | ⟨g, hg, hop⟩ | rfl
  · rfl
  · rw [(List.mem_replicate.mp hop).2]
    rfl
  · obtain ⟨inner, last, rfl, hinner, hlast⟩ := hgroups g hg
    simp only [List.mem_cons, List.mem_append, List.not_mem_nil, or_false] at hop
    rcases hop with rfl | hop | rfl
    · rfl
    · simp [Opcode.inFunction, hinner op hop]
    · simp [Opcode.inFunction, hlast]
  · rfl

namespace Emission

theorem isA_opening (t : Task) (type signature : Id) :
    (opening t type signature).isA .function = true := by
  simp [opening]

theorem Text.Of.functions_eq {t : Task} {d : Dictionary} {r : IdRange} {w : Work} {x : Text}
    (h : x.Of t d r w) :
    ∃ type signature rest, x.functions = opening t type signature :: rest ∧
      ∀ i ∈ rest, i.isA .function = false := by
  obtain ⟨ops, hspell, hfunction⟩ := h.isFunction
  obtain ⟨type, signature, wss, -, hhead⟩ := h.head
  have hcount := length_filter_isA hspell .function
  rw [hfunction.single.opened] at hcount
  have hfirst : x.functions = opening t type signature ::
      (wss.map (Instruction.of .functionParameter) ++
        (x.codes.flatMap Code.toList ++ [.of .functionEnd []])) := by
    rw [Text.functions, hhead, List.cons_append]
  refine ⟨type, signature, _, hfirst, ?_⟩
  rw [hfirst, List.filter_cons_of_pos (isA_opening ..), List.length_cons, Nat.add_eq_right] at hcount
  intro i hi
  have others := List.filter_eq_nil_iff.mp (List.eq_nil_of_length_eq_zero hcount) i hi
  simpa using others

theorem Text.Of.filter_function {t : Task} {d : Dictionary} {r : IdRange} {w : Work} {x : Text}
    (h : x.Of t d r w) :
    ∃ type signature, x.functions.filter (isA .function) = [opening t type signature] := by
  obtain ⟨type, signature, rest, hfirst, hrest⟩ := h.functions_eq
  refine ⟨type, signature, ?_⟩
  rw [hfirst, List.filter_cons_of_pos (isA_opening ..), List.filter_eq_nil_iff.mpr]
  simpa using hrest

end Emission

/-! ## The parts of a module -/

namespace Parts

variable {p : Program} {entry : EntryPoint} {c : Parts}

/-- The words after the header are read back as the instructions of the module. -/
theorem Of.decode (h : c.Of p entry) (version generator bound : Word) :
    decodeAll (((c.layout entry).encode.serialize version generator bound).drop Layout.headerSize) =
      (c.instructions entry, []) := by
  have body : ((c.layout entry).encode.serialize version generator bound).drop Layout.headerSize =
      encodeAll (c.instructions entry) := by
    rw [← toList_layout, ← Layout.toList_encode]
    rfl
  rw [body]
  exact decodeAll_encodeAll _ h.fits

theorem Of.declared (h : c.Of p entry) :
    ∀ i ∈ c.dictionary.declarations, ∃ op, i.opcode? = some op ∧ op.isDeclaration = true := by
  obtain ⟨supply, steps⟩ := h.grown
  exact steps.grown.2

theorem Of.inFunction (h : c.Of p entry) :
    ∀ i ∈ c.functions, ∃ op, i.opcode? = some op ∧ op.inFunction = true := by
  intro i hi
  obtain ⟨x, hx, hi⟩ := List.mem_flatMap.mp hi
  obtain ⟨m, -, hof⟩ := h.product hx
  obtain ⟨ops, hspell, hfunction⟩ := hof.text.isFunction
  obtain ⟨op, hop, heq⟩ := mem_of_spell hspell i hi
  exact ⟨op, heq, hfunction.inFunction op hop⟩

/-- What a reader finds who looks for the instructions of one opcode. -/
theorem Of.filter_instructions (h : c.Of p entry) (op : Opcode) :
    (c.instructions entry).filter (isA op) =
      (if .capability = op then c.capabilities else []) ++
      ((if .extInstImport = op then [c.extension] else []) ++
      ((if .memoryModel = op then [model] else []) ++
      ((if .entryPoint = op then [c.point entry] else []) ++
      ((if .executionMode = op then c.modes else []) ++
      ((if .name = op then c.names else []) ++
      ((if .decorate = op then c.dictionary.annotations else []) ++
      (c.dictionary.declarations.filter (isA op) ++ c.functions.filter (isA op)))))))) := by
  have extension : ∀ i ∈ [c.extension], i.opcode? = some .extInstImport := by simp [extension]
  have model' : ∀ i ∈ [model], i.opcode? = some .memoryModel := by simp [model]
  have point : ∀ i ∈ [c.point entry], i.opcode? = some .entryPoint := by simp [point]
  have single : c.instructions entry = c.capabilities ++ ([c.extension] ++ ([model] ++
      ([c.point entry] ++ (c.modes ++ (c.names ++ (c.dictionary.annotations ++
        (c.dictionary.declarations ++ c.functions))))))) := by
    simp [instructions]
  rw [single]
  simp only [List.filter_append]
  rw [filter_isA c.opcode_capabilities, filter_isA extension, filter_isA model', filter_isA point,
    filter_isA h.opcode_modes, filter_isA h.opcode_names, filter_isA h.opcode_annotations]

theorem Of.filter_declarations (h : c.Of p entry) {op : Opcode} (hop : op.isDeclaration = false) :
    c.dictionary.declarations.filter (isA op) = [] := by
  apply filter_isA_eq_nil
  intro i hi
  obtain ⟨op', hop', hdeclares⟩ := h.declared i hi
  refine ⟨op', hop', ?_⟩
  rintro rfl
  simp [hop] at hdeclares

theorem Of.filter_functions (h : c.Of p entry) {op : Opcode} (hop : op.inFunction = false) :
    c.functions.filter (isA op) = [] := by
  apply filter_isA_eq_nil
  intro i hi
  obtain ⟨op', hop', hinside⟩ := h.inFunction i hi
  refine ⟨op', hop', ?_⟩
  rintro rfl
  simp [hop] at hinside

theorem Of.opcode_front (h : c.Of p entry) :
    ∀ i ∈ c.front entry, ∃ op, i.opcode? = some op ∧ op.isDeclaration = false ∧ op ≠ .function := by
  intro i hi
  simp only [front, List.mem_append, List.mem_cons] at hi
  rcases hi with hi | rfl | rfl | rfl | hi | hi | hi
  · exact ⟨_, c.opcode_capabilities i hi, rfl, by decide⟩
  · exact ⟨_, opcode?_of _ _, rfl, by decide⟩
  · exact ⟨_, opcode?_of _ _, rfl, by decide⟩
  · exact ⟨_, opcode?_of _ _, rfl, by decide⟩
  · exact ⟨_, h.opcode_modes i hi, rfl, by decide⟩
  · exact ⟨_, h.opcode_names i hi, rfl, by decide⟩
  · exact ⟨_, h.opcode_annotations i hi, rfl, by decide⟩

theorem splitAtFunctions_products {ms : List Method} {xs : List Product} {frame : Frame}
    {d : Dictionary} (h : List.Forall₂ (Product.Of frame d) ms xs) :
    splitAtFunctions (xs.flatMap (·.text.functions)) = ([], xs.map (·.text.functions)) := by
  induction h with
  | nil => rfl
  | @cons m x ms xs hof _ ih =>
    obtain ⟨type, signature, rest, hfirst, hrest⟩ := hof.text.functions_eq
    have mark : function? (opening x.job.task type signature) =
        some (opening x.job.task type signature) := if_pos (isA_opening ..)
    obtain ⟨hnone, hfunctions⟩ := Prod.mk.inj ih
    rw [List.flatMap_cons, hfirst, List.cons_append, Instruction.splitAtFunctions,
      splitAtMarks_cons_append mark (function?_eq_none hrest), List.map_cons, hfunctions, hnone,
      List.append_nil, List.map_cons, hfirst]

theorem Of.splitAtFunctions (h : c.Of p entry) : splitAtFunctions (c.instructions entry) =
    (c.front entry ++ c.dictionary.declarations, c.products.map (·.text.functions)) := by
  have before : ∀ i ∈ c.front entry ++ c.dictionary.declarations, i.isA .function = false := by
    intro i hi
    rcases List.mem_append.mp hi with hi | hi
    · obtain ⟨op, hop, -, hne⟩ := h.opcode_front i hi
      exact not_isA hop hne
    · obtain ⟨op, hop, hdeclares⟩ := h.declared i hi
      exact not_isA hop (by rintro rfl; cases hdeclares)
  obtain ⟨hnone, hfunctions⟩ := Prod.mk.inj (splitAtFunctions_products h.products)
  rw [instructions_eq, ← List.append_assoc, functions, Instruction.splitAtFunctions,
    splitAtMarks_append (function?_eq_none before), hfunctions, hnone, List.append_nil]

theorem Of.declarations (h : c.Of p entry) :
    Instruction.declarations (c.instructions entry) = c.dictionary.declarations := by
  rw [Instruction.declarations, h.splitAtFunctions, List.filter_append,
    List.filter_eq_nil_iff.mpr, List.nil_append, List.filter_eq_self]
  · intro i hi
    obtain ⟨op, hop, hdeclares⟩ := h.declared i hi
    simp [isDeclaration, hop, hdeclares]
  · intro i hi
    obtain ⟨op, hop, hdeclares, -⟩ := h.opcode_front i hi
    simp [isDeclaration, hop, hdeclares]

end Parts

end SpirvKernel
