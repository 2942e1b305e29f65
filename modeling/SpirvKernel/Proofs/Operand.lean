import SpirvKernel.Binary.Instruction
import SpirvKernel.Proofs.Binary.Literal

/-!
# What the operands of an instruction are

The format of an opcode says which operand is the result, which operands name other results and
which are plain numbers or text. A list of instructions is scoped if every use comes after its
definition.
-/

namespace SpirvKernel

inductive Slot where
  /-- The identifier that the instruction defines. -/
  | result
  /-- An identifier that is defined before. -/
  | use
  /-- An identifier that may also be defined later. -/
  | mention
  | literal
  deriving DecidableEq, Repr

structure Format where
  leading : List Slot
  /-- Whether a string follows the leading operands. -/
  text : Bool := false
  /-- The kinds of the operands that are left, repeated as often as it takes. -/
  trailing : List Slot := []
  deriving DecidableEq, Repr

def Format.computation : Format where
  leading := [.use, .result]
  trailing := [.use]

/-- The format of an opcode. Each literal of a switch takes two words if it is `wide`. -/
def Opcode.format (wide : Bool) : Opcode → Format
  | .undef | .functionParameter | .constantTrue | .constantFalse | .constantNull =>
    { leading := [.use, .result] }
  | .name => { leading := [.mention], text := true }
  | .extInstImport => { leading := [.result], text := true }
  | .extInst => { leading := [.use, .result, .use, .literal], trailing := [.use] }
  | .memoryModel => { leading := [.literal, .literal] }
  | .entryPoint => { leading := [.literal, .mention], text := true, trailing := [.mention] }
  | .executionMode | .decorate => { leading := [.mention], trailing := [.literal] }
  | .capability => { leading := [.literal] }
  | .typeVoid | .typeBool | .label => { leading := [.result] }
  | .typeInt | .typeFloat => { leading := [.result], trailing := [.literal] }
  | .typeVector => { leading := [.result, .use, .literal] }
  | .typeArray => { leading := [.result, .use, .use] }
  | .typeStruct | .typeFunction => { leading := [.result], trailing := [.use] }
  | .typePointer => { leading := [.result, .literal, .use] }
  | .constant | .specConstant => { leading := [.use, .result], trailing := [.literal] }
  | .function => { leading := [.use, .result, .literal, .use] }
  | .functionCall => { leading := [.use, .result, .mention], trailing := [.use] }
  | .variable => { leading := [.use, .result, .literal], trailing := [.use] }
  | .load | .compositeExtract => { leading := [.use, .result, .use], trailing := [.literal] }
  | .store => { leading := [.use, .use], trailing := [.literal] }
  | .controlBarrier => { leading := [.use, .use, .use] }
  | .phi => { leading := [.use, .result], trailing := [.mention] }
  | .branch => { leading := [.mention] }
  | .branchConditional => { leading := [.use, .mention, .mention], trailing := [.literal] }
  | .switch =>
    { leading := [.use, .mention],
      trailing := if wide then [.literal, .literal, .mention] else [.literal, .mention] }
  | .retValue => { leading := [.use] }
  | .ret | .unreachable | .functionEnd => { leading := [] }
  | _ => .computation

def Opcode.isTyped (op : Opcode) : Bool := (op.format false).leading.take 2 = [.use, .result]

namespace Format

def afterText (ws : List Word) : List Word :=
  match Literal.decode? ws with
  | some (_, used) => ws.drop used
  | none => []

theorem afterText_encode {s : String} (hs : '\x00' ∉ s.toList) (ws : List Word) :
    afterText (Literal.encode s ++ ws) = ws := by
  rw [afterText, Literal.decode?_encode_append_of_notMem hs]
  exact List.drop_left

/-- Goes through `slots`, and through `again` whenever they are used up. -/
def cycle (again : List Slot) : List Slot → List Word → List (Slot × Word)
  | _, [] => []
  | slot :: slots, w :: ws => (slot, w) :: cycle again slots ws
  | [], w :: ws =>
    match again with
    | slot :: slots => (slot, w) :: cycle again slots ws
    | [] => []

/-- The operands with their kinds. The words of a string are left out. -/
def read (f : Format) (ws : List Word) : List (Slot × Word) :=
  let rest := ws.drop f.leading.length
  f.leading.zip ws ++ cycle f.trailing f.trailing (if f.text then afterText rest else rest)

theorem cycle_single (slot : Slot) (ws : List Word) :
    cycle [slot] [slot] ws = ws.map (slot, ·) ∧ cycle [slot] [] ws = ws.map (slot, ·) := by
  induction ws with
  | nil => simp [cycle]
  | cons w ws ih => simp [cycle, ih.2]

@[simp] theorem cycle_one (slot : Slot) (ws : List Word) :
    cycle [slot] [slot] ws = ws.map (slot, ·) := (cycle_single slot ws).1

@[simp] theorem cycle_nil (slots : List Slot) : cycle slots slots [] = [] := by
  cases slots <;> rfl

@[simp] theorem cycle_empty (ws : List Word) : cycle [] [] ws = [] := by
  cases ws <;> rfl

theorem mem_cycle {again slots : List Slot} {ws : List Word} {x : Slot × Word}
    (h : x ∈ cycle again slots ws) : x.1 ∈ again ∨ x.1 ∈ slots := by
  induction ws generalizing slots with
  | nil => cases slots <;> cases h
  | cons w ws ih =>
    cases slots with
    | cons slot slots =>
      rcases List.mem_cons.mp h with rfl | h
      · exact .inr List.mem_cons_self
      · exact (ih h).imp_right (List.mem_cons_of_mem slot)
    | nil =>
      cases again with
      | nil => cases h
      | cons slot rest =>
        rcases List.mem_cons.mp h with rfl | h
        · exact .inl List.mem_cons_self
        · exact .inl ((ih h).elim id (List.mem_cons_of_mem slot))

theorem read_computation (type id : Word) (ws : List Word) :
    computation.read (type :: id :: ws) = (.use, type) :: (.result, id) :: ws.map (.use, ·) := by
  simp [computation, read]

end Format

namespace Instruction

def inSlot (i : Instruction) (wide : Bool) (slot : Slot) : List Word :=
  match Opcode.ofCode? i.code with
  | some op => ((op.format wide).read i.operands).filterMap fun (s, w) =>
      if s = slot then some w else none
  | none => []

def result? (i : Instruction) : Option Word := (i.inSlot false .result).head?

def typed? (i : Instruction) : Option (Word × Word) :=
  match Opcode.ofCode? i.code, i.operands with
  | some op, type :: id :: _ => if op.isTyped then some (type, id) else none
  | _, _ => none

def uses (i : Instruction) : List Word := i.inSlot false .use

def mentions (i : Instruction) (wide : Bool) : List Word := i.inSlot wide .mention

def results (is : List Instruction) : List Word := is.filterMap result?

/-- Every use is a result of an instruction before it, or in `known`. -/
def Scoped (known : List Word) : List Instruction → Prop
  | [] => True
  | i :: is => (∀ w ∈ i.uses, w ∈ known) ∧ Scoped (known ++ i.result?.toList) is

def Quiet (is : List Instruction) : Prop := ∀ i ∈ is, ∀ wide, i.mentions wide = []

theorem quiet_nil : Quiet [] := by simp [Quiet]

theorem Quiet.append {is js : List Instruction} (hi : Quiet is) (hj : Quiet js) :
    Quiet (is ++ js) := by
  intro i h
  rcases List.mem_append.mp h with h | h
  · exact hi i h
  · exact hj i h

theorem quiet_singleton {i : Instruction} (h : ∀ wide, i.mentions wide = []) : Quiet [i] := by
  intro j hj
  rw [List.mem_singleton.mp hj]
  exact h

theorem fits_of (op : Opcode) {ws : List Word} (h : ws.length < maxSize) : (of op ws).Fits := h

/-! ## Reading the operands of a given opcode -/

theorem inSlot_of (op : Opcode) (ws : List Word) (wide : Bool) (slot : Slot) :
    (of op ws).inSlot wide slot = ((op.format wide).read ws).filterMap fun (s, w) =>
      if s = slot then some w else none := by
  simp only [inSlot, of, Opcode.ofCode?_code]

theorem filterMap_slot_map (s slot : Slot) (ws : List Word) :
    (ws.map (s, ·)).filterMap (fun (s, w) => if s = slot then some w else none) =
      if s = slot then ws else [] := by
  induction ws with
  | nil => simp
  | cons w ws ih =>
    rw [List.map_cons, List.filterMap_cons, ih]
    by_cases h : s = slot <;> simp [h]

theorem typed?_of {op : Opcode} (h : op.isTyped) (type id : Word) (ws : List Word) :
    (of op (type :: id :: ws)).typed? = some (type, id) := by
  simp [typed?, of, h]

theorem result?_of_typed? {i : Instruction} {type id : Word} (h : i.typed? = some (type, id)) :
    i.result? = some id := by
  unfold typed? at h
  split at h
  · rename_i op _ _ _ hop hws
    split at h
    · rename_i htyped
      simp only [Option.some.injEq, Prod.mk.injEq] at h
      obtain ⟨rfl, rfl⟩ := h
      obtain ⟨slots, hslots⟩ : ∃ slots, (op.format false).leading = .use :: .result :: slots := by
        have := of_decide_eq_true htyped
        rcases hl : (op.format false).leading with _ | ⟨a, _ | ⟨b, slots⟩⟩ <;> simp_all
      simp [result?, inSlot, hop, hws, Format.read, hslots]
    · cases h
  · cases h

theorem filterMap_slot_cycle {slots : List Slot} {slot : Slot} (h : slot ∉ slots) (ws : List Word) :
    (Format.cycle slots slots ws).filterMap (fun (s, w) => if s = slot then some w else none) =
      [] := by
  rw [List.filterMap_eq_nil_iff]
  rintro ⟨s, w⟩ hx
  refine if_neg ?_
  rintro rfl
  exact h ((Format.mem_cycle hx).elim id id)

section Computation

variable {op : Opcode} {type id : Word} {ws : List Word}

theorem uses_computation (h : op.format false = .computation) :
    (of op (type :: id :: ws)).uses = type :: ws := by
  rw [uses, inSlot_of, h, Format.read_computation]
  exact congrArg (type :: ·) (filterMap_slot_map .use .use ws)

theorem mentions_computation {wide : Bool} (h : op.format wide = .computation) :
    (of op (type :: id :: ws)).mentions wide = [] := by
  rw [mentions, inSlot_of, h, Format.read_computation]
  exact filterMap_slot_map .use .mention ws

end Computation

/-! ## Lists of instructions -/

@[simp] theorem results_nil : results [] = [] := rfl

@[simp] theorem results_cons (i : Instruction) (is : List Instruction) :
    results (i :: is) = i.result?.toList ++ results is := by
  rw [results, List.filterMap_cons]
  cases i.result? <;> rfl

@[simp] theorem results_append (is js : List Instruction) :
    results (is ++ js) = results is ++ results js := List.filterMap_append

theorem mem_results {is : List Instruction} {w : Word} :
    w ∈ results is ↔ ∃ i ∈ is, i.result? = some w := List.mem_filterMap

theorem filter_result {is : List Instruction} {i : Instruction} {w : Word}
    (nodup : (results is).Nodup) (hi : i ∈ is) (hw : i.result? = some w) :
    is.filter (·.result? = some w) = [i] := by
  induction is with
  | nil => cases hi
  | cons j is ih =>
    rw [results_cons, List.nodup_append] at nodup
    obtain ⟨-, nodup, apart⟩ := nodup
    by_cases hj : j.result? = some w
    · have hout : w ∉ results is := fun h => apart w (by simp [hj]) w h rfl
      have hnone : is.filter (·.result? = some w) = [] := by
        refine List.filter_eq_nil_iff.mpr fun k hk h => hout ?_
        exact mem_results.mpr ⟨k, hk, of_decide_eq_true h⟩
      rw [List.filter_cons_of_pos (by simpa using hj), hnone]
      rcases List.mem_cons.mp hi with rfl | hi
      · rfl
      · exact absurd (mem_results.mpr ⟨i, hi, hw⟩) hout
    · rw [List.filter_cons_of_neg (by simpa using hj)]
      rcases List.mem_cons.mp hi with rfl | hi
      · exact absurd hw hj
      · exact ih nodup hi

@[simp] theorem scoped_nil (known : List Word) : Scoped known [] := trivial

@[simp] theorem scoped_cons {known : List Word} {i : Instruction} {is : List Instruction} :
    Scoped known (i :: is) ↔
      (∀ w ∈ i.uses, w ∈ known) ∧ Scoped (known ++ i.result?.toList) is := Iff.rfl

theorem scoped_append {known : List Word} {is js : List Instruction} :
    Scoped known (is ++ js) ↔ Scoped known is ∧ Scoped (known ++ results is) js := by
  induction is generalizing known with
  | nil => simp
  | cons i is ih =>
    rw [List.cons_append, scoped_cons, scoped_cons, ih, results_cons, List.append_assoc, and_assoc]

theorem Scoped.mono {known more : List Word} {is : List Instruction} (h : Scoped known is)
    (hsub : ∀ w ∈ known, w ∈ more) : Scoped more is := by
  induction is generalizing known more with
  | nil => trivial
  | cons i is ih =>
    refine ⟨fun w hw => hsub w (h.1 w hw), ih h.2 ?_⟩
    intro w hw
    rcases List.mem_append.mp hw with hw | hw
    · exact List.mem_append_left _ (hsub w hw)
    · exact List.mem_append_right _ hw

theorem Scoped.uses_defined {known : List Word} {before after : List Instruction} {i : Instruction}
    (h : Scoped known (before ++ i :: after)) :
    ∀ w ∈ i.uses, w ∈ known ∨ w ∈ results before := by
  intro w hw
  have hi := (scoped_append.mp h).2.1 w hw
  exact List.mem_append.mp hi

/-- What stands before the first mark, and each mark with what follows up to the next. -/
def splitAtMarks {β : Type} (mark? : Instruction → Option β) :
    List Instruction → List Instruction × List (β × List Instruction)
  | [] => ([], [])
  | i :: is =>
    match mark? i with
    | some b => ([], (b, (splitAtMarks mark? is).1) :: (splitAtMarks mark? is).2)
    | none => (i :: (splitAtMarks mark? is).1, (splitAtMarks mark? is).2)

theorem splitAtMarks_append {β : Type} {mark? : Instruction → Option β} {is : List Instruction}
    (h : ∀ i ∈ is, mark? i = none) (js : List Instruction) : splitAtMarks mark? (is ++ js) =
      (is ++ (splitAtMarks mark? js).1, (splitAtMarks mark? js).2) := by
  induction is with
  | nil => rfl
  | cons i is ih =>
    rw [List.cons_append, splitAtMarks, h i List.mem_cons_self,
      ih fun j hj => h j (List.mem_cons_of_mem i hj)]
    rfl

theorem splitAtMarks_cons_append {β : Type} {mark? : Instruction → Option β} {i : Instruction} {b : β}
    {is : List Instruction} (hi : mark? i = some b) (h : ∀ j ∈ is, mark? j = none)
    (js : List Instruction) : splitAtMarks mark? (i :: (is ++ js)) =
      ([], (b, is ++ (splitAtMarks mark? js).1) :: (splitAtMarks mark? js).2) := by
  rw [splitAtMarks, hi, splitAtMarks_append h]

end Instruction

/-! ## Where an opcode may stand -/

namespace Opcode

/-- Whether an instruction ends a block. -/
def isTerminator : Opcode → Bool
  | .branch | .branchConditional | .switch | .ret | .retValue | .unreachable => true
  | _ => false

/-- Whether an instruction may stand among the types, constants and variables of a module. -/
def isDeclaration : Opcode → Bool
  | .typeVoid | .typeBool | .typeInt | .typeFloat | .typeVector | .typeArray | .typeStruct
  | .typePointer | .typeFunction | .constantTrue | .constantFalse | .constant | .constantNull
  | .specConstant | .variable => true
  | _ => false

/-- Whether an instruction may stand in a block between its label and its terminator. -/
def isInner : Opcode → Bool
  | .variable => true
  | .name | .extInstImport | .memoryModel | .entryPoint | .executionMode | .capability | .decorate
  | .function | .functionParameter | .functionEnd | .label => false
  | op => !op.isTerminator && !op.isDeclaration

theorem isInner_computation {op : Opcode} (h : op.format false = .computation) :
    op.isInner = true := by
  cases op <;> first | rfl | cases h

end Opcode

namespace Instruction

def opcode? (i : Instruction) : Option Opcode := Opcode.ofCode? i.code

def isInner (i : Instruction) : Bool := i.opcode?.any Opcode.isInner

@[simp] theorem opcode?_of (op : Opcode) (ws : List Word) : (of op ws).opcode? = some op :=
  Opcode.ofCode?_code op

@[simp] theorem isInner_of (op : Opcode) (ws : List Word) : (of op ws).isInner = op.isInner := by
  simp [isInner]

end Instruction

/-! ## Opcodes that compute -/

/-- Whether an instruction starts a function or a block, whose names are given before. -/
def Instruction.opens (i : Instruction) : Bool :=
  i.code = Opcode.function.code || i.code = Opcode.label.code

/-- After result type and result, instructions of this opcode use `used` of the operands `ws`. -/
structure Opcode.Reads (op : Opcode) (ws used : List Word) : Prop where
  typed : op.isTyped = true
  inner : ∀ vs, (Instruction.of op vs).opens = false
  uses : ∀ type id, (Instruction.of op (type :: id :: ws)).uses = type :: used

theorem opens_of_ne {op : Opcode} (hf : op ≠ .function) (hl : op ≠ .label) (ws : List Word) :
    (Instruction.of op ws).opens = false := by
  have code_inj : ∀ op' : Opcode, op.code = op'.code → op = op' := by
    intro op' h
    have := congrArg Opcode.ofCode? h
    simpa using this
  rw [Instruction.opens, Bool.or_eq_false_iff]
  exact ⟨decide_eq_false fun h => hf (code_inj _ h), decide_eq_false fun h => hl (code_inj _ h)⟩

namespace Opcode

open Instruction

theorem reads_computation {op : Opcode} (h : op.format false = .computation) (ws : List Word) :
    op.Reads ws ws where
  typed := by simp [isTyped, h, Format.computation]
  inner := opens_of_ne (by rintro rfl; simp [format, Format.computation] at h)
    (by rintro rfl; simp [format, Format.computation] at h)
  uses _ _ := uses_computation h

theorem reads_undef : undef.Reads [] [] where
  typed := rfl
  inner := opens_of_ne nofun nofun
  uses _ _ := rfl

theorem reads_load (p : Word) : load.Reads [p] [p] where
  typed := rfl
  inner := opens_of_ne nofun nofun
  uses _ _ := rfl

theorem reads_compositeExtract (x i : Word) : compositeExtract.Reads [x, i] [x] where
  typed := rfl
  inner := opens_of_ne nofun nofun
  uses _ _ := rfl

theorem reads_functionParameter : functionParameter.Reads [] [] where
  typed := rfl
  inner := opens_of_ne nofun nofun
  uses _ _ := rfl

theorem reads_variable (storage : Word) : Opcode.variable.Reads [storage] [] where
  typed := rfl
  inner := opens_of_ne nofun nofun
  uses _ _ := rfl

theorem reads_functionCall (f : Word) (xs : List Word) : functionCall.Reads (f :: xs) xs where
  typed := rfl
  inner := opens_of_ne nofun nofun
  uses _ _ := by
    simp [Instruction.uses, inSlot_of, format, Format.read, -List.filterMap_map, filterMap_slot_map]

theorem reads_extInst (set n : Word) (xs : List Word) :
    extInst.Reads (set :: n :: xs) (set :: xs) where
  typed := rfl
  inner := opens_of_ne nofun nofun
  uses _ _ := by
    simp [Instruction.uses, inSlot_of, format, Format.read, -List.filterMap_map, filterMap_slot_map]

end Opcode

end SpirvKernel
