import SpirvKernel.Proofs.Dictionary.Distinctness

/-!
# Variables of a module

A builtin variable is declared under a key, in the memory of inputs, and joins the interface. A group
variable has no key: every request declares one of its own, and no other request declares any. The
type of a group variable points to as many elements as were asked for.
-/

namespace SpirvKernel

open Instruction Attempt

namespace Instruction

def isVariableIn (storage : StorageClass) (i : Instruction) : Bool :=
  i.opcode? = some .variable && i.operands[2]? = some storage.number

@[simp] theorem isVariableIn_variable (storage storage' : StorageClass) (type id : Word) :
    (of .variable [type, id, storage'.number]).isVariableIn storage = decide (storage' = storage) := by
  cases storage <;> cases storage' <;> rfl

theorem not_isVariableIn {i : Instruction} (h : i.opcode? ≠ some .variable) (storage : StorageClass) :
    i.isVariableIn storage = false := by
  simp [isVariableIn, h]

end Instruction

namespace Declaration

theorem variable_of_instruction? {look : Declaration → Option Id} {id : Id} {key : Declaration}
    {i : Instruction} (h : key.instruction? look id = some i) :
    (∃ b p, key = .builtin b ∧ i = .of .variable [p, id.word, StorageClass.input.number]) ∨
      key.interface id = [] ∧ i.opcode? ≠ some .variable := by
  cases key with
  | builtin b =>
    obtain ⟨p, -, h⟩ := Option.bind_eq_some_iff.mp h
    cases h
    exact .inl ⟨b, p.word, rfl, rfl⟩
  | type t =>
    refine .inr ⟨rfl, ?_⟩
    cases t with
    | void | bool | int | float => cases h; simp
    | vector | struct =>
      obtain ⟨_, -, h⟩ := Option.bind_eq_some_iff.mp h
      cases h
      simp
    | array =>
      obtain ⟨_, -, h⟩ := Option.bind_eq_some_iff.mp h
      obtain ⟨_, -, h⟩ := Option.bind_eq_some_iff.mp h
      cases h
      simp
    | pointer => cases h
  | pointer | signature =>
    obtain ⟨_, -, h⟩ := Option.bind_eq_some_iff.mp h
    cases h
    exact .inr ⟨rfl, by simp⟩
  | constant c =>
    obtain ⟨_, -, h⟩ := Option.bind_eq_some_iff.mp h
    cases h
    refine .inr ⟨rfl, ?_⟩
    cases c with
    | bool b => cases b <;> simp [Constant.opcode]
    | int | float | null => simp [Constant.opcode]

end Declaration

namespace Dictionary

variable {d d₁ : Dictionary} {key : Declaration} {id : Id}

def variablesIn (d : Dictionary) (storage : StorageClass) : List Instruction :=
  d.declarations.filter (isVariableIn storage)

/-! ## The interface -/

/-- The interface is the list of all input variables. -/
def Listed (d : Dictionary) : Prop := results (d.variablesIn .input) = d.interface.map Id.word

theorem variablesIn_append {i : Instruction} (h : d₁.declarations = d.declarations ++ [i])
    (storage : StorageClass) :
    d₁.variablesIn storage = d.variablesIn storage ++ [i].filter (isVariableIn storage) := by
  rw [variablesIn, h, List.filter_append, variablesIn]

theorem Step.listed (h : Step d d₁) (hd : d.Listed) : d₁.Listed := by
  unfold Listed at hd ⊢
  cases h with
  | need | reserve => exact hd
  | length =>
    rw [variablesIn_append rfl, results_append, hd]
    simp [not_isVariableIn, recordLength, extend]
  | unnamed made =>
    rw [variablesIn_append rfl, results_append, hd]
    cases made <;> simp [not_isVariableIn, extend]
  | @record key i new made =>
    rw [variablesIn_append rfl, results_append, hd]
    have joins : (d.record key i).interface = d.interface ++ key.interface d.nextId := rfl
    rw [joins, List.map_append]
    rcases Declaration.variable_of_instruction? made with ⟨b, p, rfl, rfl⟩ | ⟨interface, other⟩
    · simp [Declaration.interface, result?, inSlot_of, Opcode.format, Format.read]
    · simp [interface, not_isVariableIn other]

theorem Steps.listed {supply : Supply} (h : Steps (new supply) d) : d.Listed := by
  induction h with
  | refl => rfl
  | tail _ hs ih => exact hs.listed ih

/-! ## No other group variables -/

def SameGroups (d d₁ : Dictionary) : Prop := d₁.variablesIn .workgroup = d.variablesIn .workgroup

theorem sameGroups_refl (d : Dictionary) : SameGroups d d := rfl

theorem sameGroups_trans (a b c : Dictionary) (h : SameGroups a b) (h' : SameGroups b c) :
    SameGroups a c :=
  Eq.trans h' h

theorem file_sameGroups (regular : key.Regular) : Respects SameGroups (file key) := by
  refine file_filter_declarations (fun made => ?_) regular
  rcases Declaration.variable_of_instruction? made with ⟨b, p, -, h⟩ | ⟨-, other⟩
  · simp [h]
  · exact not_isVariableIn other _

theorem perform_sameGroups {r : Request} (h : r.key? = some key) : Respects SameGroups (perform r) := by
  rw [perform_eq_file h]
  exact file_sameGroups (regular_of_key? h)

/-! ## What a pointer points to -/

/-- The type points to memory of this storage class for as many elements as the extent says. -/
inductive Points (d : Dictionary) (storage : StorageClass) (elem : Ty) : Extent → Id → Prop
  | single {p : Id} (known : d.get? (.pointer elem storage) = some p) :
    Points d storage elem .single p
  | fixed {n : UInt32} {p : Id} (known : d.get? (.pointer (.array elem n) storage) = some p) :
    Points d storage elem (.fixed n) p
  | dynamic {e word length array p : Id} (helem : d.get? (.ofType elem) = some e)
      (hword : d.get? (.type .i32) = some word)
      (hlength : .of .specConstant [word.word, length.word, 1] ∈ d.declarations)
      (harray : .of .typeArray [array.word, e.word, length.word] ∈ d.declarations)
      (hpointer : .of .typePointer [p.word, storage.number, array.word] ∈ d.declarations) :
    Points d storage elem .dynamic p

theorem Points.mono {storage : StorageClass} {elem : Ty} {extent : Extent} {p : Id}
    (h : d.Points storage elem extent p) (keeps : ∀ i ∈ d.declarations, i ∈ d₁.declarations)
    (known : ∀ k x, d.get? k = some x → d₁.get? k = some x) : d₁.Points storage elem extent p := by
  cases h with
  | single hp => exact .single (known _ _ hp)
  | fixed hp => exact .fixed (known _ _ hp)
  | dynamic helem hword hlength harray hpointer =>
    exact .dynamic (known _ _ helem) (known _ _ hword) (keeps _ hlength) (keeps _ harray)
      (keeps _ hpointer)

theorem Points.steps {storage : StorageClass} {elem : Ty} {extent : Extent} {p : Id}
    (h : d.Points storage elem extent p) (steps : Steps d d₁) : d₁.Points storage elem extent p := by
  obtain ⟨is, ids, ascends⟩ := steps.ascends
  refine h.mono (fun i hi => ?_) fun k x => steps.get?
  rw [ascends.declarations]
  exact List.mem_append_left is hi

/-! ## Group variables -/

theorem define_ok {op : Opcode} {type : Option Id} {ws : List Word}
    (h : define op type ws d = (.ok id, d₁)) : id = d.nextId ∧
      d₁ = d.extend (.of op ((type.map Id.word).toList ++ d.nextId.word :: ws)) := by
  obtain ⟨e, d₂, run, -⟩ | ⟨-, run⟩ := define_cases op type ws d
  · rw [run] at h
    cases h
  · rw [run] at h
    cases h
    exact ⟨rfl, rfl⟩

theorem hostNumber_ok {word : Id} (h : hostNumber word d = (.ok id, d₁)) :
    id = d.nextId ∧ d₁ = d.recordLength word := by
  rw [hostNumber, bind_eq_ok_iff] at h
  obtain ⟨_, _, hdefine, h⟩ := h
  obtain ⟨rfl, rfl⟩ := define_ok hdefine
  cases h
  exact ⟨rfl, rfl⟩

theorem typeId_ok {t : Ty} (h : typeId t d = (.ok id, d₁)) :
    Steps d d₁ ∧ d₁.get? (.ofType t) = some id ∧ SameGroups d d₁ := by
  have declares := typeId_declares t
  have steps := (declares.below d).steps
  have known := declares.known d id
  have groups := perform_sameGroups (r := .type t) rfl d
  simp only [perform] at groups
  rw [h] at steps known groups
  exact ⟨steps, known rfl, groups⟩

theorem pointerId_ok {t : Ty} {storage : StorageClass} (h : pointerId t storage d = (.ok id, d₁)) :
    Steps d d₁ ∧ d₁.get? (.pointer t storage) = some id ∧ SameGroups d d₁ := by
  have declares := pointerId_declares t storage
  have steps := (declares.below d).steps
  have known := declares.known d id
  have groups := perform_sameGroups (r := .pointer t storage) rfl d
  simp only [perform] at groups
  rw [h] at steps known groups
  exact ⟨steps, known rfl, groups⟩

theorem dynamicArrayPointer_ok {elem : Ty} (h : dynamicArrayPointer elem d = (.ok id, d₁)) :
    d₁.Points .workgroup elem .dynamic id ∧ SameGroups d d₁ := by
  simp only [dynamicArrayPointer, bind_eq_ok_iff] at h
  obtain ⟨word, d₂, hword, e, d₃, helem, length, d₄, hlength, array, d₅, harray, hpointer⟩ := h
  obtain ⟨-, word_known, groups⟩ := typeId_ok hword
  obtain ⟨steps, elem_known, groups'⟩ := typeId_ok helem
  obtain ⟨rfl, rfl⟩ := hostNumber_ok hlength
  obtain ⟨rfl, rfl⟩ := define_ok harray
  obtain ⟨rfl, rfl⟩ := define_ok hpointer
  constructor
  · have number : .of .specConstant [word.word, d₃.nextId.word, 1] ∈
        (d₃.recordLength word).declarations := by
      simp [recordLength, extend]
    exact .dynamic elem_known (steps.get? word_known)
      (List.mem_append_left _ (List.mem_append_left _ number))
      (List.mem_append_left _ (List.mem_append_right _ (List.mem_singleton.mpr rfl)))
      (List.mem_append_right _ (List.mem_singleton.mpr rfl))
  · have same : d₃.variablesIn .workgroup = d.variablesIn .workgroup := groups'.trans groups
    rw [SameGroups, variablesIn_append rfl, variablesIn_append rfl, variablesIn_append rfl]
    simpa [not_isVariableIn] using same

/-- A request for a group variable declares one, of a type that points to what was asked for. -/
theorem groupVariable_ok {elem : Ty} {extent : Extent}
    (h : groupVariable elem extent d = (.ok id, d₁)) :
    ∃ p : Id, d₁.Points .workgroup elem extent p ∧ d₁.variablesIn .workgroup =
      d.variablesIn .workgroup ++ [.of .variable [p.word, id.word, StorageClass.workgroup.number]] := by
  have last : ∀ {p : Id} {d₂ : Dictionary}, d₂.Points .workgroup elem extent p → SameGroups d d₂ →
      define .variable (some p) [StorageClass.workgroup.number] d₂ = (.ok id, d₁) →
      ∃ p : Id, d₁.Points .workgroup elem extent p ∧ d₁.variablesIn .workgroup =
        d.variablesIn .workgroup ++
          [.of .variable [p.word, id.word, StorageClass.workgroup.number]] := by
    intro p d₂ points same hdefine
    obtain ⟨rfl, rfl⟩ := define_ok hdefine
    refine ⟨p, ?_, ?_⟩
    · exact points.mono (fun i => List.mem_append_left _) fun _ _ => id
    · rw [variablesIn_append rfl, same]
      simp
  unfold groupVariable at h
  cases extent with
  | single =>
    obtain ⟨p, d₂, hpointer, h⟩ := bind_eq_ok_iff.mp h
    obtain ⟨-, known, same⟩ := pointerId_ok hpointer
    exact last (.single known) same h
  | fixed n =>
    obtain ⟨p, d₂, hpointer, h⟩ := bind_eq_ok_iff.mp h
    obtain ⟨-, known, same⟩ := pointerId_ok hpointer
    exact last (.fixed known) same h
  | dynamic =>
    obtain ⟨p, d₂, hpointer, h⟩ := bind_eq_ok_iff.mp h
    obtain ⟨points, same⟩ := dynamicArrayPointer_ok hpointer
    exact last points same h

end Dictionary

end SpirvKernel
