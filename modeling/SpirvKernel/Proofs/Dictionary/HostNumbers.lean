import SpirvKernel.Proofs.Dictionary.DeclarationOrder
import SpirvKernel.Proofs.Dictionary.Order
import SpirvKernel.Proofs.Dictionary.Variables

/-!
# Numbers that the host sets

A group variable whose size is settled at launch has an array type of its own, with a length of its
own. The lengths are numbered from zero in the order of their declarations, and each is decorated with
its number.
-/

namespace SpirvKernel

open Instruction Attempt

namespace Instruction

def isHostNumber (i : Instruction) : Bool := i.opcode? = some .specConstant

/-- Whether an annotation tells under which number the host sets its target. -/
def isSpecId (i : Instruction) : Bool :=
  i.opcode? = some .decorate && i.operands[1]? = some Decoration.specId.number

def specNote (w : Word) (k : Nat) : Instruction :=
  .of .decorate [w, Decoration.specId.number, UInt32.ofNat k]

theorem not_isHostNumber {i : Instruction} {op : Opcode} (h : i.opcode? = some op)
    (other : op ≠ .specConstant) : i.isHostNumber = false := by
  simp [isHostNumber, h, other]

theorem map_result? {is : List Instruction} (h : ∀ i ∈ is, ∃ w, i.result? = some w) :
    is.map result? = (results is).map some := by
  induction is with
  | nil => rfl
  | cons i is ih =>
    obtain ⟨w, hw⟩ := h i List.mem_cons_self
    rw [List.map_cons, ih fun j hj => h j (List.mem_cons_of_mem i hj), results_cons, hw]
    rfl

/-- The variable has an array type of this length, which the host may set. -/
def Sizes (is : List Instruction) (length root : Word) : Prop :=
  ∃ pointer array elem word,
    .of .variable [pointer, root, StorageClass.workgroup.number] ∈ is ∧
    .of .typePointer [pointer, StorageClass.workgroup.number, array] ∈ is ∧
    .of .typeArray [array, elem, length] ∈ is ∧ .of .specConstant [word, length, 1] ∈ is

theorem Sizes.mono {is js : List Instruction} {length root : Word} (h : Sizes is length root)
    (sub : ∀ i ∈ is, i ∈ js) : Sizes js length root := by
  obtain ⟨pointer, array, elem, word, hvariable, hpointer, harray, hnumber⟩ := h
  exact ⟨pointer, array, elem, word, sub _ hvariable, sub _ hpointer, sub _ harray, sub _ hnumber⟩

end Instruction

namespace Declaration

variable {key : Declaration} {look : Declaration → Option Id} {id : Id} {i : Instruction}

theorem opcode_of_instruction? (h : key.instruction? look id = some i) :
    i.opcode? = some key.opcode := by
  have made (regular : key.Regular) : i.opcode? = some key.opcode := by
    rw [instruction?_eq regular] at h
    obtain ⟨parts, -, rfl⟩ := Option.map_eq_some_iff.mp h
    exact opcode?_of _ _
  cases key with
  | constant c =>
    obtain ⟨type, -, h⟩ := Option.bind_eq_some_iff.mp h
    cases h
    exact opcode?_of _ _
  | type t =>
    cases t with
    | pointer => cases h
    | void | bool | int | float | vector | array | struct => exact made trivial
  | pointer | signature | builtin => exact made trivial

theorem opcode_ne_specConstant (key : Declaration) : key.opcode ≠ .specConstant := by
  cases key with
  | type t => cases t <;> nofun
  | constant c =>
    cases c with
    | bool b => cases b <;> nofun
    | int | float | null => nofun
  | pointer | signature | builtin => nofun

end Declaration

namespace Dictionary

variable {d d₁ : Dictionary} {id : Id}

def hostNumbers (d : Dictionary) : List Instruction := d.declarations.filter isHostNumber

theorem hostNumbers_append {i : Instruction} (h : d₁.declarations = d.declarations ++ [i])
    (other : i.isHostNumber = false) : d₁.hostNumbers = d.hostNumbers := by
  simp [hostNumbers, h, other]

/-! ## Numbers go up -/

structure HostNumbered (d : Dictionary) : Prop where
  specIds : d.specIds = (List.range (results d.hostNumbers).length).map UInt32.ofNat
  notes : d.annotations.filter isSpecId =
    (results d.hostNumbers).zipIdx.map fun x => specNote x.1 x.2
  drawn : (results d.hostNumbers).length ≤ d.supply.next
  few : (results d.hostNumbers).length ≤ Supply.limit

theorem hostNumbered_new (supply : Supply) : (new supply).HostNumbered :=
  ⟨rfl, rfl, Nat.zero_le _, Nat.zero_le _⟩

theorem HostNumbered.keep (hd : d.HostNumbered) (numbers : d₁.hostNumbers = d.hostNumbers)
    (specIds : d₁.specIds = d.specIds)
    (notes : d₁.annotations.filter isSpecId = d.annotations.filter isSpecId)
    (next : d.supply.next ≤ d₁.supply.next) : d₁.HostNumbered := by
  constructor
  · rw [specIds, numbers, hd.specIds]
  · rw [notes, numbers, hd.notes]
  · rw [numbers]
    exact hd.drawn.trans next
  · rw [numbers]
    exact hd.few

theorem HostNumbered.length (hd : d.HostNumbered) {word : Id} (room : d.supply.next + 1 ≤ Supply.limit) :
    (d.recordLength word).HostNumbered := by
  have numbers : results (d.recordLength word).hostNumbers =
      results d.hostNumbers ++ [d.nextId.word] := by
    have last : (d.recordLength word).hostNumbers =
        d.hostNumbers ++ [.of .specConstant [word.word, d.nextId.word, 1]] := by
      simp [hostNumbers, recordLength, extend, isHostNumber]
    rw [last, results_append]
    rfl
  have count : d.specIds.length = (results d.hostNumbers).length := by simp [hd.specIds]
  have drawn := hd.drawn
  refine ⟨?_, ?_, ?_, ?_⟩ <;> rw [numbers]
  · simp [recordLength, List.range_succ, hd.specIds]
  · have note : (d.recordLength word).annotations =
        d.annotations ++ [specNote d.nextId.word (results d.hostNumbers).length] := by
      rw [recordLength, count]
      rfl
    have own : isSpecId (specNote d.nextId.word (results d.hostNumbers).length) = true := rfl
    simp [note, hd.notes, List.zipIdx_append, own]
  · simp only [List.length_append, List.length_singleton]
    exact Nat.succ_le_succ drawn
  · simp only [List.length_append, List.length_singleton]
    omega

theorem Step.numbered (h : Step d d₁) (hd : d.HostNumbered) : d₁.HostNumbered := by
  cases h with
  | need => exact hd.keep rfl rfl rfl (Nat.le_refl _)
  | reserve n => exact hd.keep rfl rfl rfl (Nat.le_add_right _ n)
  | length known room => exact hd.length room
  | unnamed made =>
    refine hd.keep (hostNumbers_append rfl ?_) rfl rfl (Nat.le_succ _)
    cases made <;> exact not_isHostNumber (opcode?_of _ _) nofun
  | @record key i new made =>
    refine hd.keep (hostNumbers_append rfl ?_) rfl ?_ (Nat.le_succ _)
    · exact not_isHostNumber (Declaration.opcode_of_instruction? made) key.opcode_ne_specConstant
    · have notes : (key.notes d.nextId).filter isSpecId = [] := by cases key <;> rfl
      rw [Dictionary.record, List.filter_append, notes, List.append_nil]

theorem Steps.numbered (h : Steps d d₁) (hd : d.HostNumbered) : d₁.HostNumbered := by
  induction h with
  | refl => exact hd
  | tail _ hs ih => exact hs.numbered ih

theorem Arranged.map_result?_hostNumbers (arranged : d.Arranged) :
    d.hostNumbers.map result? = (results d.hostNumbers).map some :=
  map_result? fun i hi => arranged.orderly.named i (List.mem_filter.mp hi).1

theorem Arranged.length_hostNumbers (arranged : d.Arranged) :
    d.hostNumbers.length = (results d.hostNumbers).length := by
  simpa using congrArg List.length arranged.map_result?_hostNumbers

theorem Arranged.nodup_hostNumbers (arranged : d.Arranged) : (results d.hostNumbers).Nodup := by
  have nodup : (results d.declarations).Nodup :=
    List.Nodup.of_map _ (arranged.ascending.imp fun h => Nat.ne_of_lt h)
  exact nodup.sublist (List.filter_sublist.filterMap _)

theorem HostNumbered.toNat_specIds (hd : d.HostNumbered) (arranged : d.Arranged) :
    d.specIds.map UInt32.toNat = List.range d.hostNumbers.length := by
  have few := hd.few
  have small : Supply.limit < 2 ^ 32 := by decide
  rw [hd.specIds, List.map_map, arranged.length_hostNumbers]
  refine (List.map_congr_left fun k hk => ?_).trans (List.map_id _)
  have hk := List.mem_range.mp hk
  exact UInt32.toNat_ofNat_of_lt' (by unfold UInt32.size; omega)

theorem filter_target {is : List Instruction} (nodup : (is.map target?).Nodup) {i : Instruction}
    (hi : i ∈ is) : is.filter (fun j => j.target? = i.target?) = [i] := by
  induction is with
  | nil => cases hi
  | cons j is ih =>
    rw [List.map_cons, List.nodup_cons] at nodup
    rcases List.mem_cons.mp hi with rfl | hi
    · have others : is.filter (fun j => j.target? = i.target?) = [] := by
        refine List.filter_eq_nil_iff.mpr fun j hj same => nodup.1 ?_
        rw [← of_decide_eq_true same]
        exact List.mem_map_of_mem hj
      rw [List.filter_cons_of_pos (by simp), others]
    · have other : ¬decide (j.target? = i.target?) = true := fun same =>
        nodup.1 (of_decide_eq_true same ▸ List.mem_map_of_mem hi)
      rw [List.filter_cons_of_neg (by simpa using other), ih nodup.2 hi]

theorem HostNumbered.decorated (hd : d.HostNumbered) (arranged : d.Arranged) {k : Nat} {i : Instruction}
    (hi : d.hostNumbers[k]? = some i) : ∃ w, i.result? = some w ∧
      d.annotations.filter (fun j => j.isSpecId && j.target? = some w) = [specNote w k] := by
  obtain ⟨w, hw⟩ := arranged.orderly.named i (List.mem_filter.mp (List.mem_of_getElem? hi)).1
  have place : (results d.hostNumbers)[k]? = some w := by
    have same := congrArg (·[k]?) arranged.map_result?_hostNumbers
    simpa [hi, hw] using same.symm
  have noted : specNote w k ∈ d.annotations.filter isSpecId := by
    rw [hd.notes]
    exact List.mem_map.mpr ⟨(w, k), List.mem_zipIdx_iff_getElem?.mpr place, rfl⟩
  have single := filter_target arranged.once (List.mem_filter.mp noted).1
  have target : (specNote w k).target? = some w := rfl
  rw [target] at single
  refine ⟨w, hw, ?_⟩
  rw [← List.filter_filter, single]
  rfl

theorem HostNumbered.only (hd : d.HostNumbered) {j : Instruction} (hj : j ∈ d.annotations)
    (note : j.isSpecId = true) : ∃ i ∈ d.hostNumbers, j.target? = i.result? := by
  have noted : j ∈ d.annotations.filter isSpecId := List.mem_filter.mpr ⟨hj, note⟩
  rw [hd.notes] at noted
  obtain ⟨⟨w, k⟩, hx, rfl⟩ := List.mem_map.mp noted
  obtain ⟨i, hi, hw⟩ := mem_results.mp (List.fst_mem_of_mem_zipIdx hx)
  exact ⟨i, hi, hw.symm⟩

/-! ## A number for each variable of open size -/

theorem perform_sameNumbers {r : Request} {key : Declaration} (h : r.key? = some key)
    (d : Dictionary) : (perform r d).2.hostNumbers = d.hostNumbers := by
  rw [perform_eq_file h]
  refine file_filter_declarations (fun made => ?_) (regular_of_key? h) d
  exact not_isHostNumber (Declaration.opcode_of_instruction? made) (Declaration.opcode_ne_specConstant _)

theorem typeId_sameNumbers {t : Ty} (h : typeId t d = (.ok id, d₁)) :
    d₁.hostNumbers = d.hostNumbers := by
  have same := perform_sameNumbers (r := .type t) rfl d
  simp only [perform] at same
  rwa [h] at same

theorem pointerId_sameNumbers {t : Ty} {storage : StorageClass}
    (h : pointerId t storage d = (.ok id, d₁)) : d₁.hostNumbers = d.hostNumbers := by
  have same := perform_sameNumbers (r := .pointer t storage) rfl d
  simp only [perform] at same
  rwa [h] at same

/-- What a request for a group variable declares: the variable and, if its size is open, a number. -/
inductive Allots (is : List Instruction) : Extent → Word × Option Word → Prop
  | settled {extent : Extent} {w : Word} (h : extent ≠ .dynamic) : Allots is extent (w, none)
  | opened {length w : Word} (h : Sizes is length w) : Allots is .dynamic (w, some length)

theorem Allots.mono {is js : List Instruction} (sub : ∀ i ∈ is, i ∈ js) {extent : Extent}
    {x : Word × Option Word} (h : Allots is extent x) : Allots js extent x := by
  cases h with
  | settled h => exact .settled h
  | opened h => exact .opened (h.mono sub)

theorem define_declarations {op : Opcode} {type : Option Id} {ws : List Word}
    (h : define op type ws d = (.ok id, d₁)) : d₁.declarations =
      d.declarations ++ [.of op ((type.map Id.word).toList ++ id.word :: ws)] := by
  obtain ⟨rfl, rfl⟩ := define_ok h
  rfl

theorem hostNumber_declarations {word : Id} (h : hostNumber word d = (.ok id, d₁)) :
    d₁.declarations = d.declarations ++ [.of .specConstant [word.word, id.word, 1]] := by
  obtain ⟨rfl, rfl⟩ := hostNumber_ok h
  rfl

theorem dynamic_allots {elem : Ty} (h : groupVariable elem .dynamic d = (.ok id, d₁)) :
    ∃ length, Sizes d₁.declarations length id.word ∧
      results d₁.hostNumbers = results d.hostNumbers ++ [length] := by
  simp only [groupVariable, dynamicArrayPointer, bind_eq_ok_iff] at h
  obtain ⟨p, d₂, ⟨word, d₃, hword, e, d₄, helem, length, d₅, hlength, array, d₆, harray, hpointer⟩,
    hvariable⟩ := h
  have declared : d₁.declarations = d₄.declarations ++
      [.of .specConstant [word.word, length.word, 1], .of .typeArray [array.word, e.word, length.word],
        .of .typePointer [p.word, StorageClass.workgroup.number, array.word],
        .of .variable [p.word, id.word, StorageClass.workgroup.number]] := by
    rw [define_declarations hvariable, define_declarations hpointer, define_declarations harray,
      hostNumber_declarations hlength]
    simp
  refine ⟨length.word, ⟨p.word, array.word, e.word, word.word, ?_⟩, ?_⟩
  · simp [declared]
  · have before : d₄.hostNumbers = d.hostNumbers :=
      (typeId_sameNumbers helem).trans (typeId_sameNumbers hword)
    have after : d₁.hostNumbers =
        d.hostNumbers ++ [.of .specConstant [word.word, length.word, 1]] := by
      rw [← before]
      simp [hostNumbers, declared, isHostNumber]
    rw [after, results_append]
    rfl

theorem settled_sameNumbers {elem : Ty} {extent : Extent} (settled : extent ≠ .dynamic)
    (h : groupVariable elem extent d = (.ok id, d₁)) : d₁.hostNumbers = d.hostNumbers := by
  have last {p : Id} {d₂ : Dictionary} (same : d₂.hostNumbers = d.hostNumbers)
      (hdefine : define .variable (some p) [StorageClass.workgroup.number] d₂ = (.ok id, d₁)) :
      d₁.hostNumbers = d.hostNumbers := by
    refine (hostNumbers_append (define_declarations hdefine) ?_).trans same
    exact not_isHostNumber (opcode?_of _ _) nofun
  unfold groupVariable at h
  cases extent with
  | dynamic => exact absurd rfl settled
  | single | fixed n =>
    obtain ⟨p, d₂, hpointer, h⟩ := bind_eq_ok_iff.mp h
    exact last (pointerId_sameNumbers hpointer) h

theorem groupVariable_allots {elem : Ty} {extent : Extent}
    (h : groupVariable elem extent d = (.ok id, d₁)) :
    ∃ length? : Option Word, Allots d₁.declarations extent (id.word, length?) ∧
      results d₁.hostNumbers = results d.hostNumbers ++ length?.toList := by
  by_cases dynamic : extent = .dynamic
  · subst dynamic
    obtain ⟨length, sizes, numbers⟩ := dynamic_allots h
    exact ⟨some length, .opened sizes, numbers⟩
  · refine ⟨none, .settled dynamic, ?_⟩
    rw [settled_sameNumbers dynamic h]
    exact (List.append_nil _).symm

/-- The extent of the group variable that is asked for. -/
def Request.extent? : Request → Option Extent
  | .groupVariable _ extent => some extent
  | _ => none

theorem extent?_of_key? {r : Request} (h : r.key?.isSome) : r.extent? = none := by
  cases r with
  | groupVariable => cases h
  | type | pointer | signature | constant | word | builtin => rfl

/-- Requests that are answered declare a variable for each that they ask for, in order. -/
theorem requests_allot {rs : List Request} {ids : List Id}
    (run : rs.mapM perform d = (.ok ids, d₁)) :
    ∃ xs, List.Forall₂ (Allots d₁.declarations) (rs.filterMap Request.extent?) xs ∧
      results (d₁.variablesIn .workgroup) = results (d.variablesIn .workgroup) ++ xs.map Prod.fst ∧
      results d₁.hostNumbers = results d.hostNumbers ++ xs.filterMap Prod.snd := by
  induction rs generalizing d ids with
  | nil =>
    obtain ⟨-, rfl⟩ := mapM_nil_ok_iff.mp run
    exact ⟨[], .nil, (List.append_nil _).symm, (List.append_nil _).symm⟩
  | cons r rs ih =>
    obtain ⟨id, rest, d₂, hr, hrest, -⟩ := mapM_cons_ok_iff.mp run
    obtain ⟨xs, allots, groups, numbers⟩ := ih hrest
    cases hkey : r.key? with
    | some key =>
      -- A request with a key adds neither a group variable nor a number.
      have sameNumbers := perform_sameNumbers hkey d
      have sameGroups := perform_sameGroups hkey d
      have asked := extent?_of_key? (r := r) (by rw [hkey]; rfl)
      rw [hr] at sameNumbers sameGroups
      rw [List.filterMap_cons_none asked]
      refine ⟨xs, allots, ?_, ?_⟩
      · rw [groups, sameGroups]
      · rw [numbers, sameNumbers]
    | none =>
      cases r with
      | type | pointer | signature | constant | word | builtin => cases hkey
      | groupVariable elem extent =>
        obtain ⟨p, -, first⟩ := groupVariable_ok hr
        obtain ⟨length?, own, firstNumber⟩ := groupVariable_allots hr
        -- What the first request declared is still there after the others.
        obtain ⟨is, _, ascends⟩ := (steps_of_requests hrest).ascends
        have kept : ∀ i ∈ d₂.declarations, i ∈ d₁.declarations := by
          intro i hi
          rw [ascends.declarations]
          exact List.mem_append_left is hi
        refine ⟨(id.word, length?) :: xs, .cons (own.mono kept) allots, ?_, ?_⟩
        · rw [groups, first, results_append, List.append_assoc]
          rfl
        · rw [numbers, firstNumber, List.append_assoc]
          cases length? <;> rfl

end Dictionary

end SpirvKernel
