import SpirvKernel.Proofs.Dictionary.Closure

/-!
# Capabilities

Some declarations call for a capability: integers and floats of unusual width, and generic pointers.
The dictionary notes the capability before it makes the declaration, so a request that fails may leave
one that nothing calls for. As long as no request fails there are none such.
-/

namespace SpirvKernel

/-- The capability that an instruction calls for. -/
def Instruction.capability? (i : Instruction) : Option Capability :=
  match i.opcode?, i.operands with
  | some .typeInt, _ :: width :: _ =>
    if width = 8 then some .int8
    else if width = 16 then some .int16
    else if width = 64 then some .int64
    else none
  | some .typeFloat, _ :: width :: _ =>
    if width = 16 then some .float16
    else if width = 64 then some .float64
    else none
  | some .typePointer, _ :: storage :: _ =>
    if storage = StorageClass.generic.number then some .genericPointer else none
  | _, _ => none

theorem Declaration.capability?_instruction {key : Declaration} (regular : key.Regular) (id : Id)
    (parts : List Id) : (key.instruction id parts).capability? = key.capability? := by
  cases key with
  | type t =>
    cases t with
    | int w => cases w <;> rfl
    | float w => cases w <;> rfl
    | pointer => cases regular
    | void | bool | vector | array | struct => rfl
  | pointer pointee storage => cases storage <;> rfl
  | constant c =>
    cases c with
    | bool b => cases b <;> rfl
    | int | float | null => rfl
  | signature | builtin => rfl

namespace Dictionary

open Attempt

/-- Some declaration calls for the capability. -/
def Demands (d : Dictionary) (c : Capability) : Prop :=
  ∃ i ∈ d.declarations, i.capability? = some c

/-- All that declarations call for is noted. -/
def Licensed (d : Dictionary) : Prop := ∀ c, d.Demands c → c ∈ d.capabilities

/-- What `d₁` has noted more than `d` is called for. -/
structure Earned (d d₁ : Dictionary) : Prop where
  declarations : d.declarations ⊆ d₁.declarations
  capabilities : ∀ c ∈ d₁.capabilities, c ∈ d.capabilities ∨ d₁.Demands c

variable {d d₁ d₂ : Dictionary} {key : Declaration} {α β : Type}

theorem Demands.mono {c : Capability} (h : d.Demands c) (sub : d.declarations ⊆ d₁.declarations) :
    d₁.Demands c := by
  obtain ⟨i, hi, hc⟩ := h
  exact ⟨i, sub hi, hc⟩

theorem Earned.refl (d : Dictionary) : Earned d d := ⟨List.Subset.refl _, fun _ => .inl⟩

theorem Earned.trans (h : Earned d d₁) (h' : Earned d₁ d₂) : Earned d d₂ where
  declarations := List.Subset.trans h.declarations h'.declarations
  capabilities c hc := by
    rcases h'.capabilities c hc with hc | demanded
    · exact (h.capabilities c hc).imp_right (·.mono h'.declarations)
    · exact .inr demanded

/-! ## Requests for keys -/

theorem Files.licensed {n : Nat} (h : Files n d d₁) (hd : d.Licensed) : d₁.Licensed := by
  induction h with
  | refl => exact hd
  | tail _ step ih =>
    cases step with
    | need => exact fun c demanded => CapabilitySet.mem_insert.mpr (.inr (ih c demanded))
    | @record key parts light regular able =>
      rintro c ⟨i, hi, hc⟩
      rcases List.mem_append.mp hi with hi | hi
      · exact ih c ⟨i, hi, hc⟩
      · rw [List.mem_singleton.mp hi, Declaration.capability?_instruction regular] at hc
        exact able c hc

theorem file_licensed (regular : key.Regular) (hd : d.Licensed) : (file key d).2.Licensed := by
  have ends := file_ends regular d
  generalize file key d = r at ends
  cases ends with
  | done files | failed files => exact files.licensed hd
  | wasted files => exact files.licensed hd

theorem make_earned {parts : List Id} {id : Id} (run : make key parts d = (.ok id, d₁)) :
    d₁.declarations = d.declarations ++ [key.instruction d.nextId parts] ∧
      d₁.capabilities = d.capabilities := by
  unfold make at run
  dsimp only at run
  split at run
  · split at run
    · cases run
      exact ⟨rfl, rfl⟩
    · cases run
  · cases run

theorem mapM_file_earned {keys : List Declaration} {ids : List Id}
    (each : ∀ key ∈ keys, ∀ d id d₁, file key d = (.ok id, d₁) → Earned d d₁)
    (run : keys.mapM file d = (.ok ids, d₁)) : Earned d d₁ := by
  induction keys generalizing d ids with
  | nil =>
    obtain ⟨-, rfl⟩ := mapM_nil_ok_iff.mp run
    exact .refl d
  | cons key keys ih =>
    obtain ⟨id, rest, d', hkey, hkeys, -⟩ := mapM_cons_ok_iff.mp run
    have first := each key List.mem_cons_self d id d' hkey
    exact first.trans (ih (fun k hk => each k (List.mem_cons_of_mem _ hk)) hkeys)

theorem file_earned (regular : key.Regular) {id : Id} (run : file key d = (.ok id, d₁)) :
    Earned d d₁ := by
  -- The capability is noted first and called for last, by the declaration of the key.
  induction hw : key.weight using Nat.strongRecOn generalizing key d id d₁ with
  | _ n ih =>
    subst hw
    cases hk : d.get? key with
    | some id' =>
      rw [file_known hk] at run
      cases run
      exact .refl d
    | none =>
      rw [file_unknown hk] at run
      simp only [bind_eq_ok_iff] at run
      obtain ⟨_, d₂, hneed, parts, d₃, hparts, id', d₄, hmake, _, d₅, hchange, hpure⟩ := run
      obtain ⟨-, rfl⟩ := pure_ok_iff.mp hpure
      obtain ⟨-, rfl⟩ := change_ok_iff.mp hchange
      have needed : d₂.declarations = d.declarations ∧
          ∀ c ∈ d₂.capabilities, c ∈ d.capabilities ∨ key.capability? = some c := by
        cases hc : key.capability? with
        | none =>
          rw [hc] at hneed
          cases hneed
          exact ⟨rfl, fun _ => .inl⟩
        | some c =>
          rw [hc] at hneed
          cases hneed
          refine ⟨rfl, fun c' hc' => ?_⟩
          rcases CapabilitySet.mem_insert.mp hc' with rfl | hc'
          · exact .inr rfl
          · exact .inl hc'
      have parts_earned : Earned d₂ d₃ := by
        refine mapM_file_earned (fun part hp d id d₁ run => ?_) hparts
        exact ih part.weight (Declaration.weight_of_mem_parts hp)
          (Declaration.regular_of_mem_parts hp) run rfl
      obtain ⟨declared, same⟩ := make_earned hmake
      have own : key.instruction d₃.nextId parts ∈ d₄.declarations := by
        rw [declared]
        exact List.mem_append_right _ List.mem_cons_self
      have more : d₃.declarations ⊆ d₄.declarations := by
        rw [declared]
        exact List.subset_append_left _ _
      constructor
      · rw [← needed.1]
        exact List.Subset.trans parts_earned.declarations more
      · intro c hc
        change c ∈ d₄.capabilities at hc
        rw [same] at hc
        rcases parts_earned.capabilities c hc with hc | demanded
        · refine (needed.2 c hc).imp_right fun hc => ⟨_, own, ?_⟩
          rw [Declaration.capability?_instruction regular, hc]
        · exact .inr (demanded.mono more)

/-! ## All requests -/

/-- Nothing called for is missing after the run, and if it succeeds nothing more is noted. -/
structure KeepsToDemands (x : Declare α) (d : Dictionary) : Prop where
  licensed : d.Licensed → (x d).2.Licensed
  earned : ∀ a, (x d).1 = .ok a → Earned d (x d).2

theorem KeepsToDemands.bind {x : Declare α} {f : α → Declare β} (hx : KeepsToDemands x d)
    (hf : ∀ a d₁, KeepsToDemands (f a) d₁) : KeepsToDemands (x >>= f) d := by
  obtain ⟨licensed, earned⟩ := hx
  have run : (d.Licensed → ((x >>= f) d).2.Licensed) ∧
      ∀ b, ((x >>= f) d).1 = .ok b → Earned d ((x >>= f) d).2 := by
    rw [bind_apply]
    rcases h : x d with ⟨e | a, d₁⟩ <;> rw [h] at licensed earned
    · exact ⟨licensed, by rintro _ ⟨⟩⟩
    · exact ⟨fun hd => (hf a d₁).licensed (licensed hd),
        fun b hb => (earned a rfl).trans ((hf a d₁).earned b hb)⟩
  exact ⟨run.1, run.2⟩

theorem keepsToDemands_of_same {x : Declare α} (declarations : (x d).2.declarations = d.declarations)
    (capabilities : (x d).2.capabilities = d.capabilities) : KeepsToDemands x d where
  licensed hd := by
    unfold Licensed Demands
    rwa [declarations, capabilities]
  earned _ _ := by
    refine ⟨?_, fun c hc => .inl (capabilities ▸ hc)⟩
    rw [declarations]
    exact List.Subset.refl _

theorem keepsToDemands_file (regular : key.Regular) (d : Dictionary) : KeepsToDemands (file key) d :=
  ⟨file_licensed regular, fun _ hid => file_earned regular (Prod.ext hid rfl)⟩

theorem keepsToDemands_define {op : Opcode} {type : Option Id} {operands : List Word}
    (plain : ∀ id : Id, (Instruction.of op
      ((type.map Id.word).toList ++ id.word :: operands)).capability? = none) (d : Dictionary) :
    KeepsToDemands (define op type operands) d := by
  have extended {i : Instruction} (hi : i.capability? = none) :
      (d.Licensed → (d.extend i).Licensed) ∧ Earned d (d.extend i) := by
    refine ⟨?_, List.subset_append_left _ _, fun _ => .inl⟩
    rintro hd c ⟨j, hj, hc⟩
    rcases List.mem_append.mp hj with hj | hj
    · exact hd c ⟨j, hj, hc⟩
    · rw [List.mem_singleton.mp hj, hi] at hc
      cases hc
  have run := define_apply op type operands d
  dsimp only at run
  split at run
  · split at run
    · obtain ⟨licensed, earned⟩ := extended (plain d.nextId)
      exact ⟨by rwa [run], fun _ _ => by rwa [run]⟩
    · exact keepsToDemands_of_same (by rw [run]) (by rw [run])
  · exact keepsToDemands_of_same (by rw [run]) (by rw [run])

theorem keepsToDemands_hostNumber (word : Id) (d : Dictionary) : KeepsToDemands (hostNumber word) d := by
  refine (keepsToDemands_define (fun _ => rfl) d).bind fun id d₁ => ?_
  refine (keepsToDemands_of_same rfl rfl).bind fun state d₂ => ?_
  refine (keepsToDemands_of_same rfl rfl).bind fun _ d₃ => ?_
  exact (keepsToDemands_of_same rfl rfl).bind fun _ _ => keepsToDemands_of_same rfl rfl

theorem keepsToDemands_groupVariable (elem : Ty) (extent : Extent) (d : Dictionary) :
    KeepsToDemands (groupVariable elem extent) d := by
  have last (pointer : Id) (d : Dictionary) :
      KeepsToDemands (define .variable (some pointer) [StorageClass.workgroup.number]) d :=
    keepsToDemands_define (fun _ => rfl) d
  cases extent with
  | single =>
    refine KeepsToDemands.bind ?_ last
    rw [pointerId_eq_file]
    exact keepsToDemands_file (Declaration.regular_pointer _ _) d
  | fixed n =>
    refine KeepsToDemands.bind ?_ last
    rw [pointerId_eq_file]
    exact keepsToDemands_file (Declaration.regular_pointer _ _) d
  | dynamic =>
    refine KeepsToDemands.bind ?_ last
    simp only [dynamicArrayPointer, typeId_eq_file]
    refine (keepsToDemands_file (Declaration.regular_ofType _) d).bind fun word d₁ => ?_
    refine (keepsToDemands_file (Declaration.regular_ofType _) d₁).bind fun e d₂ => ?_
    refine (keepsToDemands_hostNumber word d₂).bind fun length d₃ => ?_
    refine (keepsToDemands_define (fun _ => rfl) d₃).bind fun array d₄ => ?_
    exact keepsToDemands_define (fun _ => rfl) d₄

theorem keepsToDemands_perform (r : Request) (d : Dictionary) : KeepsToDemands (perform r) d := by
  cases hkey : r.key? with
  | some key =>
    rw [perform_eq_file hkey]
    exact keepsToDemands_file (regular_of_key? hkey) d
  | none =>
    cases r with
    | groupVariable elem extent => exact keepsToDemands_groupVariable elem extent d
    | type | pointer | signature | constant | word | builtin => cases hkey

theorem licensed_new (supply : Supply) : (new supply).Licensed := by
  rintro c ⟨i, hi, -⟩
  cases hi

theorem performAll_licensed (rs : List Request) {d : Dictionary} (hd : d.Licensed) :
    (performAll rs d).2.Licensed := by
  induction rs generalizing d with
  | nil => exact hd
  | cons r rs ih => exact ih ((keepsToDemands_perform r d).licensed hd)

theorem performAll_earned {rs : List Request} {d : Dictionary}
    (answered : allAnswered (performAll rs d).1) :
    Earned d (performAll rs d).2 := by
  induction rs generalizing d with
  | nil => exact .refl d
  | cons r rs ih =>
    obtain ⟨first, rest⟩ : (perform r d).1.isOk ∧ allAnswered (performAll rs (perform r d).2).1 := by
      simpa [allAnswered, performAll] using answered
    obtain ⟨id, hid⟩ : ∃ id, (perform r d).1 = .ok id := by
      cases h : (perform r d).1 with
      | error => rw [h] at first; cases first
      | ok id => exact ⟨id, rfl⟩
    exact ((keepsToDemands_perform r d).earned id hid).trans (ih rest)

end Dictionary

end SpirvKernel
