import SpirvKernel.Proofs.Emission.Effect
import SpirvKernel.Proofs.Emission.Footprint
import SpirvKernel.Proofs.Kernel.Storage

/-!
# The memory of a function

Emission of storage gives each allocation of the plan a variable of its own, in the function or in the
module. What is written into the function is the variables, then the casts of those that hold arrays.
Every allocation gets the type of a pointer to its elements.
-/

namespace SpirvKernel

open Instruction Attempt

/-! ## Types of allocations -/

namespace Storage

variable {m : Method} {a : Allocation} {kind : StorageKind}

def space : StorageKind → AddressSpace
  | .item => .local
  | .group | .dynamicGroup => .shared

theorem typing_of_requested (h : a ∈ requested m kind) :
    (a.value, .pointer a.elem (space kind)) ∈ m.typings := by
  obtain ⟨v, hv, hkind, hid, hspace⟩ := mem_requested h
  rw [← hid]
  refine Method.mem_typings hv ?_
  simp only [Value.resultType?, hkind, ← hspace, kindFor]
  by_cases hshared : v.type.space? = some .shared
  · by_cases hd : a.extent = .dynamic <;> simp [hshared, hd, space]
  · simp [hshared, space]

theorem typings_ofMethod {x : ValueId × Ty} (h : x ∈ (ofMethod m).typings) : x ∈ m.typings := by
  rcases List.mem_append.mp h with h | h
  · obtain ⟨a, ha, rfl⟩ := List.mem_map.mp h
    exact typing_of_requested ha
  · obtain ⟨a, ha, rfl⟩ := List.mem_map.mp h
    rcases List.mem_append.mp ha with ha | ha
    · exact typing_of_requested ha
    · exact typing_of_requested ha

end Storage

namespace Emission

variable {t : Task} {s s' : Emission} {a : Allocation}

/-! ## Places -/

/-- A variable that holds the memory of an allocation. -/
structure Place where
  pointer : Id
  root : Id
  storage : StorageClass

namespace Place

def instruction (x : Place) : Instruction :=
  .of .variable [x.pointer.word, x.root.word, x.storage.number]

/-- What is left to do once an allocation has its variable. -/
def cast? (a : Allocation) (x : Place) : Option Cast :=
  if a.isArray then some ⟨x.root, a.value, a.elem, x.storage⟩ else none

/-- The place is right for the allocation, for the last dictionary `d` and the final names `T`. -/
structure Of (d : Dictionary) (T : IdTable) (storage : StorageClass) (a : Allocation) (x : Place) :
    Prop where
  kept : x.storage = storage
  points : d.Points storage a.elem a.extent x.pointer
  single : a.isArray = false → T.value? a.value = some x.root.word

end Place

structure Cast.Valid (t : Task) (s : Emission) (c : Cast) : Prop where
  typing : ∃ space : AddressSpace, (c.value, .pointer c.elem space) ∈ t.typings ∧
    space.storage = c.storage
  source : Available t s c.source.word

theorem Cast.Valid.mono {os : List Instruction} {ls : List Line} {c : Cast} (h : c.Valid t s)
    (hr : Run t s os ls s') : c.Valid t s' :=
  ⟨h.typing, h.source.mono hr⟩

/-- The instruction is the cast, under the name that the allocation has in the end. -/
def Cast.Written (T : IdTable) (c : Cast) (i : Instruction) : Prop :=
  ∃ type value, T.value? c.value = some value ∧ i = .of .bitcast [type, value, c.source.word]

def casts (as : List Allocation) (xs : List Place) : List Cast :=
  (List.zipWith Place.cast? as xs).filterMap id

/-- The run wrote `inside` into the function and added `outside` to the module for the places `xs`. -/
structure Sets (t : Task) (s : Emission) (storage : StorageClass) (as : List Allocation)
    (xs : List Place) (inside outside : List Instruction) (s' : Emission) : Prop where
  wrote : Wrote t s [] (fun d T is => is = inside ∧ List.Forall₂ (Place.Of d T storage) as xs) s'
  groups : s'.dictionary.variablesIn .workgroup = s.dictionary.variablesIn .workgroup ++ outside
  valid : ∀ c ∈ casts as xs, c.Valid t s'

theorem Sets.refl (t : Task) (s : Emission) (storage : StorageClass) : Sets t s storage [] [] [] [] s where
  wrote := ⟨[], .refl, fun _ _ _ _ _ => ⟨rfl, .nil⟩⟩
  groups := (List.append_nil _).symm
  valid := by simp [casts]

theorem Sets.cons {storage : StorageClass} {as : List Allocation} {x : Place} {xs : List Place}
    {i₁ i₂ o₁ o₂ : List Instruction} {s₁ : Emission} (h : Sets t s storage [a] [x] i₁ o₁ s₁)
    (h' : Sets t s₁ storage as xs i₂ o₂ s') :
    Sets t s storage (a :: as) (x :: xs) (i₁ ++ i₂) (o₁ ++ o₂) s' where
  wrote := by
    refine (h.wrote.append h'.wrote).imp ?_
    rintro d T _ ⟨_, _, rfl, ⟨rfl, hx⟩, rfl, hxs⟩
    exact ⟨rfl, .cons (List.forall₂_cons.mp hx).1 hxs⟩
  groups := by rw [h'.groups, h.groups, List.append_assoc]
  valid := by
    intro c hc
    obtain ⟨ls, run, -⟩ := h'.wrote
    cases hcast : x.cast? a with
    | none => exact h'.valid c (by simpa [casts, hcast] using hc)
    | some y =>
      have hc : c = y ∨ c ∈ casts as xs := by simpa [casts, hcast] using hc
      rcases hc with rfl | hc
      · exact (h.valid c (by simp [casts, hcast])).mono run
      · exact h'.valid c hc

theorem sets_single {storage : StorageClass} {x : Place} {inside outside : List Instruction}
    (wrote : Wrote t s [] (fun d T is => is = inside ∧ x.Of d T storage a) s')
    (groups : s'.dictionary.variablesIn .workgroup = s.dictionary.variablesIn .workgroup ++ outside)
    (valid : ∀ c, x.cast? a = some c → c.Valid t s') : Sets t s storage [a] [x] inside outside s' where
  wrote := wrote.imp fun _ _ _ h => ⟨h.1, .cons h.2 .nil⟩
  groups := groups
  valid c hc := valid c (by simpa [casts, eq_comm] using hc)

/-! ## Placing -/

theorem placeItem_sets {r : Option Cast}
    (ht : (a.value, .pointer a.elem .local) ∈ t.typings)
    (h : placeItem t a s = (.ok r, s')) :
    ∃ x : Place, r = x.cast? a ∧ Sets t s .function [a] [x] [x.instruction] [] s' := by
  have groups : KeepsGroups s s' := (made_placeItem groupless_perform t a).keepsGroups.of_ok h
  simp only [placeItem, bind_eq_ok_iff, typeOf_ok_iff, ofExcept_ok_iff, ite_ok_iff, pure_ok_iff] at h
  obtain ⟨_, _, ⟨-, rfl⟩, _, _, ⟨-, rfl⟩, held, _, ⟨hheld, rfl⟩, p, s₁, hp, h⟩ := h
  have hp := declare_ok (Dictionary.pointerId_declares _ _) hp
  have points : s₁.dictionary.Points .function a.elem a.extent p := by
    cases hextent : a.extent with
    | single =>
      obtain rfl : a.elem = held := by simpa [content, hextent] using hheld
      exact .single hp.known
    | fixed n =>
      obtain rfl : Ty.array a.elem n = held := by simpa [content, hextent] using hheld
      exact .fixed hp.known
    | dynamic => simp [content, hextent] at hheld
  rcases h with ⟨array, id, s₂, hid, _, s₃, hemit, rfl, rfl⟩ | ⟨single, id, s₂, hid, _, s₃, hemit, rfl, rfl⟩
  · obtain ⟨run, hsource⟩ :=
      compute_run (Opcode.reads_variable _) hp.available (by simp) hid hemit
    have whole := hp.run.trans run
    refine ⟨⟨p, id, .function⟩, by simp [Place.cast?, array], sets_single ?_ ?_ ?_⟩
    · refine whole.wrote [_] fun d T hd _ => ⟨rfl, rfl, ?_, by simp [array]⟩
      exact points.steps (run.advances.steps.trans hd)
    · rw [List.append_nil]
      exact groups
    · intro c hc
      obtain rfl : _ = c := by simpa [Place.cast?, array] using hc
      exact ⟨⟨.local, ht, rfl⟩, hsource⟩
  · have hsingle : a.extent = .single := by simpa [Allocation.isArray] using single
    have known : s₁.dictionary.get? (.ofType (.pointer a.elem .local)) = some p := by
      rw [hsingle] at points
      cases points with
      | single known => exact known
    have run := define_run (Opcode.reads_variable _) ht known (by simp) hid hemit
    have named : s₃.work.table.value? a.value = some id.word := by
      obtain ⟨-, -, rfl, rfl⟩ := allocate_ok_iff.mp hid
      obtain ⟨-, rfl⟩ := emit_ok_iff.mp hemit
      exact congrArg (Option.map Id.word) (named_value s₁.taken a.value s₁.nextId)
    refine ⟨⟨p, id, .function⟩, by simp [Place.cast?, single], sets_single ?_ ?_ ?_⟩
    · refine (hp.run.trans run).wrote [_] fun d T hd hT => ⟨rfl, rfl, ?_, fun _ => hT.value? named⟩
      exact points.steps (run.advances.steps.trans hd)
    · rw [List.append_nil]
      exact groups
    · simp [Place.cast?, single]

theorem placeGroup_sets {r : Option Cast}
    (ht : (a.value, .pointer a.elem .shared) ∈ t.typings)
    (h : placeGroup a s = (.ok r, s')) :
    ∃ x : Place, r = x.cast? a ∧ Sets t s .workgroup [a] [x] [] [x.instruction] s' := by
  simp only [placeGroup, bind_eq_ok_iff, ite_ok_iff, pure_ok_iff] at h
  obtain ⟨id, s₁, hid, h⟩ := h
  obtain ⟨d, hd, rfl⟩ := onPart_ok_iff.mp hid
  obtain ⟨p, points, groups⟩ := Dictionary.groupVariable_ok hd
  have steps := (Dictionary.groupVariable_runs a.elem a.extent s.dictionary).steps
  rw [hd] at steps
  have made : .of .variable [p.word, id.word, StorageClass.workgroup.number] ∈ d.declarations := by
    have last : .of .variable [p.word, id.word, StorageClass.workgroup.number] ∈
        d.variablesIn .workgroup := by simp [groups]
    exact (List.mem_filter.mp last).1
  have run : Run t s [] [] { s with dictionary := d } := (Step.declare steps).run
  rcases h with ⟨array, rfl, rfl⟩ | ⟨single, _, s₂, hbind, rfl, rfl⟩
  · refine ⟨⟨p, id, .workgroup⟩, by simp [Place.cast?, array], sets_single ?_ groups ?_⟩
    · exact run.wrote [] fun _ _ hd _ => ⟨rfl, rfl, points.steps hd, by simp [array]⟩
    · intro c hc
      obtain rfl : _ = c := by simpa [Place.cast?, array] using hc
      have source : Available t { s with dictionary := d } id.word :=
        .declared (.inl (Instruction.mem_results.mpr ⟨_, made, rfl⟩))
      exact ⟨⟨.shared, ht, rfl⟩, source⟩
  · have hsingle : a.extent = .single := by simpa [Allocation.isArray] using single
    obtain ⟨new, rfl⟩ := bind_ok_iff.mp hbind
    have known : d.get? (.ofType (.pointer a.elem .shared)) = some p := by
      rw [hsingle] at points
      cases points with
      | single known => exact known
    have whole := run.trans (Step.bind new ht (.groupVariable known made)).run
    have named : (named { s with dictionary := d } (.value a.value) id).work.table.value? a.value =
        some id.word := congrArg (Option.map Id.word) (named_value _ a.value id)
    refine ⟨⟨p, id, .workgroup⟩, by simp [Place.cast?, single], sets_single ?_ groups ?_⟩
    · exact whole.wrote [] fun _ _ hd hT => ⟨rfl, rfl, points.steps hd, fun _ => hT.value? named⟩
    · simp [Place.cast?, single]

theorem mapM_sets {f : Allocation → Emit (Option Cast)} {as : List Allocation}
    {rs : List (Option Cast)} {storage : StorageClass} (inner outer : Place → List Instruction)
    (hf : ∀ a ∈ as, ∀ s r s', f a s = (.ok r, s') →
      ∃ x : Place, r = x.cast? a ∧ Sets t s storage [a] [x] (inner x) (outer x) s')
    (h : as.mapM f s = (.ok rs, s')) :
    ∃ xs : List Place, rs = List.zipWith Place.cast? as xs ∧
      Sets t s storage as xs (xs.flatMap inner) (xs.flatMap outer) s' := by
  induction as generalizing s rs with
  | nil =>
    obtain ⟨rfl, rfl⟩ := mapM_nil_ok_iff.mp h
    exact ⟨[], rfl, .refl t s storage⟩
  | cons a as ih =>
    obtain ⟨r, rest, s₁, hr, hrest, rfl⟩ := mapM_cons_ok_iff.mp h
    obtain ⟨x, rfl, first⟩ := hf a List.mem_cons_self s r s₁ hr
    obtain ⟨xs, rfl, rest⟩ := ih (fun b hb => hf b (List.mem_cons_of_mem a hb)) hrest
    exact ⟨x :: xs, rfl, first.cons rest⟩

theorem emitCast_wrote {c : Cast} (hc : c.Valid t s) (h : emitCast c s = (.ok (), s')) :
    Wrote t s [] (fun _ T is => ∃ i, is = [i] ∧ c.Written T i) s' := by
  obtain ⟨⟨space, typing, hspace⟩, source⟩ := hc
  simp only [emitCast, bind_eq_ok_iff] at h
  obtain ⟨p, s₁, hp, id, s₂, hid, h⟩ := h
  have hp := declare_ok (Dictionary.pointerId_declares _ _) hp
  have known : s₁.dictionary.get? (.ofType (.pointer c.elem space)) = some p := by
    rw [Declaration.ofType, hspace]; exact hp.known
  have run := define_run (Opcode.reads_computation rfl _) typing known
    (by simpa using source.mono hp.run) hid h
  have named : s'.work.table.value? c.value = some id.word := by
    obtain ⟨-, -, rfl, rfl⟩ := allocate_ok_iff.mp hid
    obtain ⟨-, rfl⟩ := emit_ok_iff.mp h
    exact congrArg (Option.map Id.word) (named_value s₁.taken c.value s₁.nextId)
  exact (hp.run.trans run).wrote [_] fun _ T _ hT => ⟨_, rfl, _, _, hT.value? named, rfl⟩

theorem emitCasts_wrote {cs : List Cast} (hcs : ∀ c ∈ cs, c.Valid t s)
    (h : cs.forM emitCast s = (.ok (), s')) :
    Wrote t s [] (fun _ T is => List.Forall₂ (Cast.Written T) cs is) s' := by
  induction cs generalizing s with
  | nil =>
    obtain rfl := forM_nil_ok_iff.mp h
    exact ⟨[], .refl, fun _ _ _ _ _ => .nil⟩
  | cons c cs ih =>
    obtain ⟨s₁, hc, h⟩ := forM_cons_ok_iff.mp h
    have first := emitCast_wrote (hcs c List.mem_cons_self) hc
    have rest := ih (fun d hd => by
      obtain ⟨ls, run, -⟩ := first
      exact (hcs d (List.mem_cons_of_mem c hd)).mono run) h
    refine (first.append rest).imp ?_
    rintro d T _ ⟨_, _, rfl, ⟨i, rfl, written⟩, hall⟩
    exact .cons written hall

/-! ## The whole memory of a method -/

/-- The variables for the allocations of a work item and of the group. -/
structure Memory where
  items : List Place
  groups : List Place

namespace Memory

/-- The place is right for the allocation, for the last dictionary `d` and the final names `T`. -/
structure Of (d : Dictionary) (T : IdTable) (plan : Storage) (is : List Instruction) (x : Memory) :
    Prop where
  items : List.Forall₂ (Place.Of d T .function) plan.item x.items
  groups : List.Forall₂ (Place.Of d T .workgroup) (plan.group ++ plan.dynamicGroup) x.groups
  code : ∃ js, is = x.items.map Place.instruction ++ js ∧
    List.Forall₂ (Cast.Written T) (casts plan.item x.items ++
      casts (plan.group ++ plan.dynamicGroup) x.groups) js

variable {d : Dictionary} {T : IdTable} {plan : Storage} {is : List Instruction} {x : Memory}

theorem Of.mem (h : x.Of d T plan is) {i : Instruction} (hi : i ∈ is) :
    (∃ y ∈ x.items, i = y.instruction) ∨ ∃ type value source, i = .of .bitcast [type, value, source] := by
  obtain ⟨js, rfl, hall⟩ := h.code
  rcases List.mem_append.mp hi with hi | hi
  · obtain ⟨y, hy, rfl⟩ := List.mem_map.mp hi
    exact .inl ⟨y, hy, rfl⟩
  · obtain ⟨c, -, type, value, -, rfl⟩ := exists_left_of_forall₂ hall hi
    exact .inr ⟨type, value, _, rfl⟩

theorem Of.quiet (h : x.Of d T plan is) : Quiet is := by
  intro i hi wide
  rcases h.mem hi with ⟨y, -, rfl⟩ | ⟨type, value, source, rfl⟩ <;> rfl

theorem Of.inner (h : x.Of d T plan is) : ∀ i ∈ is, i.isInner = true := by
  intro i hi
  rcases h.mem hi with ⟨y, -, rfl⟩ | ⟨type, value, source, rfl⟩ <;> rfl

end Memory

/-- The variables of the group that a run from `s` to `s'` added to the module. -/
def AddsGroups (s : Emission) (groups : List Place) (s' : Emission) : Prop :=
  s'.dictionary.variablesIn .workgroup =
    s.dictionary.variablesIn .workgroup ++ groups.map Place.instruction

theorem KeepsGroups.addsGroups {s₁ : Emission} {groups : List Place} (h : KeepsGroups s s₁)
    (h' : AddsGroups s₁ groups s') : AddsGroups s groups s' := by
  unfold AddsGroups
  rw [h', h]

theorem AddsGroups.keepsGroups {s₁ : Emission} {groups : List Place} (h : AddsGroups s groups s₁)
    (h' : KeepsGroups s₁ s') : AddsGroups s groups s' := by
  unfold AddsGroups
  rw [h', h]

/-- The run from `s` to `s'` set up the memory that the plan asks for. -/
def Lays (t : Task) (s : Emission) (plan : Storage) (s' : Emission) : Prop :=
  ∃ x : Memory, AddsGroups s x.groups s' ∧ Wrote t s [] (fun d T is => x.Of d T plan is) s'

theorem emitStorage_lays (h : emitStorage t s = (.ok (), s')) : Lays t s t.storage s' := by
  simp only [emitStorage, bind_eq_ok_iff] at h
  obtain ⟨_, s₁, hitems, _, s₂, hgroups, h⟩ := h
  obtain ⟨items, rfl, first⟩ := mapM_sets (fun x => [x.instruction]) (fun _ => [])
    (fun a ha s r s' => placeItem_sets (List.mem_append_right _
      (List.mem_append_left _ (List.mem_map_of_mem ha)))) hitems
  obtain ⟨groups, rfl, second⟩ := mapM_sets (fun _ => []) (fun x => [x.instruction])
    (fun a ha s r s' => placeGroup_sets (List.mem_append_right _
      (List.mem_append_right _ (List.mem_map_of_mem ha)))) hgroups
  rw [List.filterMap_append] at h
  have valid : ∀ c ∈ casts t.storage.item items ++
      casts (t.storage.group ++ t.storage.dynamicGroup) groups, c.Valid t s₂ := by
    intro c hc
    rcases List.mem_append.mp hc with hc | hc
    · obtain ⟨ls, run, -⟩ := second.wrote
      exact (first.valid c hc).mono run
    · exact second.valid c hc
  have kept : KeepsGroups s₂ s' :=
    (made_forM (made_emitCast groupless_perform) _).keepsGroups.of_ok h
  have nothing (xs : List Place) : (xs.flatMap fun _ => []) = ([] : List Instruction) := by simp
  have single (xs : List Place) : (xs.flatMap fun x => [x.instruction]) = xs.map Place.instruction :=
    List.map_eq_flatMap.symm
  refine ⟨⟨items, groups⟩, ?_, ?_⟩
  · rw [AddsGroups, kept, second.groups, first.groups, nothing, single, List.append_nil]
  · refine ((first.wrote.append second.wrote).append (emitCasts_wrote valid h)).imp ?_
    rintro d T _ ⟨_, js, rfl, ⟨_, _, rfl, ⟨rfl, hitems⟩, rfl, hgroups⟩, hall⟩
    exact ⟨hitems, hgroups, js, by rw [nothing, single, List.append_nil], hall⟩

end Emission

end SpirvKernel
