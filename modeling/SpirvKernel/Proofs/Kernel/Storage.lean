import Mathlib.Logic.ExistsUnique
import SpirvKernel.Kernel.Storage
import SpirvKernel.Proofs.WellFormed

/-!
# Storage plans

The plan of a method deals its allocations into three lists. Every allocation comes into the one list
that its pointer and its extent ask for, and each list keeps the order of the method. Where values have
names of their own, the list that a name stands in tells its kind.
-/

namespace SpirvKernel

namespace Storage

/-- The value asks for the allocation, in group memory if it points to shared memory. -/
inductive Reserves : Value → StorageKind → Allocation → Prop
  | item {id : ValueId} {type elem : Ty} {extent : Extent}
      (own : ∀ pointee, type ≠ .pointer pointee .shared) :
      Reserves ⟨id, type, .alloca elem extent⟩ .item ⟨id, elem, extent⟩
  | group {id : ValueId} {pointee elem : Ty} {extent : Extent} (known : extent ≠ .dynamic) :
      Reserves ⟨id, .pointer pointee .shared, .alloca elem extent⟩ .group ⟨id, elem, extent⟩
  | dynamicGroup {id : ValueId} {pointee elem : Ty} :
      Reserves ⟨id, .pointer pointee .shared, .alloca elem .dynamic⟩ .dynamicGroup
        ⟨id, elem, .dynamic⟩

variable {m : Method} {v : Value} {a : Allocation} {kind : StorageKind}

/-! ## Requests -/

theorem isSome_request? (v : Value) : (request? v).isSome = v.kind.isAlloca := by
  unfold request? ValueKind.isAlloca
  cases v.kind <;> rfl

theorem value_request? {x : StorageKind × Allocation} (h : request? v = some x) :
    x.2.value = v.id := by
  unfold request? at h
  split at h
  · cases h
    rfl
  · cases h

theorem any_request? (v : Value) (q : StorageKind × Allocation → Bool) :
    (request? v).any q = match v.kind with
      | .alloca elem extent => q (kindFor v.type extent, ⟨v.id, elem, extent⟩)
      | _ => false := by
  unfold request?
  cases v.kind <;> rfl

theorem values_requests (q : StorageKind × Allocation → Bool) (vs : List Value) :
    ((vs.filterMap request?).filter q).map (·.2.value) =
      (vs.filter fun v => (request? v).any q).map (·.id) := by
  induction vs with
  | nil => rfl
  | cons v vs ih =>
    rw [List.filterMap_cons, List.filter_cons]
    cases hv : request? v with
    | none => simpa using ih
    | some x =>
      have hid := value_request? hv
      cases hq : q x <;> simp [hq, hid, ih]

theorem space?_eq_shared_iff {type : Ty} :
    type.space? = some .shared ↔ ∃ pointee, type = .pointer pointee .shared := by
  cases type <;> simp [Ty.space?]

theorem request?_eq_some_iff : request? v = some (kind, a) ↔ Reserves v kind a := by
  obtain ⟨id, type, vkind⟩ := v
  constructor
  · intro h
    unfold request? at h
    split at h
    · rename_i elem extent hkind
      cases hkind
      unfold kindFor at h
      split at h
      · rename_i hshared
        obtain ⟨pointee, rfl⟩ := space?_eq_shared_iff.mp hshared
        split at h
        · rename_i hdynamic
          cases hdynamic
          cases h
          exact .dynamicGroup
        · rename_i hknown
          cases h
          exact .group hknown
      · rename_i hown
        cases h
        exact .item fun pointee hp => hown (space?_eq_shared_iff.mpr ⟨pointee, hp⟩)
    · cases h
  · intro h
    cases h with
    | item own =>
      have hown : type.space? ≠ some .shared := fun hs => by
        obtain ⟨pointee, hp⟩ := space?_eq_shared_iff.mp hs
        exact own pointee hp
      simp [request?, kindFor, hown]
    | group known => simp [request?, kindFor, Ty.space?, known]
    | dynamicGroup => simp [request?, kindFor, Ty.space?]

theorem Reserves.isAlloca (h : Reserves v kind a) : v.kind.isAlloca = true := by
  cases h <;> rfl

theorem exists_reserves_of_isAlloca (h : v.kind.isAlloca = true) : ∃ kind a, Reserves v kind a := by
  rw [← isSome_request?, Option.isSome_iff_exists] at h
  obtain ⟨⟨kind, a⟩, hrequest⟩ := h
  exact ⟨kind, a, request?_eq_some_iff.mp hrequest⟩

theorem Reserves.unique {kind' : StorageKind} {a' : Allocation} (h : Reserves v kind a)
    (h' : Reserves v kind' a') : kind = kind' ∧ a = a' := by
  have heq := (request?_eq_some_iff.mpr h).symm.trans (request?_eq_some_iff.mpr h')
  simpa using heq

/-- What a value asks for, if it is an allocation of the kind. -/
def requestOf? (kind : StorageKind) (v : Value) : Option Allocation :=
  match request? v with
  | some (k, a) => if k = kind then some a else none
  | none => none

theorem requestOf?_eq_some_iff : requestOf? kind v = some a ↔ Reserves v kind a := by
  rw [← request?_eq_some_iff, requestOf?]
  cases request? v with
  | none => simp
  | some x => by_cases hx : x.1 = kind <;> simp [hx, Prod.ext_iff]

/-! ## Plans -/

theorem get_ofMethod (m : Method) (kind : StorageKind) : (ofMethod m).get kind = requested m kind := by
  cases kind <;> rfl

theorem requested_eq (m : Method) (kind : StorageKind) :
    requested m kind = ((m.values.filterMap request?).filter (·.1 = kind)).map Prod.snd := by
  unfold requested
  induction m.values with
  | nil => rfl
  | cons v vs ih =>
    rw [List.filterMap_cons, List.filterMap_cons]
    cases request? v with
    | none => exact ih
    | some x => by_cases hx : x.1 = kind <;> simp [hx, ih]

theorem mem_get_ofMethod {elem : Ty} {extent : Extent} (hv : v ∈ m.values)
    (hk : v.kind = .alloca elem extent) :
    ⟨v.id, elem, extent⟩ ∈ (ofMethod m).get (kindFor v.type extent) := by
  rw [get_ofMethod, requested, List.mem_filterMap]
  exact ⟨v, hv, by simp [request?, hk]⟩

theorem mem_requested (h : a ∈ requested m kind) : ∃ v ∈ m.values,
    v.kind = .alloca a.elem a.extent ∧ v.id = a.value ∧ kindFor v.type a.extent = kind := by
  obtain ⟨v, hv, ha⟩ := List.mem_filterMap.mp h
  refine ⟨v, hv, ?_⟩
  unfold request? at ha
  split at ha
  · rename_i k b hrequest
    split at hrequest
    · cases hrequest
      split at ha <;> cases ha
      rename_i hkind hk
      exact ⟨hkind, rfl, hk⟩
    · cases hrequest
  · cases ha

/-- All allocations of a plan, in the order in which they are placed. -/
def all (s : Storage) : List Allocation := s.item ++ (s.group ++ s.dynamicGroup)

theorem all_ofMethod_perm (m : Method) :
    (ofMethod m).all.Perm ((m.values.filterMap request?).map Prod.snd) := by
  simp only [all, ofMethod, requested]
  induction m.values with
  | nil => exact .refl _
  | cons v vs ih =>
    simp only [List.filterMap_cons]
    cases request? v with
    | none => exact ih
    | some request =>
      obtain ⟨kind, a⟩ := request
      cases kind with
      | item => exact ih.cons a
      | group => exact List.perm_middle.trans (ih.cons a)
      | dynamicGroup =>
        refine (List.Perm.append_left _ List.perm_middle).trans ?_
        exact List.perm_middle.trans (ih.cons a)

theorem values_ofMethod_perm (m : Method) :
    ((ofMethod m).all.map (·.value)).Perm ((m.values.filter (·.kind.isAlloca)).map (·.id)) := by
  refine ((all_ofMethod_perm m).map _).trans (.of_eq ?_)
  have every := values_requests (fun _ => true) m.values
  simp only [List.filter_true, Option.any_true, isSome_request?] at every
  rw [← every, List.map_map]
  rfl

theorem size_ofMethod (m : Method) : (ofMethod m).size = m.values.countP (·.kind.isAlloca) := by
  have hlength := (values_ofMethod_perm m).length_eq
  simpa [all, size, Nat.add_assoc, List.countP_eq_length_filter] using hlength

/-! ## Kinds -/

theorem isSome_kindOf?_ofMethod (hv : v ∈ m.values) (ha : v.kind.isAlloca = true) :
    ((ofMethod m).kindOf? v.id).isSome := by
  obtain ⟨elem, extent, hk⟩ := ValueKind.isAlloca_iff.mp ha
  rw [kindOf?, List.find?_isSome]
  refine ⟨kindFor v.type extent, ?_, ?_⟩
  · cases kindFor v.type extent <;> simp
  · rw [List.any_eq_true]
    exact ⟨_, mem_get_ofMethod hv hk, by simp⟩

theorem exists_reserves_of_kindOf? {id : ValueId} (h : (ofMethod m).kindOf? id = some kind) :
    ∃ v ∈ m.values, v.id = id ∧ ∃ a, Reserves v kind a := by
  unfold kindOf? at h
  have hlisted := List.find?_some h
  obtain ⟨a, ha, hid⟩ := List.any_eq_true.mp hlisted
  rw [get_ofMethod] at ha
  obtain ⟨v, hv, hrequest⟩ := List.mem_filterMap.mp ha
  have hreserves := requestOf?_eq_some_iff.mp hrequest
  refine ⟨v, hv, ?_, a, hreserves⟩
  have hvalue : a.value = v.id := value_request? (request?_eq_some_iff.mpr hreserves)
  rw [← hvalue]
  exact of_decide_eq_true hid

/-! ## Places -/

/-- The positions at which a list has members with the property. -/
def places {α : Type} (p : α → Bool) (l : List α) : List Nat :=
  (List.range l.length).filter fun i => l[i]?.any p

section

variable {α β : Type} {p : α → Bool} {f : α → Option β} {l : List α}

theorem mem_places {i : Nat} : i ∈ places p l ↔ ∃ x, l[i]? = some x ∧ p x = true := by
  rw [places, List.mem_filter, List.mem_range, Option.any_eq_true]
  constructor
  · rintro ⟨-, h⟩
    exact h
  · rintro ⟨x, hx, hp⟩
    exact ⟨(List.getElem?_eq_some_iff.mp hx).1, x, hx, hp⟩

theorem places_ascend (p : α → Bool) (l : List α) : (places p l).Pairwise (· < ·) :=
  List.pairwise_lt_range.filter _

theorem places_cons (p : α → Bool) (x : α) (l : List α) :
    places p (x :: l) = (if p x then [0] else []) ++ (places p l).map (· + 1) := by
  rw [places, List.length_cons, List.range_succ_eq_map, List.filter_cons, List.filter_map]
  cases hp : p x <;> simp [hp, places, Function.comp_def]

theorem forall₂_places (f : α → Option β) (l : List α) :
    List.Forall₂ (fun i y => ∃ x, l[i]? = some x ∧ f x = some y) (places (f · |>.isSome) l)
      (l.filterMap f) := by
  induction l with
  | nil => exact .nil
  | cons x l ih =>
    have hrest : List.Forall₂ (fun i y => ∃ z, (x :: l)[i]? = some z ∧ f z = some y)
        ((places (f · |>.isSome) l).map (· + 1)) (l.filterMap f) :=
      List.forall₂_map_left_iff.mpr ih
    rw [places_cons, List.filterMap_cons]
    cases hx : f x with
    | none => exact hrest
    | some y => exact .cons ⟨x, rfl, hx⟩ hrest

end

/-- Every allocation of a method is dealt into one of the three lists. -/
theorem ofMethod_deals_once (m : Method) :
    (∃ positions : StorageKind → List Nat,
      (∀ kind, (positions kind).Pairwise (· < ·) ∧
        List.Forall₂ (fun i a => ∃ v, m.values[i]? = some v ∧ Reserves v kind a) (positions kind)
          ((ofMethod m).get kind)) ∧
      ∀ i v, m.values[i]? = some v → v.kind.isAlloca = true → ∃! kind, i ∈ positions kind) ∧
    (ofMethod m).size = m.values.countP (·.kind.isAlloca) ∧
    ((m.values.map (·.id)).Nodup →
      (∀ v ∈ m.values, v.kind.isAlloca = true →
        ∃ kind a, Reserves v kind a ∧ (ofMethod m).kindOf? v.id = some kind) ∧
      ∀ id, (∀ v ∈ m.values, v.id = id → v.kind.isAlloca = false) →
        (ofMethod m).kindOf? id = none) := by
  refine ⟨⟨fun kind => places (requestOf? kind · |>.isSome) m.values, fun kind => ⟨?_, ?_⟩, ?_⟩,
    size_ofMethod m, fun hnodup => ⟨?_, ?_⟩⟩
  · exact places_ascend _ _
  · rw [get_ofMethod]
    refine (forall₂_places (requestOf? kind) m.values).imp fun i a => ?_
    rintro ⟨v, hv, hrequest⟩
    exact ⟨v, hv, requestOf?_eq_some_iff.mp hrequest⟩
  · -- An allocation is asked for in one way, so it stands in one list.
    intro i v hv ha
    obtain ⟨kind, a, hreserves⟩ := exists_reserves_of_isAlloca ha
    refine ⟨kind, mem_places.mpr ⟨v, hv, ?_⟩, fun kind' hi => ?_⟩
    · rw [requestOf?_eq_some_iff.mpr hreserves]
      rfl
    · obtain ⟨v', hv', hsome⟩ := mem_places.mp hi
      obtain rfl : v' = v := by simpa [hv] using hv'.symm
      obtain ⟨a', ha'⟩ := Option.isSome_iff_exists.mp hsome
      exact ((requestOf?_eq_some_iff.mp ha').unique hreserves).1
  · intro v hv ha
    obtain ⟨kind, hkind⟩ := Option.isSome_iff_exists.mp (isSome_kindOf?_ofMethod hv ha)
    obtain ⟨v', hv', hid, a, hreserves⟩ := exists_reserves_of_kindOf? hkind
    -- What is found under the name is the value itself.
    obtain rfl := List.inj_on_of_nodup_map hnodup hv' hv hid
    exact ⟨kind, a, hreserves, hkind⟩
  · intro id hother
    refine Option.eq_none_iff_forall_ne_some.mpr fun kind hkind => ?_
    obtain ⟨v, hv, hid, a, hreserves⟩ := exists_reserves_of_kindOf? hkind
    have hnone := hother v hv hid
    rw [hreserves.isAlloca] at hnone
    cases hnone

/-- Two blocks that ask for memory of every kind. -/
def scratch : Method where
  id := ⟨0⟩
  name := "scratch"
  params := []
  returnType := .void
  blocks := [
    ⟨⟨0⟩, [⟨⟨4⟩, .pointer .i32 .shared, .alloca .i32 .dynamic⟩,
      ⟨⟨2⟩, .pointer .i32 .local, .alloca .i32 .single⟩], .branch ⟨1⟩⟩,
    ⟨⟨1⟩, [⟨⟨7⟩, .i64, .undef⟩, ⟨⟨3⟩, .pointer .i64 .shared, .alloca .i64 (.fixed 8)⟩,
      ⟨⟨5⟩, .i64, .alloca .i64 .dynamic⟩], .ret none⟩]

theorem scratch_dealt_once :
    (scratch.values.map (·.id)).Nodup ∧ (ofMethod scratch).size = 4 ∧
      (ofMethod scratch).kindOf? ⟨4⟩ = some .dynamicGroup ∧ (ofMethod scratch).kindOf? ⟨7⟩ = none := by
  have hnodup : (scratch.values.map (·.id)).Nodup := by decide
  obtain ⟨-, hsize, hkinds⟩ := ofMethod_deals_once scratch
  obtain ⟨hlisted, hother⟩ := hkinds hnodup
  refine ⟨hnodup, hsize, ?_, hother ⟨7⟩ (by decide)⟩
  obtain ⟨kind, a, hreserves, hkind⟩ :=
    hlisted ⟨⟨4⟩, .pointer .i32 .shared, .alloca .i32 .dynamic⟩ (by decide) rfl
  rw [hkind, (hreserves.unique .dynamicGroup).1]

end Storage

end SpirvKernel
