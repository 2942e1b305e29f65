import SpirvKernel.Proofs.Dictionary.Order

/-!
# When identifiers run out

A request that failed for want of identifiers changes nothing when it is made again, whatever was asked
in between: nothing more is declared, and the capabilities that it notes are noted already.
-/

namespace SpirvKernel

open Attempt

theorem CapabilitySet.insert_of_mem {s : CapabilitySet} {c : Capability} (h : c ∈ s) :
    s.insert c = s := by
  ext x
  by_cases hx : x = c
  · subst hx
    simpa [insert] using Eq.symm h
  · simp [insert, hx]

namespace Dictionary

variable {d d₁ : Dictionary} {key : Declaration}

/-- No identifier is left. -/
def Full (d : Dictionary) : Prop := Supply.limit ≤ d.supply.next

theorem full_iff : d.Full ↔ ¬ d.supply.next + 1 ≤ Supply.limit := by
  unfold Full
  omega

theorem Step.full (h : Step d d₁) (full : d.Full) : d₁.Full ∧ d₁.known = d.known := by
  cases h with
  | need => exact ⟨full, rfl⟩
  | reserve n => exact ⟨Nat.le_trans full (Nat.le_add_right _ n), rfl⟩
  | record _ _ _ room | length _ room | unnamed _ room => exact absurd room (full_iff.mp full)

theorem Steps.full (h : Steps d d₁) (full : d.Full) : d₁.Full ∧ d₁.known = d.known := by
  induction h with
  | refl => exact ⟨full, rfl⟩
  | tail _ hs ih =>
    obtain ⟨full', known⟩ := hs.full ih.1
    exact ⟨full', known.trans ih.2⟩

theorem Steps.knows (h : Steps d d₁) (hk : d.Knows key) : d₁.Knows key := by
  obtain ⟨id, hid⟩ := Option.isSome_iff_exists.mp hk
  exact Option.isSome_iff_exists.mpr ⟨id, h.get? hid⟩

/-! ## Requests that are stalled -/

/-- The request gets as far as a new declaration, of the key or of what the key rests on. -/
inductive Stalled (d : Dictionary) : Declaration → Prop
  | own {key : Declaration} (new : d.get? key = none)
      (able : ∀ c, key.capability? = some c → c ∈ d.capabilities) (known : ∀ k ∈ key.parts, d.Knows k) :
      Stalled d key
  | part {key part : Declaration} {before after : List Declaration} (new : d.get? key = none)
      (able : ∀ c, key.capability? = some c → c ∈ d.capabilities)
      (split : key.parts = before ++ part :: after) (known : ∀ k ∈ before, d.Knows k)
      (stalled : Stalled d part) : Stalled d key

theorem need_noted {c? : Option Capability} (h : ∀ c, c? = some c → c ∈ d.capabilities) :
    need c? d = (.ok (), d) := by
  cases c? with
  | none => rfl
  | some c =>
    have same : { d with capabilities := d.capabilities.insert c } = d := by
      rw [CapabilitySet.insert_of_mem (h c rfl)]
    exact congrArg (Prod.mk _) same

theorem mapM_file_known {keys : List Declaration} (h : ∀ k ∈ keys, d.Knows k) :
    ∃ ids, keys.mapM file d = (.ok ids, d) := by
  induction keys with
  | nil => exact ⟨[], rfl⟩
  | cons key keys ih =>
    obtain ⟨id, hid⟩ := Option.isSome_iff_exists.mp (h key List.mem_cons_self)
    obtain ⟨ids, hids⟩ := ih fun k hk => h k (List.mem_cons_of_mem key hk)
    exact ⟨id :: ids, mapM_cons_ok_iff.mpr ⟨id, ids, d, file_known hid, hids, rfl⟩⟩

theorem make_full (full : d.Full) (key : Declaration) (parts : List Id) :
    make key parts d = (.error .spaceExhausted, d) := if_neg (full_iff.mp full)

theorem Stalled.file (h : d.Stalled key) (full : d.Full) :
    file key d = (.error .spaceExhausted, d) := by
  induction h with
  | @own key new able known =>
    obtain ⟨ids, hids⟩ := mapM_file_known known
    rw [file_unknown new, bind_eq_error_iff]
    refine .inr ⟨_, _, need_noted able, bind_eq_error_iff.mpr (.inr ⟨_, _, hids, ?_⟩)⟩
    exact bind_eq_error_iff.mpr (.inl (make_full full key ids))
  | @part key part before after new able split known _ ih =>
    obtain ⟨ids, hids⟩ := mapM_file_known known
    rw [file_unknown new, bind_eq_error_iff, split]
    refine .inr ⟨_, _, need_noted able, bind_eq_error_iff.mpr (.inl ?_)⟩
    rw [List.mapM_append, bind_eq_error_iff]
    refine .inr ⟨_, _, hids, bind_eq_error_iff.mpr (.inl ?_)⟩
    rw [List.mapM_cons]
    exact bind_eq_error_iff.mpr (.inl ih)

theorem Stalled.steps (h : d.Stalled key) (full : d.Full) (steps : Steps d d₁) : d₁.Stalled key := by
  have same (k : Declaration) : d₁.get? k = d.get? k := by
    rw [get?_eq_of_known (steps.full full).2]
  induction h with
  | own new able known =>
    exact .own ((same _).trans new) (fun c hc => steps.capabilities (able c hc))
      fun k hk => steps.knows (known k hk)
  | part new able split known _ ih =>
    exact .part ((same _).trans new) (fun c hc => steps.capabilities (able c hc)) split
      (fun k hk => steps.knows (known k hk)) ih

/-! ## How a request comes to be stalled -/

theorem make_error {parts : List Id} {e : Fault} (recoverable : e.isRecoverable = true)
    (h : make key parts d = (.error e, d₁)) : d₁ = d ∧ d.Full := by
  unfold make at h
  dsimp only at h
  by_cases room : d.supply.next + 1 ≤ Supply.limit
  · rw [if_pos room] at h
    split at h
    · cases h
    · cases h
      cases recoverable
  · rw [if_neg room] at h
    cases h
    exact ⟨rfl, full_iff.mpr room⟩

section

variable {e : Fault} (new : d.get? key = none)
  (able : ∀ c, key.capability? = some c → c ∈ d.capabilities)
include new able

theorem stalled_of_parts
    (each : ∀ part ∈ key.parts, ∀ d d₁, file part d = (.error e, d₁) → d₁.Full ∧ d₁.Stalled part)
    (h : key.parts.mapM file d = (.error e, d₁)) : d₁.Full ∧ d₁.Stalled key := by
  obtain ⟨before, part, after, ids, d₂, split, hbefore, hpart⟩ := mapM_eq_error h
  have mem : part ∈ key.parts := by simp [split]
  have lighter := Declaration.weight_of_mem_parts mem
  have sub : before ⊆ key.parts := by simp [split]
  have first := parts_ends sub d
  have last := file_ends (Declaration.regular_of_mem_parts mem) d₂
  rw [hbefore] at first
  rw [hpart] at last
  obtain ⟨full, stalled⟩ := each part mem d₂ d₁ hpart
  have able₁ := fun c hc => (first.steps.trans last.steps).capabilities (able c hc)
  refine ⟨full, .part ?_ able₁ split (fun k hk => ?_) stalled⟩
  · have kept := first.get?_of_lt (Nat.sub_lt key.one_le_weight Nat.one_pos)
    exact (last.get?_of_lt lighter).trans (kept.trans new)
  · cases first with
    | done _ known =>
      have all := isSome_mapM_iff.mp (Option.isSome_iff_exists.mpr ⟨ids, known⟩)
      exact Steps.knows last.steps (all k hk)

theorem stalled_of_make {ids : List Id} {d₂ : Dictionary} (recoverable : e.isRecoverable = true)
    (hparts : key.parts.mapM file d = (.ok ids, d₂)) (h : make key ids d₂ = (.error e, d₁)) :
    d₁.Full ∧ d₁.Stalled key := by
  obtain ⟨rfl, full⟩ := make_error recoverable h
  obtain ⟨files, known⟩ := files_parts hparts
  have kept := files.get?_of_lt (Nat.sub_lt key.one_le_weight Nat.one_pos)
  refine ⟨full, .own (kept.trans new) (fun c hc => files.steps.capabilities (able c hc)) ?_⟩
  exact isSome_mapM_iff.mp (Option.isSome_iff_exists.mpr ⟨ids, known⟩)

end

/-- A request for a key that fails, though what it asks for fits, is stalled. -/
theorem stalled_of_file {e : Fault} (recoverable : e.isRecoverable = true)
    (h : file key d = (.error e, d₁)) : d₁.Full ∧ d₁.Stalled key := by
  induction hw : key.weight using Nat.strongRecOn generalizing key d d₁ with
  | _ w ih =>
    subst hw
    have new : d.get? key = none := by
      cases hk : d.get? key with
      | none => rfl
      | some id =>
        rw [file_known hk] at h
        cases h
    obtain ⟨d₂, hneed, noted, able⟩ := need_files (key.weight - 1) key.capability? d
    have new₂ := (noted.get?_of_lt (Nat.sub_lt key.one_le_weight Nat.one_pos)).trans new
    rw [file_unknown new, bind_apply, hneed] at h
    rcases bind_eq_error_iff.mp h with hparts | ⟨ids, d₃, hparts, h⟩
    · refine stalled_of_parts new₂ able (fun part mem d d₁ hpart => ?_) hparts
      exact ih _ (Declaration.weight_of_mem_parts mem) hpart rfl
    · rcases bind_eq_error_iff.mp h with hmake | ⟨id, d₄, -, h⟩
      · exact stalled_of_make new₂ able recoverable hparts hmake
      · cases h

/-! ## Requests without effect -/

/-- The request has been made: what it asks for is known, or there is no identifier for it. -/
def AlreadyMade (d : Dictionary) (r : Request) : Prop :=
  ∃ key, r.key? = some key ∧ (d.Knows key ∨ d.Full ∧ d.Stalled key)

theorem AlreadyMade.perform {r : Request} (h : d.AlreadyMade r) : (perform r d).2 = d := by
  obtain ⟨key, hkey, known | ⟨full, stalled⟩⟩ := h
  · obtain ⟨id, hid⟩ := Option.isSome_iff_exists.mp known
    rw [perform_eq_file hkey, file_known hid]
  · rw [perform_eq_file hkey, stalled.file full]

theorem AlreadyMade.steps {r : Request} (h : d.AlreadyMade r) (steps : Steps d d₁) : d₁.AlreadyMade r := by
  obtain ⟨key, hkey, known | ⟨full, stalled⟩⟩ := h
  · exact ⟨key, hkey, .inl (steps.knows known)⟩
  · exact ⟨key, hkey, .inr ⟨(steps.full full).1, stalled.steps full steps⟩⟩

theorem alreadyMade_of_perform {r : Request} {x : Except Fault Id} (keyed : r.key?.isSome)
    (h : perform r d = (x, d₁)) (recoverable : ∀ e, x = .error e → e.isRecoverable = true) :
    d₁.AlreadyMade r := by
  obtain ⟨key, hkey⟩ := Option.isSome_iff_exists.mp keyed
  rw [perform_eq_file hkey] at h
  refine ⟨key, hkey, ?_⟩
  cases x with
  | ok id =>
    have ends := file_ends (regular_of_key? hkey) d
    rw [h] at ends
    cases ends with
    | done _ known => exact .inl (Option.isSome_iff_exists.mpr ⟨id, known⟩)
  | error e => exact .inr (stalled_of_file (recoverable e rfl) h)

end Dictionary

end SpirvKernel
