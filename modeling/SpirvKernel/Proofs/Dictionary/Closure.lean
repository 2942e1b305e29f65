import Mathlib.Data.Finset.Card
import SpirvKernel.Proofs.Dictionary.Order

/-!
# What requests come to

The requests for types, pointers, signatures, constants and builtins come to the same declarations in
whatever order and however often they are made. These are the declarations that the requests rest
on, and each of them takes one identifier.
-/

namespace SpirvKernel

/-- A declaration is the other, or it rests on it directly or through others. -/
def Declaration.RestsOn : Declaration → Declaration → Prop :=
  Relation.ReflTransGen fun key part => part ∈ key.parts

def Declaration.isBuiltin : Declaration → Bool
  | .builtin _ => true
  | _ => false

namespace Dictionary

open Attempt

def allAnswered (answers : List (Request × Except Fault Id)) : Bool := answers.all (·.2.isOk)

variable {d d₁ F F' : Dictionary} {key k : Declaration} {rs rs' : List Request} {ids : List Id}

/-! ## Runs without a failure -/

theorem performAll_of_mapM (run : rs.mapM perform d = (.ok ids, d₁)) :
    allAnswered (performAll rs d).1 ∧ (performAll rs d).2 = d₁ := by
  induction rs generalizing d ids with
  | nil => cases run; exact ⟨rfl, rfl⟩
  | cons r rs ih =>
    obtain ⟨id, ids', d', hr, hrest, -⟩ := mapM_cons_ok_iff.mp run
    obtain ⟨answered, last⟩ := ih hrest
    simp only [performAll, hr]
    exact ⟨answered, last⟩

theorem mapM_of_allAnswered (h : allAnswered (performAll rs d).1) :
    ∃ ids, rs.mapM perform d = (.ok ids, (performAll rs d).2) := by
  induction rs generalizing d with
  | nil => exact ⟨[], rfl⟩
  | cons r rs ih =>
    obtain ⟨hfirst, hrest⟩ : (perform r d).1.isOk ∧ allAnswered (performAll rs (perform r d).2).1 := by
      simpa [allAnswered, performAll] using h
    obtain ⟨ids, run⟩ := ih hrest
    cases hr : perform r d with | mk answer d' =>
    rw [hr] at hfirst run
    cases answer with
    | error e => cases hfirst
    | ok id =>
      refine ⟨id :: ids, mapM_cons_ok_iff.mpr ⟨id, ids, d', hr, ?_, rfl⟩⟩
      simpa [performAll, hr] using run

/-! ## Nothing but what the requests rest on -/

/-- What `d₁` knows more than `d` is in `S`. -/
def LearnsWithin (S : Declaration → Prop) (d d₁ : Dictionary) : Prop := ∀ k, d₁.Knows k → d.Knows k ∨ S k

section

variable {S : Declaration → Prop}

theorem learnsWithin_of_known (h : d₁.known = d.known) : LearnsWithin S d d₁ := by
  intro k hk
  rw [Knows, get?_eq_of_known h] at hk
  exact .inl hk

theorem LearnsWithin.trans {d₂ : Dictionary} (h : LearnsWithin S d d₁)
    (h' : LearnsWithin S d₁ d₂) : LearnsWithin S d d₂ :=
  fun k hk => (h' k hk).elim (h k) .inr

theorem need_within (c : Option Capability) : Respects (LearnsWithin S) (need c) := by
  intro d
  cases c <;> exact learnsWithin_of_known rfl

theorem make_within (key : Declaration) (parts : List Id) :
    Respects (LearnsWithin S) (make key parts) := by
  intro d
  apply learnsWithin_of_known
  unfold make
  dsimp only
  split
  · split <;> rfl
  · rfl

theorem file_within (closed : ∀ k, S k → ∀ part ∈ k.parts, S part) (hkey : S key) :
    Respects (LearnsWithin S) (file key) := by
  have hr : ∀ d, LearnsWithin S d d := fun d => learnsWithin_of_known rfl
  have ht : ∀ a b c, LearnsWithin S a b → LearnsWithin S b c → LearnsWithin S a c :=
    fun _ _ _ => LearnsWithin.trans
  induction hw : key.weight using Nat.strongRecOn generalizing key with
  | _ w ih =>
    subst hw
    have parts : ∀ part : { part // part ∈ key.parts }, Respects (LearnsWithin S) (file part.1) :=
      fun part => ih _ (Declaration.weight_of_mem_parts part.2) (closed key hkey _ part.2) rfl
    have note (id : Id) : Respects (LearnsWithin S) (change fun d : Dictionary =>
        { d with known := (key, id) :: d.known } : Declare Unit) := by
      intro d k hk
      rw [knows_iff] at hk ⊢
      rcases List.mem_cons.mp hk with rfl | hk
      · exact .inr hkey
      · exact .inl hk
    rw [file, once]
    refine respects_bind ht (respects_state hr) fun d => ?_
    cases d.get? key with
    | some id => exact respects_pure hr id
    | none =>
      refine respects_bind ht (respects_bind ht (need_within _) fun _ =>
        respects_bind ht (respects_mapM hr ht parts _) (make_within key)) fun id => ?_
      exact respects_bind ht (note id) fun _ => respects_pure hr id

/-- Requests declare nothing outside a set that holds their keys and the parts of each member. -/
theorem performAll_within (closed : ∀ k, S k → ∀ part ∈ k.parts, S part)
    (keyed : ∀ r ∈ rs, ∃ key, r.key? = some key ∧ S key) (d : Dictionary) :
    LearnsWithin S d (performAll rs d).2 := by
  induction rs generalizing d with
  | nil => exact learnsWithin_of_known rfl
  | cons r rs ih =>
    obtain ⟨key, hkey, member⟩ := keyed r List.mem_cons_self
    have first := file_within closed member d
    rw [← perform_eq_file hkey] at first
    exact first.trans (ih (fun r hr => keyed r (List.mem_cons_of_mem _ hr)) _)

end

theorem Whole.knows_of_restsOn (hd : d.Whole) (hkey : d.Knows key) (h : key.RestsOn k) :
    d.Knows k := by
  induction h with
  | refl => exact hkey
  | tail _ part ih =>
    obtain ⟨id, hid⟩ := Option.isSome_iff_exists.mp ih
    obtain ⟨parts, hparts, -⟩ := hd.parts hid
    exact isSome_mapM_iff.mp (by rw [hparts]; rfl) _ part

/-! ## Requests with a key -/

theorem loose_of_keyed (keyed : ∀ r ∈ rs, r.key?.isSome) :
    (rs.map Request.loose).sum = 0 ∧ (rs.map Request.numbers).sum = 0 := by
  have each : ∀ r ∈ rs, r.loose = 0 ∧ r.numbers = 0 := by
    intro r hr
    obtain ⟨key, hkey⟩ := Option.isSome_iff_exists.mp (keyed r hr)
    exact (Request.keys_of_key? hkey).2
  simp only [List.sum_eq_zero_iff_forall_eq_nat, List.forall_mem_map]
  exact ⟨fun r hr => (each r hr).1, fun r hr => (each r hr).2⟩

/-- If requests succeed, so do those that are among them, and nothing more is declared. -/
theorem requests_subset (hd : d.Whole) (run : rs.mapM perform d = (.ok ids, F))
    (keyed : ∀ r ∈ rs, r.key?.isSome) (subset : rs' ⊆ rs) :
    ∃ ids' F', rs'.mapM perform d = (.ok ids', F') ∧ PartOf F 0 F' := by
  have taken := (asks_requests rs).done d ids F run
  apply (asks_requests rs').goes F (hd.requests run)
  · intro k hk
    obtain ⟨r, hr, hk⟩ := List.mem_flatMap.mp hk
    exact taken.known k (List.mem_flatMap.mpr ⟨r, subset hr, hk⟩)
  · rw [(loose_of_keyed fun r hr => keyed r (subset hr)).1]
    rw [(loose_of_keyed keyed).1] at taken
    exact partOf_of_steps hd (steps_of_requests run) taken.surplus

theorem Files.known_of_full {n : Nat} (h : Files n d d₁) (full : Supply.limit ≤ d.supply.next) :
    d₁.known = d.known ∧ d₁.supply = d.supply := by
  induction h with
  | refl => exact ⟨rfl, rfl⟩
  | tail _ step ih =>
    cases step with
    | need => exact ih
    | record _ _ _ _ _ _ room =>
      rw [ih.2] at room
      omega

theorem le_limit_of_requests {supply : Supply} (run : rs.mapM perform (new supply) = (.ok ids, F))
    (keyed : ∀ r ∈ rs, r.key?.isSome) (hrs : rs ≠ []) : supply.next ≤ Supply.limit := by
  by_contra full
  obtain ⟨r, rs, rfl⟩ := List.exists_cons_of_ne_nil hrs
  obtain ⟨id, _, d₁, hr, -⟩ := mapM_cons_ok_iff.mp run
  obtain ⟨key, hkey⟩ := Option.isSome_iff_exists.mp (keyed r List.mem_cons_self)
  have ends := file_ends (regular_of_key? hkey) (new supply)
  rw [← perform_eq_file hkey, hr] at ends
  cases ends with
  | done files known =>
    have same := (files.known_of_full (Nat.le_of_not_le full)).1
    rw [get?_eq_of_known same] at known
    cases known

theorem performAll_subset {supply : Supply} (keyed : ∀ r ∈ rs, r.key?.isSome) (subset : rs' ⊆ rs)
    (answered : allAnswered (performAll rs (new supply)).1) :
    allAnswered (performAll rs' (new supply)).1 ∧
      PartOf (performAll rs (new supply)).2 0 (performAll rs' (new supply)).2 := by
  by_cases hrs : rs = []
  · obtain rfl : rs' = [] := by simpa [hrs] using subset
    subst hrs
    exact ⟨rfl, .nil, fun _ => id, fun _ => id, Int.le_of_eq (Int.add_zero _)⟩
  · obtain ⟨ids, run⟩ := mapM_of_allAnswered answered
    have whole := whole_new supply (le_limit_of_requests run keyed hrs)
    obtain ⟨ids', F', run', toward⟩ := requests_subset whole run keyed subset
    obtain ⟨answered', rfl⟩ := performAll_of_mapM run'
    exact ⟨answered', toward⟩

section

variable {supply : Supply}

/-- What is known in the end is what the requests rest on. -/
theorem knows_iff_restsOn (run : rs.mapM perform (new supply) = (.ok ids, F))
    (keyed : ∀ r ∈ rs, r.key?.isSome) :
    F.Knows k ↔ ∃ key ∈ rs.flatMap Request.keys, key.RestsOn k := by
  constructor
  · intro hk
    have within : LearnsWithin (fun k => ∃ key ∈ rs.flatMap Request.keys, key.RestsOn k) (new supply)
        (performAll rs (new supply)).2 := by
      refine performAll_within ?_ ?_ _
      · rintro k ⟨key, hkey, rests⟩ part hpart
        exact ⟨key, hkey, rests.tail hpart⟩
      · intro r hr
        obtain ⟨key, hkey⟩ := Option.isSome_iff_exists.mp (keyed r hr)
        refine ⟨key, hkey, key, List.mem_flatMap.mpr ⟨r, hr, ?_⟩, .refl⟩
        rw [(Request.keys_of_key? hkey).1]
        exact List.mem_cons_self
    rw [(performAll_of_mapM run).2] at within
    exact (within k hk).resolve_left nofun
  · rintro ⟨key, hkey, rests⟩
    have hrs : rs ≠ [] := by rintro rfl; cases hkey
    have whole := (whole_new supply (le_limit_of_requests run keyed hrs)).requests run
    have taken := (asks_requests rs).done _ ids F run
    exact whole.knows_of_restsOn (taken.known key hkey) rests

theorem next_of_requests (run : rs.mapM perform (new supply) = (.ok ids, F))
    (keyed : ∀ r ∈ rs, r.key?.isSome) : F.supply.next = supply.next + F.size := by
  have surplus := ((asks_requests rs).done _ ids F run).surplus
  rw [(loose_of_keyed keyed).1] at surplus
  simp only [Dictionary.surplus, new, size, List.length_nil] at surplus ⊢
  omega

theorem closure_of_requests (run : rs.mapM perform (new supply) = (.ok ids, F))
    (keyed : ∀ r ∈ rs, r.key?.isSome) :
    ∃ closure : Finset Declaration,
      (∀ k, k ∈ closure ↔ ∃ key ∈ rs.flatMap Request.keys, key.RestsOn k) ∧
      F.supply.next = supply.next + closure.card := by
  have keys := ((steps_of_requests run).orderly (orderly_new supply)).keys
  refine ⟨(F.known.map Prod.fst).toFinset, fun k => ?_, ?_⟩
  · rw [List.mem_toFinset, ← knows_iff, knows_iff_restsOn run keyed]
  · rw [List.toFinset_card_of_nodup keys, List.length_map]
    exact next_of_requests run keyed

end

/-! ## The interface -/

/-- Every builtin that is known is in the interface, and nothing else. -/
def Exposed (d : Dictionary) : Prop :=
  d.interface.length = (d.known.map Prod.fst).countP Declaration.isBuiltin

theorem Steps.exposed (h : Steps d d₁) (hd : d.Exposed) : d₁.Exposed := by
  induction h with
  | refl => exact hd
  | tail _ step ih =>
    cases step with
    | need | reserve | length | unnamed => exact ih
    | @record key =>
      have one (id : Id) : (key.interface id).length = if key.isBuiltin then 1 else 0 := by
        cases key <;> rfl
      unfold Exposed at ih ⊢
      rw [record, List.length_append, List.map_cons, List.countP_cons, one]
      exact congrArg (· + _) ih

theorem Agrees.interface (h : F.Agrees F') (hF : F.Exposed) (hF' : F'.Exposed)
    (keys : (F.known.map Prod.fst).Nodup) (keys' : (F'.known.map Prod.fst).Nodup) :
    F'.interface.length = F.interface.length := by
  have perm : (F'.known.map Prod.fst).Perm (F.known.map Prod.fst) := by
    rw [List.perm_ext_iff_of_nodup keys' keys]
    intro k
    rw [← knows_iff, ← knows_iff]
    exact (h.known k).symm
  rw [hF, hF', perm.countP_eq]

/-- What is declared depends on which requests are made, not on their order or number. -/
theorem performAll_of_same_requests (first : Nat) (rs rs' : List Request)
    (keyed : ∀ r ∈ rs, r.key?.isSome) (same : ∀ r, r ∈ rs ↔ r ∈ rs') :
    let run := performAll rs (new (.startingAt first))
    let run' := performAll rs' (new (.startingAt first))
    (allAnswered run.1 ↔ allAnswered run'.1) ∧
    (allAnswered run.1 →
      run'.2.size = run.2.size ∧ run'.2.capabilities = run.2.capabilities ∧
      run'.2.interface.length = run.2.interface.length ∧ run'.2.supply = run.2.supply ∧
      ∃ closure : Finset Declaration,
        (∀ k, k ∈ closure ↔ ∃ key ∈ rs.flatMap Request.keys, key.RestsOn k) ∧
        run.2.supply.next = (Supply.startingAt first).next + closure.card) := by
  intro run run'
  have keyed' : ∀ r ∈ rs', r.key?.isSome := fun r hr => keyed r ((same r).mpr hr)
  have subset : rs' ⊆ rs := fun r => (same r).mpr
  have subset' : rs ⊆ rs' := fun r => (same r).mp
  refine ⟨⟨fun h => (performAll_subset keyed subset h).1,
    fun h => (performAll_subset keyed' subset' h).1⟩, fun answered => ?_⟩
  -- Each list of requests is among the other, so each dictionary is part of the other.
  obtain ⟨answered', toward⟩ := performAll_subset keyed subset answered
  obtain ⟨-, toward'⟩ := performAll_subset keyed' subset' answered'
  obtain ⟨ids, h⟩ := mapM_of_allAnswered answered
  obtain ⟨ids', h'⟩ := mapM_of_allAnswered answered'
  have specIds := ((asks_requests rs).done _ ids _ h).specIds
  have specIds' := ((asks_requests rs').done _ ids' _ h').specIds
  rw [(loose_of_keyed keyed).2] at specIds
  rw [(loose_of_keyed keyed').2] at specIds'
  have agrees := agrees_of_partOf toward toward' (specIds'.trans specIds.symm)
  have steps := performAll_steps rs (new (.startingAt first))
  have steps' := performAll_steps rs' (new (.startingAt first))
  refine ⟨agrees.size, agrees.capabilities, ?_, congrArg Supply.mk agrees.next,
    closure_of_requests h keyed⟩
  exact agrees.interface (steps.exposed rfl) (steps'.exposed rfl)
    (steps.orderly (orderly_new _)).keys (steps'.orderly (orderly_new _)).keys

def gridRequests : List Request :=
  [.type (.vector (.int .i64) 3), .builtin .globalInvocationId, .signature .void [.float .f16],
    .pointer (.array (.int .i64) 4) .generic]

/-- In the other order the array comes before the vector, and the builtin is asked for twice. -/
def gridRequestsAgain : List Request :=
  [.builtin .globalInvocationId, .pointer (.array (.int .i64) 4) .generic,
    .signature .void [.float .f16], .builtin .globalInvocationId, .type (.vector (.int .i64) 3)]

theorem gridRequests_declare_the_same :
    (∀ r ∈ gridRequests, r.key?.isSome) ∧ (∀ r, r ∈ gridRequests ↔ r ∈ gridRequestsAgain) ∧
    allAnswered (performAll gridRequests (new (.startingAt 6))).1 ∧
    (performAll gridRequestsAgain (new (.startingAt 6))).2.supply =
      (performAll gridRequests (new (.startingAt 6))).2.supply ∧
    (performAll gridRequests (new (.startingAt 6))).2.supply.next = 6 + 11 := by
  have keyed : ∀ r ∈ gridRequests, r.key?.isSome := by decide
  have same : ∀ r, r ∈ gridRequests ↔ r ∈ gridRequestsAgain := by
    intro r
    simp only [gridRequests, gridRequestsAgain, List.mem_cons, List.not_mem_nil]
    grind
  have answered : allAnswered (performAll gridRequests (new (.startingAt 6))).1 := by
    decide +kernel
  have agree := (performAll_of_same_requests 6 gridRequests gridRequestsAgain keyed same).2 answered
  exact ⟨keyed, same, answered, agree.2.2.2.1, by decide +kernel⟩

end Dictionary

end SpirvKernel
