import SpirvKernel.Proofs.Dictionary.HostNumbers
import SpirvKernel.Proofs.Module.Memory
import SpirvKernel.Proofs.Module.Requests

/-!
# Sizes that the host sets

Every shared allocation of open size has a length of its own among the declarations of the module. The
lengths stand in the order of the allocations, so the host can tell which is which by its number.
-/

namespace SpirvKernel

open Instruction Attempt Emission

/-- Whether the value is a shared allocation whose size is settled at launch. -/
def Value.isHostSized (v : Value) : Bool :=
  match v.kind with
  | .alloca _ extent => extent = .dynamic && v.type.space? = some .shared
  | _ => false

/-- The allocations of open size, each with the names and the function of its method. -/
def Program.hostSized (p : Program) (tables : List IdTable) (functions : List (List Instruction)) :
    List (ValueId × IdTable × List Instruction) :=
  (p.methods.zip (tables.zip functions)).flatMap fun z =>
    (z.1.values.filter Value.isHostSized).map fun v => (v.id, z.2)

/-! ## Plans -/

namespace Storage

theorem extent_of_group {m : Method} {a : Allocation} (ha : a ∈ (ofMethod m).group) :
    a.extent ≠ .dynamic := by
  obtain ⟨v, -, -, -, hkind⟩ := mem_requested ha
  intro h
  rw [h, kindFor] at hkind
  split at hkind <;> cases hkind

theorem extent_of_dynamicGroup {m : Method} {a : Allocation} (ha : a ∈ (ofMethod m).dynamicGroup) :
    a.extent = .dynamic := by
  obtain ⟨v, -, -, -, hkind⟩ := mem_requested ha
  unfold kindFor at hkind
  split at hkind
  · split at hkind
    · assumption
    · cases hkind
  · cases hkind

theorem values_dynamicGroup (m : Method) :
    (ofMethod m).dynamicGroup.map (·.value) = (m.values.filter Value.isHostSized).map (·.id) := by
  simp only [ofMethod, requested_eq, List.map_map]
  refine (values_requests _ _).trans ?_
  congr 2
  funext v
  rw [any_request?]
  unfold Value.isHostSized
  cases v.kind with
  | alloca elem extent =>
    by_cases hs : v.type.space? = some .shared <;> by_cases hd : extent = .dynamic <;>
      simp [kindFor, hs, hd]
  | _ => rfl

theorem filter_dynamic (m : Method) :
    ((ofMethod m).group ++ (ofMethod m).dynamicGroup).filter (·.extent = .dynamic) =
      (ofMethod m).dynamicGroup := by
  rw [List.filter_append, List.filter_eq_nil_iff.mpr, List.filter_eq_self.mpr, List.nil_append]
  · exact fun a ha => decide_eq_true (extent_of_dynamicGroup ha)
  · exact fun a ha => by simpa using extent_of_group ha

end Storage

/-! ## Requests -/

theorem filterMap_extent?_of_keyed {rs : List Dictionary.Request} (h : ∀ r ∈ rs, r.key?.isSome) :
    rs.filterMap Dictionary.Request.extent? = [] :=
  List.filterMap_eq_nil_iff.mpr fun r hr => Dictionary.extent?_of_key? (h r hr)

theorem filterMap_extent?_blockRequests (m : Method) (b : Block) :
    (blockRequests m b).filterMap Dictionary.Request.extent? = [] := by
  refine filterMap_extent?_of_keyed fun r hr => ?_
  obtain ⟨v, -, hr⟩ := List.mem_flatMap.mp hr
  exact keyed_valueRequests hr

theorem filterMap_extent?_storageRequests (s : Storage) :
    (storageRequests s).filterMap Dictionary.Request.extent? =
      (s.group ++ s.dynamicGroup).map (·.extent) := by
  have items : (s.item.flatMap itemRequests).filterMap Dictionary.Request.extent? = [] := by
    refine filterMap_extent?_of_keyed fun r hr => ?_
    obtain ⟨a, -, ha⟩ := List.mem_flatMap.mp hr
    unfold itemRequests at ha
    split at ha
    · rw [List.mem_singleton.mp ha]
      rfl
    · cases ha
  have casts (storage : StorageClass) (as : List Allocation) :
      (as.filterMap (castRequest? storage)).filterMap Dictionary.Request.extent? = [] := by
    refine filterMap_extent?_of_keyed fun r hr => ?_
    obtain ⟨a, -, ha⟩ := List.mem_filterMap.mp hr
    unfold castRequest? at ha
    split at ha <;> cases ha
    rfl
  rw [storageRequests, List.filterMap_append, List.filterMap_append, List.filterMap_append, items,
    casts, casts, List.filterMap_flatMap, List.map_eq_flatMap]
  exact List.append_nil _

theorem Method.filterMap_extent? (m : Method) : m.requests.filterMap Dictionary.Request.extent? =
    ((Storage.ofMethod m).group ++ (Storage.ofMethod m).dynamicGroup).map (·.extent) := by
  unfold Method.requests
  split
  · rename_i hblocks
    have none : m.values = [] := by simp [Method.values, hblocks]
    simp [Storage.ofMethod, Storage.requested, none]
  · simp [List.filterMap_append, List.filterMap_flatMap, filterMap_extent?_storageRequests,
      filterMap_extent?_blockRequests]

theorem Dictionary.kept_open : Kept fun d d₁ =>
    d₁.variablesIn .workgroup = d.variablesIn .workgroup ∧ d₁.hostNumbers = d.hostNumbers := by
  refine ⟨fun _ => ⟨rfl, rfl⟩, fun _ _ _ h h' => ⟨h'.1.trans h.1, h'.2.trans h.2⟩, fun r h d => ?_⟩
  obtain ⟨key, hkey⟩ := Option.isSome_iff_exists.mp h
  exact ⟨perform_sameGroups hkey d, perform_sameNumbers hkey d⟩

theorem Build.functions_allot {p : Program} {debugNames : Bool} {frame : Frame} {entry : EntryPoint}
    {supply : Supply} {b : Build}
    (hframe : Frame.ofProgram p debugNames Supply.new = (.ok frame, supply))
    (run : Build.functions frame entry p (.new frame supply) = (.ok (), b)) :
    ∃ xs, List.Forall₂ (Dictionary.Allots b.dictionary.declarations)
        ((p.methods.flatMap Method.requests).filterMap Dictionary.Request.extent?) xs ∧
      results (b.dictionary.variablesIn .workgroup) = xs.map Prod.fst ∧
      results b.dictionary.hostNumbers = xs.filterMap Prod.snd := by
  obtain ⟨d, ids, ⟨sameGroups, sameNumbers⟩, answered⟩ :=
    functions_requests Dictionary.kept_open (fun _ _ _ => ⟨rfl, rfl⟩) hframe run
  obtain ⟨xs, allots, groups, numbers⟩ := Dictionary.requests_allot answered
  rw [sameGroups] at groups
  rw [sameNumbers] at numbers
  exact ⟨xs, allots, groups, numbers⟩

/-! ## Functions -/

namespace Emission

variable {d : Dictionary} {T : IdTable} {f : List Instruction}

/-- The name of the allocation is a cast of the variable `root`, which stands in `f`. -/
def Casts (T : IdTable) (f : List Instruction) (v : ValueId) (root : Word) : Prop :=
  ∃ type name, T.value? v = some name ∧ .of .bitcast [type, name, root] ∈ f

theorem casts_places {storage : StorageClass} {as : List Allocation} {ys : List Place}
    (h : List.Forall₂ (Place.Of d T storage) as ys)
    (cast : ∀ c ∈ casts as ys, ∃ i ∈ f, c.Written T i) :
    List.Forall₂ (fun a y => a.isArray = true → Casts T f a.value y.root.word) as ys := by
  induction h with
  | nil => exact .nil
  | @cons a y as ys _ _ ih =>
    simp only [casts_cons, List.mem_append, Option.mem_toList] at cast
    refine .cons (fun array => ?_) (ih fun c hc => cast c (.inr hc))
    obtain ⟨i, hi, type, name, named, rfl⟩ := cast _ (.inl (if_pos array))
    exact ⟨type, name, named, hi⟩

theorem Text.Of.casts_groups {t : Task} {r : IdRange} {w : Work} {x : Text} (h : x.Of t d r w) :
    List.Forall₂ (fun a y => a.isArray = true → Casts w.table x.functions a.value y.root.word)
      (t.storage.group ++ t.storage.dynamicGroup) x.memory.groups := by
  obtain ⟨label, first, rest, -, inside, memory⟩ := h.entry
  obtain ⟨js, rfl, hall⟩ := memory.code
  refine casts_places memory.groups fun c hc => ?_
  obtain ⟨j, hj, written⟩ := exists_right_of_forall₂ hall (List.mem_append_right _ hc)
  exact ⟨j, inside j (List.mem_append_right _ hj), written⟩

end Emission

/-! ## The whole module -/

namespace Parts

variable {p : Program} {entry : EntryPoint} {c : Parts}

theorem Of.filter_isHostNumber (h : c.Of p entry) :
    (c.instructions entry).filter isHostNumber = c.dictionary.hostNumbers := by
  have found := h.filter_instructions .specConstant
  rw [h.filter_functions rfl, List.append_nil] at found
  exact found

/-- Every allocation planned as a group variable, with the names and the function of its method. -/
def planned (p : Program) (c : Parts) : List (Allocation × IdTable × List Instruction) :=
  (p.methods.zip (c.products.map fun x => (x.job.work.table, x.text.functions))).flatMap fun z =>
    ((Storage.ofMethod z.1).group ++ (Storage.ofMethod z.1).dynamicGroup).map fun a => (a, z.2)

theorem Of.map_zip (h : c.Of p entry) {γ : Type} (g : Product → γ) :
    (p.methods.zip (c.products.map g)).map Prod.fst = p.methods := by
  apply List.map_fst_zip
  rw [List.length_map, h.products.length_eq]

theorem Of.extents_planned (h : c.Of p entry) :
    (p.methods.flatMap Method.requests).filterMap Dictionary.Request.extent? =
      (planned p c).map (·.1.extent) := by
  rw [List.filterMap_flatMap, planned, List.map_flatMap]
  nth_rw 1 [← h.map_zip fun x => (x.job.work.table, x.text.functions)]
  rw [List.flatMap_map]
  refine List.flatMap_congr fun z _ => ?_
  rw [Method.filterMap_extent?, List.map_map]
  rfl

theorem Of.roots_planned (h : c.Of p entry) :
    List.Forall₂ (fun q root => q.1.isArray = true → Casts q.2.1 q.2.2 q.1.value root) (planned p c)
      (results (c.dictionary.variablesIn .workgroup)) := by
  have roots : results (c.dictionary.variablesIn .workgroup) =
      c.products.flatMap fun x => x.text.memory.groups.map (·.root.word) := by
    rw [h.groups, results, List.filterMap_flatMap]
    exact List.flatMap_congr fun x _ => results_places _
  rw [roots]
  refine List.rel_flatMap (forall₂_zip_tables h.products) fun z x hz => ?_
  obtain ⟨product, hz, -⟩ := hz
  rw [List.forall₂_map_left_iff, List.forall₂_map_right_iff, hz]
  have casts := product.text.casts_groups
  rwa [product.storage, product.method] at casts

theorem hostSized_planned (p : Program) (c : Parts) :
    p.hostSized (c.products.map (·.job.work.table)) (c.products.map (·.text.functions)) =
      ((planned p c).filter (·.1.extent = .dynamic)).map fun q => (q.1.value, q.2) := by
  have zipped : (c.products.map (·.job.work.table)).zip (c.products.map (·.text.functions)) =
      c.products.map fun x => (x.job.work.table, x.text.functions) := List.zip_map' ..
  rw [Program.hostSized, zipped, planned, List.filter_flatMap, List.map_flatMap]
  refine List.flatMap_congr fun z _ => ?_
  rw [List.filter_map, List.map_map]
  have values := congrArg (List.map fun v => (v, z.2)) (Storage.values_dynamicGroup z.1)
  rw [List.map_map, List.map_map, ← Storage.filter_dynamic] at values
  exact values.symm

/-- The numbers of the module are the lengths of the allocations of open size, in this order. -/
theorem Of.hostNumbers_sized (h : c.Of p entry) {xs : List (Word × Option Word)}
    (allots : List.Forall₂ (Dictionary.Allots c.dictionary.declarations)
      ((p.methods.flatMap Method.requests).filterMap Dictionary.Request.extent?) xs)
    (groups : results (c.dictionary.variablesIn .workgroup) = xs.map Prod.fst) :
    List.Forall₂ (fun x length => ∃ root, Casts x.2.1 x.2.2 x.1 root ∧
        Sizes (c.instructions entry) length root)
      (p.hostSized (c.products.map (·.job.work.table)) (c.products.map (·.text.functions)))
      (xs.filterMap Prod.snd) := by
  have roots := h.roots_planned
  rw [groups, List.forall₂_map_right_iff] at roots
  rw [h.extents_planned, List.forall₂_map_left_iff] at allots
  have both := List.Forall₂.mp (fun _ _ hroot hallots => And.intro hroot hallots) roots allots
  rw [hostSized_planned, ← List.filterMap_eq_map, ← List.filterMap_eq_filter,
    List.filterMap_filterMap]
  refine List.rel_filterMap (fun q x hx => ?_) both
  obtain ⟨cast, allotted⟩ := hx
  obtain ⟨⟨v, elem, extent⟩, T, f⟩ := q
  cases allotted with
  | settled settled =>
    simp only [Option.guard, settled, decide_false]
    exact Option.Rel.none
  | opened sizes =>
    exact Option.Rel.some ⟨_, cast rfl, sizes.mono fun i => h.mem_declarations⟩

end Parts

theorem Program.length_hostSized (p : Program) {tables : List IdTable}
    {functions : List (List Instruction)} (complete : p.methods.length = (tables.zip functions).length) :
    (p.hostSized tables functions).length =
      ((p.methods.flatMap Method.values).filter Value.isHostSized).length := by
  have methods : (p.methods.zip (tables.zip functions)).map Prod.fst = p.methods :=
    List.map_fst_zip complete.le
  have values : (p.methods.flatMap Method.values) =
      (p.methods.zip (tables.zip functions)).flatMap fun z => z.1.values := by
    rw [← List.flatMap_map Prod.fst, methods]
  simp [Program.hostSized, values, List.filter_flatMap, List.length_flatMap]

/-- Every allocation of open size has a number of its own, counted from zero. -/
theorem hostNumbers_exact :
    (∀ (first : Nat) (events : List Dictionary.Event),
      let d := Dictionary.actAll events (.new (.startingAt first))
      let numbers := d.declarations.filter isHostNumber
      d.specIds.map UInt32.toNat = List.range numbers.length ∧
      (∀ k i, numbers[k]? = some i → ∃ w, i.result? = some w ∧
        d.annotations.filter (fun j => j.isSpecId && j.target? = some w) = [specNote w k]) ∧
      ∀ j ∈ d.annotations, j.isSpecId = true → ∃ i ∈ numbers, j.target? = i.result?) ∧
    ∀ (o : Options) (p : Program) (entry : EntryPoint) (m : Module), compile o p entry = .ok m →
      ∃ is, decodeAll (m.words.drop Layout.headerSize) = (is, []) ∧
        let numbers := is.filter isHostNumber
        numbers.length = ((p.methods.flatMap Method.values).filter Value.isHostSized).length ∧
        m.specIds.map UInt32.toNat = List.range numbers.length ∧
        (results numbers).Nodup ∧
        List.Forall₂ (fun x length => ∃ root, Casts x.2.1 x.2.2 x.1 root ∧ Sizes is length root)
          (p.hostSized (p.tables o entry) (splitAtFunctions is).2) (results numbers) := by
  constructor
  · -- Any events: the numbers follow the order of the declarations.
    intro first events d numbers
    have steps := Dictionary.actAll_steps events (.new (.startingAt first))
    have numbered := steps.numbered (Dictionary.hostNumbered_new _)
    have arranged := steps.arranged (Dictionary.arranged_new _)
    refine ⟨?_, fun k i => numbered.decorated arranged, fun j => numbered.only⟩
    exact numbered.toNat_specIds arranged
  · -- A module: its numbers are those of its dictionary, and each sizes one allocation.
    intro o p entry m h
    obtain ⟨c, supply, hof, hframe, ⟨b, hbodies⟩, ⟨b', run, hd, -⟩, rfl⟩ := compile_parts h
    obtain ⟨xs, allots, groups, numbers⟩ := Build.functions_allot hframe run
    rw [hd] at allots groups numbers
    obtain ⟨start, grown⟩ := hof.grown
    have numbered := grown.numbered (Dictionary.hostNumbered_new start)
    have arranged := grown.arranged (Dictionary.arranged_new start)
    have tables : p.tables o entry = c.products.map (·.job.work.table) := by
      simp [Program.tables, hframe, hbodies]
    have complete : p.methods.length = ((c.products.map (·.job.work.table)).zip
        (c.products.map (·.text.functions))).length := by simp [hof.products.length_eq]
    have sized := hof.hostNumbers_sized allots groups
    refine ⟨c.instructions entry, hof.decode _ _ _, ?_⟩
    rw [tables, hof.splitAtFunctions, hof.filter_isHostNumber]
    refine ⟨?_, numbered.toNat_specIds arranged, arranged.nodup_hostNumbers, ?_⟩
    · rw [arranged.length_hostNumbers, numbers, ← sized.length_eq, p.length_hostSized complete]
    · rw [numbers]
      exact sized

-- The second variable fails for want of identifiers, right after its number is declared.
theorem tiles_hostNumbers :
    (let d := Dictionary.actAll [.request (.groupVariable .i32 .dynamic),
        .reserve 0x3FFFF7, .request (.groupVariable (.float .f32) .dynamic)] (.new .new)
     d.specIds = [0, 1] ∧ d.supply.next = Supply.limit ∧
      ∀ j ∈ d.annotations, j.isSpecId = true →
        ∃ i ∈ d.declarations.filter isHostNumber, j.target? = i.result?) ∧
    ∃ m, compile {} tiles tilesEntry = .ok m ∧ m.specIds = [0, 1] ∧
      ∃ is, decodeAll (m.words.drop Layout.headerSize) = (is, []) ∧
        let numbers := is.filter isHostNumber
        numbers.length = ((tiles.methods.flatMap Method.values).filter Value.isHostSized).length ∧
        m.specIds.map UInt32.toNat = List.range numbers.length ∧
        (results numbers).Nodup ∧
        List.Forall₂ (fun x length => ∃ root, Casts x.2.1 x.2.2 x.1 root ∧ Sizes is length root)
          (tiles.hostSized (tiles.tables {} tilesEntry) (splitAtFunctions is).2) (results numbers) := by
  obtain ⟨m, h, specIds⟩ : ∃ m, compile {} tiles tilesEntry = .ok m ∧
      decide (m.specIds = [0, 1]) = true := exists_ok_of_any (by decide +kernel)
  refine ⟨⟨by decide +kernel, by decide +kernel, (hostNumbers_exact.1 1 _).2.2⟩, m, h,
    of_decide_eq_true specIds, hostNumbers_exact.2 {} tiles tilesEntry m h⟩

end SpirvKernel
