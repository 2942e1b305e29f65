import Mathlib.Data.List.Perm.Basic
import SpirvKernel.Proofs.Emission.Memory

/-!
# The memory of a program

Every allocation of a program has a variable of its own in the module: in the function of its method if
it is local, among the declarations if it is shared. The variable is found from the name of the
allocation, and its type holds as many elements as were asked for.
-/

namespace SpirvKernel

open Instruction Attempt Emission

/-! ## Types of variables -/

/-- The opcode and the number of the constant that is the length of an array. -/
def Extent.length? : Extent → Option (Opcode × Word)
  | .single => none
  | .fixed n => some (.constant, n)
  -- The host sets the number at launch.
  | .dynamic => some (.specConstant, 1)

namespace Instruction

def typeAt? (is : List Instruction) (w : Word) : Option Ty :=
  Meaning.typeAt? (Meaning.read (declarations is)) w

/-- The type `content` of the module holds as many elements as the extent says. -/
def HasElements (is : List Instruction) (elem : Ty) (extent : Extent) (content : Word) : Prop :=
  match extent.length? with
  | none => typeAt? is content = some elem
  | some (op, n) => ∃ e type length,
    definition? is content = some (.of .typeArray [content, e, length]) ∧ typeAt? is e = some elem ∧
      definition? is length = some (.of op [type, length, n]) ∧ typeAt? is type = some .i32

/-- In the module `root` is a variable with memory for as many elements as the extent says. -/
def Backs (is : List Instruction) (storage : StorageClass) (elem : Ty) (extent : Extent)
    (root : Word) : Prop :=
  ∃ pointer content, definition? is root = some (.of .variable [pointer, root, storage.number]) ∧
    definition? is pointer = some (.of .typePointer [pointer, storage.number, content]) ∧
    HasElements is elem extent content

end Instruction

namespace Dictionary

variable {d : Dictionary} {is : List Instruction}

theorem Sound.pointer (h : d.Sound) {pointee : Ty} {storage : StorageClass} {p : Id}
    (hp : d.get? (.pointer pointee storage) = some p) :
    ∃ content : Id, d.get? (.ofType pointee) = some content ∧
      .of .typePointer [p.word, storage.number, content.word] ∈ d.declarations := by
  obtain ⟨i, hi, made⟩ := h.filed _ _ hp
  obtain ⟨content, known, made⟩ := Option.bind_eq_some_iff.mp made
  obtain rfl := Option.some.inj made
  exact ⟨content, known, hi⟩

theorem Sound.array (h : d.Sound) {elem : Ty} {n : UInt32} {array : Id}
    (harray : d.get? (.ofType (.array elem n)) = some array) :
    ∃ e length : Id, d.get? (.ofType elem) = some e ∧
      d.get? (.constant (Constant.ofWord n).truncate) = some length ∧
      .of .typeArray [array.word, e.word, length.word] ∈ d.declarations := by
  obtain ⟨i, hi, made⟩ := h.filed _ _ harray
  obtain ⟨e, helem, made⟩ := Option.bind_eq_some_iff.mp made
  obtain ⟨length, hlength, made⟩ := Option.bind_eq_some_iff.mp made
  obtain rfl := Option.some.inj made
  exact ⟨e, length, helem, hlength, hi⟩

theorem literal_ofWord (n : UInt32) : (Constant.ofWord n).truncate.literal = [n] := by
  have bits := IntWidth.toNat_and_mask .i32 n.toUInt64
  have hn := n.toNat_lt
  change [(n.toUInt64 &&& IntWidth.i32.mask).toUInt32] = [n]
  rw [List.cons.injEq, ← UInt32.toNat_inj, UInt64.toNat_toUInt32, bits, UInt32.toNat_toUInt64]
  refine ⟨?_, rfl⟩
  change n.toNat % 2 ^ 32 % 2 ^ 32 = n.toNat
  omega

theorem Sound.length (h : d.Sound) {n : UInt32} {length : Id}
    (hlength : d.get? (.constant (Constant.ofWord n).truncate) = some length) :
    ∃ type : Id, d.get? (.ofType .i32) = some type ∧
      .of .constant [type.word, length.word, n] ∈ d.declarations := by
  obtain ⟨i, hi, made⟩ := h.filed _ _ hlength
  obtain ⟨type, known, made⟩ := Option.bind_eq_some_iff.mp made
  rw [literal_ofWord] at made
  obtain rfl := Option.some.inj made
  exact ⟨type, known, hi⟩

theorem Points.holds (sound : d.Sound) (readable : d.Readable) (nodup : (results is).Nodup)
    (reads : Instruction.declarations is = d.declarations) (keeps : ∀ i ∈ d.declarations, i ∈ is)
    {storage : StorageClass} {elem : Ty} {extent : Extent} {p : Id}
    (h : d.Points storage elem extent p) :
    ∃ content, definition? is p.word = some (.of .typePointer [p.word, storage.number, content]) ∧
      HasElements is elem extent content := by
  have defined {i : Instruction} {w : Word} (hi : i ∈ d.declarations) (hw : i.result? = some w) :
      definition? is w = some i := definition?_eq_some nodup (keeps i hi) hw
  have typed {type : Ty} {id : Id} (known : d.get? (.ofType type) = some id) :
      typeAt? is id.word = some type := by
    rw [typeAt?, reads]
    exact Declaration.typeAt?_ofType readable.known known
  cases h with
  | single hp =>
    obtain ⟨content, known, declared⟩ := sound.pointer hp
    exact ⟨content.word, defined declared rfl, typed known⟩
  | fixed hp =>
    obtain ⟨content, harray, declared⟩ := sound.pointer hp
    obtain ⟨e, length, helem, hlength, hcontent⟩ := sound.array harray
    obtain ⟨type, htype, hconstant⟩ := sound.length hlength
    exact ⟨content.word, defined declared rfl, e.word, type.word, length.word, defined hcontent rfl,
      typed helem, defined hconstant rfl, typed htype⟩
  | @dynamic e word length array p helem hword hlength harray hpointer =>
    exact ⟨array.word, defined hpointer rfl, e.word, word.word, length.word, defined harray rfl,
      typed helem, defined hlength rfl, typed hword⟩

end Dictionary

/-! ## The memory of a method -/

/-- Where the names of values lead to. -/
def roots (is : List Instruction) (T : IdTable) (vs : List Value) : List (Option Word) :=
  vs.map fun v => (T.value? v.id).map (origin is)

def Value.storage (v : Value) : StorageClass :=
  if v.type.space? = some .shared then .workgroup else .function

/-- In the module `is` the function `f` sets up the memory of `m`, with the names of `T`. -/
structure Method.Stored (is : List Instruction) (m : Method) (T : IdTable) (f : List Instruction) :
    Prop where
  /-- After the first label come all variables of the function, and then casts for the arrays. -/
  entry : ∃ label own casts rest, (splitAtLabels f).2.head? = some (label, own ++ (casts ++ rest)) ∧
    f.filter (isA .variable) = own ∧ (∀ i ∈ own, i.isVariableIn .function = true) ∧
    (∀ i ∈ casts, i.isA .bitcast = true) ∧
    ((results own).map some).Perm (roots is T (m.values.filter Value.isLocalAlloca)) ∧
    ((results casts).map some).Perm
      ((m.values.filter Value.isArrayAlloca).map fun v => T.value? v.id)
  /-- The name of every allocation leads to a variable of the right type. -/
  backed : ∀ v ∈ m.values, ∀ elem extent, v.kind = .alloca elem extent →
    ∃ w, T.value? v.id = some w ∧ Backs is v.storage elem extent (origin is w)

namespace Emission

variable {t : Task} {d : Dictionary} {r : IdRange} {w : Work} {x : Text} {is : List Instruction}

theorem Text.Of.leads (h : x.Of t d r w) (nodup : (Instruction.results is).Nodup)
    (inside : ∀ i ∈ x.functions, i ∈ is) (groups : ∀ y ∈ x.memory.groups, y.instruction ∈ is) :
    List.Forall₂ (LeadsToPlace d w.table is .function) t.storage.item x.memory.items ∧
      List.Forall₂ (LeadsToPlace d w.table is .workgroup) (t.storage.group ++ t.storage.dynamicGroup)
        x.memory.groups := by
  obtain ⟨label, first, rest, -, hfirst, memory⟩ := h.entry
  obtain ⟨js, rfl, hall⟩ := memory.code
  have items : ∀ y ∈ x.memory.items, y.instruction ∈ is := by
    intro y hy
    exact inside _ (hfirst _ (List.mem_append_left js (List.mem_map_of_mem hy)))
  have cast : ∀ c ∈ casts t.storage.item x.memory.items ++
      casts (t.storage.group ++ t.storage.dynamicGroup) x.memory.groups,
      ∃ i ∈ is, c.Written w.table i := by
    intro c hc
    obtain ⟨j, hj, written⟩ := exists_right_of_forall₂ hall hc
    exact ⟨j, inside j (hfirst j (List.mem_append_right _ hj)), written⟩
  constructor
  · exact forall₂_leadsToPlace nodup memory.items items fun c hc => cast c (List.mem_append_left _ hc)
  · exact forall₂_leadsToPlace nodup memory.groups groups fun c hc => cast c (List.mem_append_right _ hc)

theorem Text.Of.casts (h : x.Of t d r w) :
    ∃ label js rest, (splitAtLabels x.functions).2.head? =
        some (label, x.memory.items.map Place.instruction ++ (js ++ rest)) ∧
      (∀ i ∈ js, i.isA .bitcast = true) ∧
      (Instruction.results js).map some =
        (t.storage.all.filter (·.isArray)).map fun a => w.table.value? a.value := by
  obtain ⟨label, first, rest, hcut, -, memory⟩ := h.entry
  obtain ⟨js, rfl, hall⟩ := memory.code
  refine ⟨label, js, rest, by rw [hcut, List.append_assoc], fun j hj => ?_, ?_⟩
  · obtain ⟨c, -, type, value, -, rfl⟩ := exists_left_of_forall₂ hall hj
    exact isA_of ..
  · have values := congrArg₂ (· ++ ·) (values_casts memory.items) (values_casts memory.groups)
    simp only [← List.map_append, ← List.filter_append] at values
    rw [results_written hall]
    have named := congrArg (List.map w.table.value?) values
    simpa only [List.map_map, Function.comp_def, Storage.all] using named

theorem LeadsToPlace.backs (nodup : (results is).Nodup) {storage : StorageClass} {a : Allocation}
    {y : Place} (h : LeadsToPlace d w.table is storage a y) {content : Word}
    (pointer : definition? is y.pointer.word =
      some (.of .typePointer [y.pointer.word, storage.number, content]))
    (holds : HasElements is a.elem a.extent content) :
    ∃ v, w.table.value? a.value = some v ∧ Backs is storage a.elem a.extent (origin is v) := by
  obtain ⟨v, named, hroot⟩ := Option.map_eq_some_iff.mp h.root
  have declared := definition?_eq_some nodup h.declared rfl
  rw [Place.instruction, h.place.kept] at declared
  exact ⟨v, named, y.pointer.word, content, hroot ▸ declared, pointer, holds⟩

end Emission

namespace Parts

variable {p : Program} {entry : EntryPoint} {c : Parts} {m : Method} {x : Product}

theorem Of.readable (h : c.Of p entry) : c.dictionary.Readable := by
  obtain ⟨supply, steps⟩ := h.grown
  exact steps.readable (Dictionary.readable_new supply)

theorem Of.mem_declarations (_ : c.Of p entry) {i : Instruction} (hi : i ∈ c.dictionary.declarations) :
    i ∈ c.instructions entry := by
  rw [instructions_eq]
  exact List.mem_append_right _ (List.mem_append_left _ hi)

theorem Of.leads (h : c.Of p entry) (nodup : (results (c.instructions entry)).Nodup)
    (hx : x ∈ c.products) (hof : Product.Of c.frame c.dictionary m x) :
    List.Forall₂ (LeadsToPlace c.dictionary x.job.work.table (c.instructions entry) .function)
        (Storage.ofMethod m).item x.text.memory.items ∧
      List.Forall₂ (LeadsToPlace c.dictionary x.job.work.table (c.instructions entry) .workgroup)
        ((Storage.ofMethod m).group ++ (Storage.ofMethod m).dynamicGroup) x.text.memory.groups := by
  have storage : x.job.task.storage = .ofMethod m := by rw [hof.storage, hof.method]
  rw [← storage]
  refine hof.text.leads nodup (fun i hi => ?_) fun y hy => ?_
  · rw [instructions_eq]
    exact List.mem_append_right _ (List.mem_append_right _ (List.mem_flatMap.mpr ⟨x, hx, hi⟩))
  · have declared : y.instruction ∈ c.dictionary.variablesIn .workgroup := by
      rw [h.groups]
      exact List.mem_flatMap.mpr ⟨x, hx, List.mem_map_of_mem hy⟩
    exact h.mem_declarations (List.mem_filter.mp declared).1

theorem Of.backs (h : c.Of p entry) (nodup : (results (c.instructions entry)).Nodup) {w : Work}
    {storage : StorageClass} {a : Allocation} {y : Place}
    (leads : LeadsToPlace c.dictionary w.table (c.instructions entry) storage a y) :
    ∃ v, w.table.value? a.value = some v ∧
      Backs (c.instructions entry) storage a.elem a.extent (origin (c.instructions entry) v) := by
  obtain ⟨content, pointer, holds⟩ := leads.place.points.holds h.sound h.readable nodup h.declarations
    fun i => h.mem_declarations
  exact leads.backs nodup pointer holds

theorem Of.stored (h : c.Of p entry) (nodup : (results (c.instructions entry)).Nodup)
    (hx : x ∈ c.products) (hof : Product.Of c.frame c.dictionary m x) :
    m.Stored (c.instructions entry) x.job.work.table x.text.functions := by
  obtain ⟨items, groups⟩ := h.leads nodup hx hof
  constructor
  · obtain ⟨label, js, rest, hcut, casts, arrays⟩ := hof.text.casts
    refine ⟨label, _, js, rest, hcut, hof.text.filter_variable, fun i hi => ?_, casts, ?_, ?_⟩
    · obtain ⟨y, hy, rfl⟩ := List.mem_map.mp hi
      obtain ⟨a, -, leads⟩ := exists_left_of_forall₂ items hy
      simp [Place.instruction, leads.place.kept]
    · refine .of_eq ?_
      rw [← roots_places items, Storage.values_item, List.map_map]
      rfl
    · rw [arrays, hof.storage, hof.method]
      have named := (Storage.values_arrays_perm m).map x.job.work.table.value?
      simpa only [List.map_map, Function.comp_def] using named
  · -- Where a value is placed follows from the space it points to and its extent.
    intro v hv elem extent hk
    have asked := Storage.mem_get_ofMethod hv hk
    by_cases hs : v.type.space? = some .shared
    · have mem : ⟨v.id, elem, extent⟩ ∈
          (Storage.ofMethod m).group ++ (Storage.ofMethod m).dynamicGroup := by
        by_cases hd : extent = .dynamic <;>
          simp only [Storage.kindFor, hs, hd, if_true, if_false, Storage.get] at asked <;> simp [hd, asked]
      obtain ⟨y, -, leads⟩ := exists_right_of_forall₂ groups mem
      simpa [Value.storage, hs] using h.backs nodup leads
    · have mem : ⟨v.id, elem, extent⟩ ∈ (Storage.ofMethod m).item := by
        simpa only [Storage.kindFor, hs, if_false, Storage.get] using asked
      obtain ⟨y, -, leads⟩ := exists_right_of_forall₂ items mem
      simpa [Value.storage, hs] using h.backs nodup leads

theorem forall₂_zip_tables {γ : Type} {g : Product → γ} {ms : List Method} {xs : List Product}
    {R : Method → Product → Prop} (h : List.Forall₂ R ms xs) :
    List.Forall₂ (fun z x => R z.1 x ∧ z.2 = g x ∧ x ∈ xs) (ms.zip (xs.map g)) xs := by
  induction h with
  | nil => exact .nil
  | @cons m x ms xs hx _ ih =>
    refine .cons ⟨hx, rfl, List.mem_cons_self⟩ (ih.imp fun z y hy => ?_)
    exact ⟨hy.1, hy.2.1, List.mem_cons_of_mem x hy.2.2⟩

theorem flatMap_perm_of_forall₂ {α β γ : Type} {f : α → List γ} {g : β → List γ} {as : List α}
    {bs : List β} (h : List.Forall₂ (fun a b => (f a).Perm (g b)) as bs) :
    (as.flatMap f).Perm (bs.flatMap g) := by
  induction h with
  | nil => exact .refl _
  | cons hab _ ih => exact hab.append ih

/-- The variables of the functions and of the group are those that allocations lead to. -/
theorem Of.roots_perm (h : c.Of p entry) (nodup : (results (c.instructions entry)).Nodup) :
    ((results (c.dictionary.variablesIn .workgroup)).map some).Perm
      ((p.methods.zip (c.products.map (·.job.work.table))).flatMap fun z =>
        roots (c.instructions entry) z.2 (z.1.values.filter Value.isSharedAlloca)) ∧
    ((results (c.functions.filter (isA .variable))).map some).Perm
      ((p.methods.zip (c.products.map (·.job.work.table))).flatMap fun z =>
        roots (c.instructions entry) z.2 (z.1.values.filter Value.isLocalAlloca)) := by
  have all := forall₂_zip_tables (g := (·.job.work.table)) h.products
  have results_flatMap (f : Product → List Instruction) : (results (c.products.flatMap f)).map some =
      c.products.flatMap fun x => (results (f x)).map some := by
    rw [results, List.filterMap_flatMap, List.map_flatMap]
    rfl
  constructor
  · rw [h.groups, results_flatMap]
    refine (flatMap_perm_of_forall₂ (all.imp fun z x hx => ?_)).symm
    obtain ⟨hof, hT, hx⟩ := hx
    obtain ⟨-, groups⟩ := h.leads nodup hx hof
    rw [Product.groups, ← roots_places groups, hT]
    have values := (Storage.values_groups_perm z.1).map fun v =>
      (x.job.work.table.value? v).map (origin (c.instructions entry))
    rw [List.map_map (l := z.1.values.filter _)] at values
    exact values.symm
  · rw [functions, List.filter_flatMap, results_flatMap]
    refine (flatMap_perm_of_forall₂ (all.imp fun z x hx => ?_)).symm
    obtain ⟨hof, hT, hx⟩ := hx
    obtain ⟨items, -⟩ := h.leads nodup hx hof
    rw [hof.text.filter_variable, ← roots_places items, hT, Storage.values_item, List.map_map]
    exact .refl _

theorem Of.nodup_variables (_ : c.Of p entry) (nodup : (results (c.instructions entry)).Nodup) :
    (results (c.dictionary.variablesIn .workgroup) ++
      results (c.functions.filter (isA .variable))).Nodup := by
  rw [instructions_eq, results_append, results_append] at nodup
  refine List.Nodup.sublist ?_ (List.Nodup.of_append_right nodup)
  exact (List.filter_sublist.filterMap _).append (List.filter_sublist.filterMap _)

end Parts

/-- The names of the values of each method, once all methods are complete. -/
def Program.tables (p : Program) (o : Options) (entry : EntryPoint) : List IdTable :=
  match Frame.ofProgram p o.debugNames Supply.new with
  | (.ok frame, supply) =>
    match Build.bodies frame entry p (.new frame supply) with
    | (.ok jobs, _) => jobs.map (·.work.table)
    | (.error _, _) => []
  | (.error _, _) => []

theorem Value.filter_isAlloca_perm (vs : List Value) :
    (vs.filter isSharedAlloca ++ vs.filter isLocalAlloca).Perm (vs.filter (·.kind.isAlloca)) := by
  induction vs with
  | nil => exact .refl _
  | cons v vs ih =>
    cases ha : v.kind.isAlloca with
    | false => simpa [isSharedAlloca, isLocalAlloca, ha] using ih
    | true =>
      by_cases hs : v.type.space? = some .shared
      · simpa [isSharedAlloca, isLocalAlloca, ha, hs] using ih
      · simpa [isSharedAlloca, isLocalAlloca, ha, hs] using List.perm_middle.trans (ih.cons v)

theorem roots_allocas_perm (is : List Instruction) (zs : List (Method × IdTable)) :
    (zs.flatMap fun z => roots is z.2 (z.1.values.filter (·.kind.isAlloca))).Perm
      ((zs.flatMap fun z => roots is z.2 (z.1.values.filter Value.isSharedAlloca)) ++
        zs.flatMap fun z => roots is z.2 (z.1.values.filter Value.isLocalAlloca)) := by
  refine (List.Perm.flatMap_left zs fun z _ => ?_).trans (List.flatMap_append_perm zs _ _).symm
  rw [roots, roots, roots, ← List.map_append]
  exact ((Value.filter_isAlloca_perm z.1.values).map _).symm

/-- In the module `is` every allocation of the program has memory of its own. -/
structure Program.Stored (p : Program) (tables : List IdTable) (is : List Instruction) : Prop where
  complete : tables.length = p.methods.length
  methods : List.Forall₂ (fun z f => z.1.Stored is z.2 f) (p.methods.zip tables)
    (splitAtFunctions is).2
  /-- The declarations hold one variable of the group for each shared allocation. -/
  shared : ((results ((declarations is).filter (isVariableIn .workgroup))).map some).Perm
    ((p.methods.zip tables).flatMap fun z =>
      roots is z.2 (z.1.values.filter Value.isSharedAlloca))
  /-- No two allocations lead to the same variable. -/
  apart : ((p.methods.zip tables).flatMap fun z =>
    roots is z.2 (z.1.values.filter (·.kind.isAlloca))).Nodup

/-- Every allocation has memory of its own, for as many elements as it asked for. -/
theorem compile_memory_apart {o : Options} {p : Program} {entry : EntryPoint} {m : Module}
    (distinct : (p.methods.map (·.id)).Nodup) (h : compile o p entry = .ok m) :
    ∃ is, decodeAll (m.words.drop Layout.headerSize) = (is, []) ∧
      p.Stored (p.tables o entry) is := by
  obtain ⟨c, supply, hof, hframe, ⟨b, hbodies⟩, -, rfl⟩ := compile_parts h
  have nodup := hof.nodup_results distinct
  have tables : p.tables o entry = c.products.map (·.job.work.table) := by
    simp [Program.tables, hframe, hbodies]
  obtain ⟨shared, own⟩ := hof.roots_perm nodup
  rw [tables]
  refine ⟨c.instructions entry, hof.decode _ _ _, ?_, ?_, ?_, ?_⟩
  · rw [List.length_map, hof.products.length_eq]
  · rw [hof.splitAtFunctions, List.forall₂_map_right_iff]
    refine (Parts.forall₂_zip_tables hof.products).imp fun z x hx => ?_
    obtain ⟨product, hT, hx⟩ := hx
    rw [hT]
    exact hof.stored nodup hx product
  · rw [hof.declarations]
    exact shared
  · rw [((roots_allocas_perm _ _).trans (shared.append own).symm).nodup_iff, ← List.map_append]
    exact (hof.nodup_variables nodup).map fun _ _ => Option.some.inj

/-- A kernel and a helper with allocations of every sort, several of them of the same type. -/
def tiles : Program where
  methods := [
    { id := ⟨2⟩, name := "tile", params := [], returnType := .void
      blocks := [
        { id := ⟨0⟩
          body := [⟨⟨0⟩, .pointer .i32 .shared, .alloca .i32 .dynamic⟩,
            ⟨⟨1⟩, .pointer (.float .f32) .local, .alloca (.float .f32) (.fixed 4)⟩,
            ⟨⟨2⟩, .pointer .i32 .local, .alloca .i32 .single⟩]
          terminator := .branch ⟨1⟩ },
        { id := ⟨1⟩
          body := [⟨⟨3⟩, .pointer (.float .f32) .local, .alloca (.float .f32) (.fixed 4)⟩,
            ⟨⟨4⟩, .pointer .i32 .shared, .alloca .i32 .single⟩]
          terminator := .ret none }] },
    { id := ⟨5⟩, name := "edge", params := [], returnType := .void
      blocks := [
        { id := ⟨0⟩
          body := [⟨⟨0⟩, .pointer .i32 .shared, .alloca .i32 .dynamic⟩,
            ⟨⟨1⟩, .pointer .i32 .shared, .alloca .i32 (.fixed 8)⟩,
            ⟨⟨2⟩, .pointer .i32 .local, .alloca .i32 .single⟩]
          terminator := .ret none }] }]

def tilesEntry : EntryPoint := { method := ⟨2⟩, name := "tile", rank := .one, groupSize := none }

theorem tiles_memory_apart :
    (tiles.methods.map (·.id)).Nodup ∧ ∃ m, compile {} tiles tilesEntry = .ok m ∧
      ∃ is, decodeAll (m.words.drop Layout.headerSize) = (is, []) ∧
        tiles.Stored (tiles.tables {} tilesEntry) is := by
  have distinct : (tiles.methods.map (·.id)).Nodup := by decide
  obtain ⟨m, h, -⟩ : ∃ m, compile {} tiles tilesEntry = .ok m ∧ true = true :=
    exists_ok_of_any (by decide +kernel)
  exact ⟨distinct, m, h, compile_memory_apart distinct h⟩

end SpirvKernel
