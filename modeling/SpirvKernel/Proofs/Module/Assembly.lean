import SpirvKernel.Proofs.Emission.Method
import SpirvKernel.Proofs.Module.Reservation

/-!
# How a module is put together

A run of the compiler emits every method with identifiers of its own, all with one dictionary. The
module then holds what the dictionary declared, and after it the functions in the order of the
program.
-/

namespace SpirvKernel

open Instruction Attempt Emission

/-! ## Steps of a build -/

namespace Build

theorem inMethod_ok_iff {α : Type} {name : String} {x : Attempt Fault Build α} {b b' : Build} {a : α} :
    inMethod name x b = (.ok a, b') ↔ x b = (.ok a, b') := by
  unfold inMethod
  rcases x b with ⟨_ | a', b₁⟩ <;> simp [Except.mapError]

end Build

namespace Job

theorem run_ok_iff {x : Task → Emit Unit} {job job' : Job} {b b' : Build} :
    job.run x b = (.ok job', b') ↔
      ∃ s, x job.task ⟨b.dictionary, b.target, job.work⟩ = (.ok (), s) ∧
        job' = ⟨job.task, s.work⟩ ∧ b' = ⟨s.dictionary, s.target⟩ := by
  unfold run
  rcases x job.task ⟨b.dictionary, b.target, job.work⟩ with ⟨_ | _, s⟩
  · simp [Except.map]
  · simp [Except.map, eq_comm]

theorem start_ok_iff {frame : Frame} {entry : EntryPoint} {m : Method} {b b' : Build} {job : Job} :
    start frame entry m b = (.ok job, b') ↔
      ∃ id, frame.functions.get? m.id = some id ∧
        b.dictionary.supply.next + m.idBudget ≤ Supply.limit ∧
        job = ⟨⟨frame, m, .ofMethod m, id, if m.id = entry.method then some entry else none⟩,
          Emission.start ⟨b.dictionary.supply.next, b.dictionary.supply.next + m.idBudget⟩⟩ ∧
        b' = { b with dictionary :=
          { b.dictionary with supply := ⟨b.dictionary.supply.next + m.idBudget⟩ } } := by
  simp only [start, bind_eq_ok_iff, onPart_ok_iff, pure_ok_iff]
  constructor
  · rintro ⟨⟨t, w⟩, _, ⟨_, hstart, rfl⟩, rfl, rfl⟩
    obtain ⟨id, hid, room, rfl, rfl, rfl⟩ := Task.start_ok_iff.mp hstart
    exact ⟨id, hid, room, rfl, rfl⟩
  · rintro ⟨id, hid, room, rfl, rfl⟩
    exact ⟨(_, _), _, ⟨_, Task.start_ok_iff.mpr ⟨id, hid, room, rfl, rfl, rfl⟩, rfl⟩, rfl, rfl⟩

end Job

/-! ## Methods under way -/

/-- The header of the method is written; the dictionary is now `d`. -/
structure Begun (frame : Frame) (d : Dictionary) (m : Method) (x : Job × IdRange) : Prop where
  method : x.1.task.method = m
  id : frame.functions.get? m.id = some x.1.task.id
  shared : x.1.task.frame = frame
  storage : x.1.task.storage = .ofMethod x.1.task.method
  range : x.2.next ≤ x.2.stop
  header : ∃ d₁ g₁ s₁, d₁.Sound ∧
    Emission.header x.1.task ⟨d₁, g₁, Emission.start x.2⟩ = (.ok (), s₁) ∧
    x.1.work = s₁.work ∧ s₁.dictionary.Steps d

theorem Begun.mono {frame : Frame} {d d' : Dictionary} {m : Method} {x : Job × IdRange}
    (h : Begun frame d m x) (hd : d.Steps d') : Begun frame d' m x := by
  obtain ⟨d₁, g₁, s₁, sound, hheader, hwork, hsteps⟩ := h.header
  exact { h with header := ⟨d₁, g₁, s₁, sound, hheader, hwork, hsteps.trans hd⟩ }

structure Product where
  job : Job
  range : IdRange
  text : Text

/-- The variables of the group for the method. -/
def Product.groups (x : Product) : List Instruction := x.text.memory.groups.map Place.instruction

/-- The method `m` is complete; the dictionary in the end is `d`. -/
structure Product.Of (frame : Frame) (d : Dictionary) (m : Method) (x : Product) : Prop where
  method : x.job.task.method = m
  id : frame.functions.get? m.id = some x.job.task.id
  shared : x.job.task.frame = frame
  storage : x.job.task.storage = .ofMethod x.job.task.method
  text : x.text.Of x.job.task d x.range x.job.work
  sound : ∃ g, Sound x.job.task ⟨d, g, x.job.work⟩

/-! ## Headers -/

theorem header_begun {frame : Frame} {entry : EntryPoint} {m : Method} {b b' : Build} {job : Job}
    (hd : b.dictionary.Sound) (h : Build.header frame entry m b = (.ok job, b')) :
    ∃ d r, b.dictionary.supply.next + m.idBudget ≤ Supply.limit ∧
      r = ⟨b.dictionary.supply.next, b.dictionary.supply.next + m.idBudget⟩ ∧
      d = { b.dictionary with supply := ⟨b.dictionary.supply.next + m.idBudget⟩ } ∧
      d.Steps b'.dictionary ∧ b'.target = b.target ∧ Begun frame b'.dictionary m (job, r) ∧
      b.dictionary.SameGroups b'.dictionary := by
  simp only [Build.header, Build.inMethod_ok_iff, bind_eq_ok_iff] at h
  obtain ⟨_, _, hstart, h⟩ := h
  obtain ⟨id, hid, room, rfl, rfl⟩ := Job.start_ok_iff.mp hstart
  obtain ⟨s, hs, rfl, rfl⟩ := Job.run_ok_iff.mp h
  obtain ⟨is, names, modes, headed⟩ := header_ok hs
  have reserved := (Dictionary.Step.reserve m.idBudget room).steps
  refine ⟨_, _, room, rfl, rfl, headed.steps, headed.target, ⟨rfl, hid, rfl, rfl,
    Nat.le_add_right _ _, ?_⟩, (header_onDictionary Dictionary.kept_sameGroups _).of_ok hs⟩
  exact ⟨_, _, s, reserved.sound hd, hs, rfl, .refl _⟩

theorem headers_begun {frame : Frame} {entry : EntryPoint} {ms : List Method} {b b' : Build}
    {jobs : List Job} {base : Nat} {rs : List IdRange} (hd : b.dictionary.Sound)
    (apart : Apart base b.dictionary rs)
    (h : ms.mapM (Build.header frame entry) b = (.ok jobs, b')) :
    b.dictionary.Steps b'.dictionary ∧ b'.target = b.target ∧
      b.dictionary.SameGroups b'.dictionary ∧ ∃ xs : List (Job × IdRange), jobs = xs.map Prod.fst ∧
        Apart base b'.dictionary (rs ++ xs.map Prod.snd) ∧
        List.Forall₂ (Begun frame b'.dictionary) ms xs := by
  induction ms generalizing b jobs rs with
  | nil =>
    obtain ⟨rfl, rfl⟩ := mapM_nil_ok_iff.mp h
    exact ⟨.refl _, rfl, rfl, [], rfl, by simpa using apart, .nil⟩
  | cons m ms ih =>
    obtain ⟨job, rest, b₁, hm, hms, rfl⟩ := mapM_cons_ok_iff.mp h
    obtain ⟨d, r, room, rfl, rfl, steps, target, begun, same⟩ := header_begun hd hm
    have reserved := (Dictionary.Step.reserve m.idBudget room).steps.trans steps
    obtain ⟨steps', target', same', xs, rfl, apart', begun'⟩ :=
      ih (reserved.sound hd) ((apart.reserve room).steps steps) hms
    refine ⟨reserved.trans steps', target'.trans target, same'.trans same, (job, _) :: xs, rfl, ?_,
      .cons (begun.mono steps') begun'⟩
    simpa using apart'

/-! ## Bodies -/

theorem body_product {frame : Frame} {m : Method} {x : Job × IdRange} {b b' : Build} {job : Job}
    {d : Dictionary} (begun : Begun frame b.dictionary m x) (h : Build.body x.1 b = (.ok job, b'))
    (hd : b'.dictionary.Steps d) :
    ∃ text, Product.Of frame d m ⟨job, x.2, text⟩ ∧ b'.dictionary.variablesIn .workgroup =
      b.dictionary.variablesIn .workgroup ++ text.memory.groups.map Place.instruction := by
  simp only [Build.body, Build.inMethod_ok_iff, Job.run_ok_iff] at h
  obtain ⟨s, hs, rfl, rfl⟩ := h
  obtain ⟨d₁, g₁, s₁, sound, hheader, hwork, hsteps⟩ := begun.header
  rw [hwork] at hs
  obtain ⟨text, htext, adds⟩ := text_laid begun.range hheader hs hd
  exact ⟨text, ⟨begun.method, begun.id, begun.shared, begun.storage, htext,
    s.target, sound_of sound hheader hsteps hs hd⟩, adds⟩

theorem body_steps {m : Method} {frame : Frame} {x : Job × IdRange} {b b' : Build} {job : Job}
    (begun : Begun frame b.dictionary m x) (h : Build.body x.1 b = (.ok job, b')) :
    b.dictionary.Steps b'.dictionary ∧ b'.target = b.target := by
  simp only [Build.body, Build.inMethod_ok_iff, Job.run_ok_iff] at h
  obtain ⟨s, hs, rfl, rfl⟩ := h
  obtain ⟨d₁, g₁, s₁, -, hheader, hwork, -⟩ := begun.header
  obtain ⟨is, names, modes, headed⟩ := header_ok hheader
  rw [hwork] at hs
  have hp : (⟨b.dictionary, b.target, s₁.work⟩ : Emission).work.pending = [] := headed.pending
  obtain ⟨cs, complete⟩ := body_ok hp hs (.refl _)
  exact ⟨complete.steps, complete.target⟩

theorem bodies_products {frame : Frame} {ms : List Method} {xs : List (Job × IdRange)}
    {b b' : Build} {jobs : List Job} (begun : List.Forall₂ (Begun frame b.dictionary) ms xs)
    (h : (xs.map Prod.fst).mapM Build.body b = (.ok jobs, b')) :
    b.dictionary.Steps b'.dictionary ∧ b'.target = b.target ∧
      ∀ d, b'.dictionary.Steps d → ∃ ys : List Product, jobs = ys.map Product.job ∧
        xs.map Prod.snd = ys.map Product.range ∧ List.Forall₂ (Product.Of frame d) ms ys ∧
        b'.dictionary.variablesIn .workgroup =
          b.dictionary.variablesIn .workgroup ++ ys.flatMap Product.groups := by
  induction xs generalizing b jobs ms with
  | nil =>
    obtain ⟨rfl, rfl⟩ := mapM_nil_ok_iff.mp h
    obtain rfl := List.forall₂_nil_right_iff.mp begun
    exact ⟨.refl _, rfl, fun d _ => ⟨[], rfl, rfl, .nil, (List.append_nil _).symm⟩⟩
  | cons x xs ih =>
    obtain ⟨job, rest, b₁, hx, hxs, rfl⟩ := mapM_cons_ok_iff.mp h
    obtain ⟨m, ms, hm, hms, rfl⟩ := List.forall₂_cons_right_iff.mp begun
    obtain ⟨steps, target⟩ := body_steps hm hx
    obtain ⟨steps', target', products⟩ := ih (hms.imp fun _ _ h => h.mono steps) hxs
    -- The bodies after this one add to the dictionary that its text is read in.
    refine ⟨steps.trans steps', target'.trans target, fun d hd => ?_⟩
    obtain ⟨text, product, groups⟩ := body_product hm hx (steps'.trans hd)
    obtain ⟨ys, rfl, hranges, products, groups'⟩ := products d hd
    refine ⟨⟨job, x.2, text⟩ :: ys, rfl, by simp [hranges], .cons product products, ?_⟩
    rw [groups', groups, List.append_assoc, List.flatMap_cons]
    rfl

/-! ## The merge -/

theorem merge_ok {job job' : Job} {b b' : Build} (h : Build.merge job b = (.ok job', b')) :
    b' = { b with target := b.target.merge job.work.output } := by
  simp only [Build.merge, Build.inMethod_ok_iff, Job.run_ok_iff, Emission.merge, bind_eq_ok_iff,
    change_ok_iff] at h
  obtain ⟨_, ⟨_, _, hexpect, rfl⟩, -, rfl⟩ := h
  obtain rfl := expect_ok hexpect
  rfl

theorem merges_ok {jobs jobs' : List Job} {b b' : Build}
    (h : jobs.mapM Build.merge b = (.ok jobs', b')) :
    b'.dictionary = b.dictionary ∧
      ∀ s, b'.target.get s = b.target.get s ++ jobs.flatMap fun job => job.work.output.get s := by
  induction jobs generalizing b jobs' with
  | nil =>
    obtain ⟨-, rfl⟩ := mapM_nil_ok_iff.mp h
    exact ⟨rfl, fun s => by simp⟩
  | cons job jobs ih =>
    obtain ⟨_, _, b₁, hjob, hjobs, -⟩ := mapM_cons_ok_iff.mp h
    obtain rfl := merge_ok hjob
    obtain ⟨hdictionary, htarget⟩ := ih hjobs
    refine ⟨hdictionary, fun s => ?_⟩
    rw [htarget, Layout.get_merge, List.append_assoc, List.flatMap_cons]

/-! ## All methods -/

namespace Build

/-- The headers of all methods, then all bodies. -/
def bodies (frame : Frame) (entry : EntryPoint) (p : Program) :
    Attempt CompileError Build (List Job) := do
  let headed ← p.methods.mapM (header frame entry)
  headed.mapM body

theorem functions_ok_iff {frame : Frame} {entry : EntryPoint} {p : Program} {b b' : Build} :
    functions frame entry p b = (.ok (), b') ↔ ∃ jobs merged b₁,
      bodies frame entry p b = (.ok jobs, b₁) ∧ jobs.mapM merge b₁ = (.ok merged, b') := by
  simp only [functions, bodies, bind_eq_ok_iff, pure_ok_iff]
  constructor
  · rintro ⟨headed, b₁, hheaders, jobs, b₂, hbodies, merged, _, hmerges, -, rfl⟩
    exact ⟨jobs, merged, b₂, ⟨headed, b₁, hheaders, hbodies⟩, hmerges⟩
  · rintro ⟨jobs, merged, b₂, ⟨headed, b₁, hheaders, hbodies⟩, hmerges⟩
    exact ⟨headed, b₁, hheaders, jobs, b₂, hbodies, merged, b', hmerges, trivial, rfl⟩

end Build

theorem bodies_ok {frame : Frame} {entry : EntryPoint} {p : Program} {b b' : Build} {base : Nat}
    {jobs : List Job} (hd : b.dictionary.Sound) (apart : Apart base b.dictionary [])
    (h : Build.bodies frame entry p b = (.ok jobs, b')) :
    b.dictionary.Steps b'.dictionary ∧ b'.target = b.target ∧
      ∃ xs : List Product, jobs = xs.map Product.job ∧
        List.Forall₂ (Product.Of frame b'.dictionary) p.methods xs ∧
        Apart base b'.dictionary (xs.map Product.range) ∧
        b'.dictionary.variablesIn .workgroup =
          b.dictionary.variablesIn .workgroup ++ xs.flatMap Product.groups := by
  simp only [Build.bodies, bind_eq_ok_iff] at h
  obtain ⟨_, b₁, hheaders, hbodies⟩ := h
  obtain ⟨steps₁, target₁, same, xs, rfl, apart₁, begun⟩ := headers_begun hd apart hheaders
  obtain ⟨steps₂, target₂, products⟩ := bodies_products begun hbodies
  obtain ⟨ys, rfl, hranges, products, groups⟩ := products _ (.refl _)
  rw [List.nil_append, hranges] at apart₁
  rw [same] at groups
  exact ⟨steps₁.trans steps₂, target₂.trans target₁, ys, rfl, products, apart₁.steps steps₂, groups⟩

theorem functions_ok {frame : Frame} {entry : EntryPoint} {p : Program} {b b' : Build} {base : Nat}
    (hd : b.dictionary.Sound) (apart : Apart base b.dictionary [])
    (h : Build.functions frame entry p b = (.ok (), b')) :
    b.dictionary.Steps b'.dictionary ∧
      ∃ xs : List Product, (∃ b₁, Build.bodies frame entry p b = (.ok (xs.map Product.job), b₁) ∧
          b₁.dictionary = b'.dictionary) ∧
        List.Forall₂ (Product.Of frame b'.dictionary) p.methods xs ∧
        Apart base b'.dictionary (xs.map Product.range) ∧
        b'.dictionary.variablesIn .workgroup =
          b.dictionary.variablesIn .workgroup ++ xs.flatMap Product.groups ∧
        ∀ s, b'.target.get s = b.target.get s ++ xs.flatMap fun x => x.job.work.output.get s := by
  obtain ⟨_, _, b₁, hbodies, hmerges⟩ := Build.functions_ok_iff.mp h
  obtain ⟨steps, target, xs, rfl, products, apart, groups⟩ := bodies_ok hd apart hbodies
  obtain ⟨hdictionary, htarget⟩ := merges_ok hmerges
  rw [hdictionary]
  refine ⟨steps, xs, ⟨b₁, hbodies, rfl⟩, products, apart, groups, fun s => ?_⟩
  rw [htarget, target, List.flatMap_map]

/-! ## The whole module -/

structure Parts where
  frame : Frame
  kernel : Id
  dictionary : Dictionary
  products : List Product

namespace Parts

def capabilities (c : Parts) : List Instruction :=
  c.dictionary.capabilities.toList.map fun x => .of .capability [x.number]

def extension (c : Parts) : Instruction :=
  .of .extInstImport (c.frame.openCl.word :: Literal.encode "OpenCL.std")

def model : Instruction := .of .memoryModel [addressingModel, memoryModel]

def point (c : Parts) (entry : EntryPoint) : Instruction :=
  .of .entryPoint (executionModel :: c.kernel.word :: Literal.encode entry.name ++
    c.dictionary.interface.map Id.word)

def modes (c : Parts) : List Instruction := c.products.flatMap (·.text.modes)

def names (c : Parts) : List Instruction := c.products.flatMap (·.text.names)

def functions (c : Parts) : List Instruction := c.products.flatMap (·.text.functions)

def layout (c : Parts) (entry : EntryPoint) : Layout Instruction where
  capabilities := c.capabilities
  extInstImports := [c.extension]
  memoryModel := [model]
  entryPoints := [c.point entry]
  executionModes := c.modes
  debug := c.names
  annotations := c.dictionary.annotations
  declarations := c.dictionary.declarations
  functions := c.functions

def instructions (c : Parts) (entry : EntryPoint) : List Instruction :=
  c.capabilities ++ (c.extension :: model :: c.point entry :: (c.modes ++ (c.names ++
    (c.dictionary.annotations ++ (c.dictionary.declarations ++ c.functions)))))

theorem get_layout (c : Parts) (entry : EntryPoint) (s : Section) : (c.layout entry).get s =
    match s with
    | .capabilities => c.capabilities
    | .extensions => []
    | .extInstImports => [c.extension]
    | .memoryModel => [model]
    | .entryPoints => [c.point entry]
    | .executionModes => c.modes
    | .debug => c.names
    | .annotations => c.dictionary.annotations
    | .declarations => c.dictionary.declarations
    | .functions => c.functions := by
  cases s <;> rfl

theorem toList_layout (c : Parts) (entry : EntryPoint) :
    (c.layout entry).toList = c.instructions entry := by
  simp [Layout.toList, Section.all, get_layout, instructions]

/-- The module of the program `p` with this entry point is made of the parts `c`. -/
structure Of (p : Program) (entry : EntryPoint) (c : Parts) : Prop where
  shared : c.frame.Of p 1
  kernel : c.frame.functions.get? entry.method = some c.kernel
  grown : ∃ supply, (Dictionary.new supply).Steps c.dictionary
  sound : c.dictionary.Sound
  products : List.Forall₂ (Product.Of c.frame c.dictionary) p.methods c.products
  apart : Apart (2 + p.methods.length) c.dictionary (c.products.map Product.range)
  groups : c.dictionary.variablesIn .workgroup = c.products.flatMap Product.groups
  fits : ∀ i ∈ c.instructions entry, i.Fits

end Parts

theorem Product.Of.get_output {frame : Frame} {d : Dictionary} {m : Method} {x : Product}
    (h : x.Of frame d m) (s : Section) : x.job.work.output.get s =
      match s with
      | .executionModes => x.text.modes
      | .debug => x.text.names
      | .functions => x.text.functions
      | _ => [] := by
  rw [h.text.output]
  cases s <;> rfl

theorem Layout.toList_encode (l : Layout Instruction) : l.encode.toList = encodeAll l.toList := by
  simp [Layout.toList, Section.all, encodeAll_append]

theorem finish_ok {frame : Frame} {entry : EntryPoint} {b : Build} {layout : Layout Instruction}
    (h : b.finish frame entry = .ok layout) (xs : List Product) :
    ∃ kernel, frame.functions.get? entry.method = some kernel ∧
      (Parts.point ⟨frame, kernel, b.dictionary, xs⟩ entry).Fits ∧
      layout = (((b.target.append .capabilities
        (Parts.capabilities ⟨frame, kernel, b.dictionary, xs⟩)).append .memoryModel
          [Parts.model]).append .entryPoints
            [Parts.point ⟨frame, kernel, b.dictionary, xs⟩ entry]).merge b.dictionary.layout := by
  unfold Build.finish at h
  rcases hkernel : frame.functions.get entry.method with _ | kernel
  · rw [hkernel] at h
    cases h
  · simp only [hkernel, bind, Except.bind] at h
    split at h
    · rename_i hfits
      exact ⟨kernel, FunctionTable.get_ok_iff.mp hkernel, hfits, (Except.ok.inj h).symm⟩
    · cases h

/-- A successful run of the compiler, stage by stage. -/
theorem compile_ok_iff {o : Options} {p : Program} {entry : EntryPoint} {m : Module} :
    compile o p entry = .ok m ↔ (p.method? entry.method).isNone = false ∧
      ∃ frame supply b layout, Frame.ofProgram p o.debugNames Supply.new = (.ok frame, supply) ∧
        Build.functions frame entry p (Build.new frame supply) = (.ok (), b) ∧
        b.finish frame entry = .ok layout ∧
        m = ⟨layout.encode.serialize o.version o.generator (UInt32.ofNat b.dictionary.supply.next),
          b.dictionary.specIds⟩ := by
  unfold compile
  dsimp only
  cases hmissing : (p.method? entry.method).isNone with
  | true => exact ⟨nofun, nofun⟩
  | false =>
    rw [if_neg nofun]
    rcases hframe : Frame.ofProgram p o.debugNames Supply.new with ⟨_ | frame, supply⟩
    · exact ⟨nofun, by rintro ⟨-, _, _, _, _, ⟨⟩, _⟩⟩
    · simp only [Except.mapError, bind, Except.bind]
      rcases hfunctions : Build.functions frame entry p (Build.new frame supply) with ⟨_ | _, b⟩
      · exact ⟨nofun, by rintro ⟨-, _, _, _, _, ⟨⟩, run, _⟩; rw [hfunctions] at run; cases run⟩
      · rcases hfinish : b.finish frame entry with _ | layout
        · refine ⟨nofun, ?_⟩
          rintro ⟨-, _, _, _, _, ⟨⟩, run, finish, -⟩
          rw [hfunctions] at run
          cases run
          rw [hfinish] at finish
          cases finish
        · constructor
          · intro h
            exact ⟨trivial, frame, supply, b, layout, rfl, hfunctions, hfinish, (Except.ok.inj h).symm⟩
          · rintro ⟨-, _, _, _, _, ⟨⟩, run, finish, rfl⟩
            rw [hfunctions] at run
            cases run
            rw [hfinish] at finish
            cases finish
            rfl

theorem compile_stages {o : Options} {p : Program} {entry : EntryPoint} {m : Module}
    (h : compile o p entry = .ok m) :
    ∃ frame supply b layout, Frame.ofProgram p o.debugNames Supply.new = (.ok frame, supply) ∧
      Build.functions frame entry p (Build.new frame supply) = (.ok (), b) ∧
      b.finish frame entry = .ok layout ∧
      m.words = layout.encode.serialize o.version o.generator
        (UInt32.ofNat b.dictionary.supply.next) := by
  obtain ⟨-, frame, supply, b, layout, hframe, hfunctions, hfinish, rfl⟩ := compile_ok_iff.mp h
  exact ⟨frame, supply, b, layout, hframe, hfunctions, hfinish, rfl⟩

/-- Where a run of the compiler can stop. -/
theorem compile_error {o : Options} {p : Program} {entry : EntryPoint} {e : CompileError}
    (h : compile o p entry = .error e) :
    e = .missingEntryPoint entry.method ∧ p.method? entry.method = none ∨
      (∃ fault supply, Frame.ofProgram p o.debugNames Supply.new = (.error fault, supply) ∧
        e = .inModule fault) ∨
      ∃ frame supply, Frame.ofProgram p o.debugNames Supply.new = (.ok frame, supply) ∧
        ((∃ b, Build.functions frame entry p (Build.new frame supply) = (.error e, b)) ∨
          ∃ b fault, Build.functions frame entry p (Build.new frame supply) = (.ok (), b) ∧
            b.finish frame entry = .error fault ∧ e = .inModule fault) := by
  unfold compile at h
  dsimp only at h
  by_cases hmissing : (p.method? entry.method).isNone = true
  · rw [if_pos hmissing] at h
    cases h
    exact .inl ⟨rfl, Option.isNone_iff_eq_none.mp hmissing⟩
  · rw [if_neg hmissing] at h
    refine .inr ?_
    rcases hframe : Frame.ofProgram p o.debugNames Supply.new with ⟨fault | frame, supply⟩
    · rw [hframe] at h
      cases h
      exact .inl ⟨fault, supply, rfl, rfl⟩
    · rw [hframe] at h
      simp only [Except.mapError, bind, Except.bind] at h
      refine .inr ⟨frame, supply, rfl, ?_⟩
      rcases hfunctions : Build.functions frame entry p (Build.new frame supply) with ⟨_ | _, b⟩
      · rw [hfunctions] at h
        cases h
        exact .inl ⟨b, rfl⟩
      · rw [hfunctions] at h
        rcases hfinish : b.finish frame entry with fault | layout
        · rw [hfinish] at h
          cases h
          exact .inr ⟨b, fault, rfl, hfinish, rfl⟩
        · rw [hfinish] at h
          cases h

namespace Parts

theorem Of.product {p : Program} {entry : EntryPoint} {c : Parts} (h : c.Of p entry) {x : Product}
    (hx : x ∈ c.products) : ∃ m ∈ p.methods, x.Of c.frame c.dictionary m :=
  exists_left_of_forall₂ h.products hx

theorem product_of_note {c : Parts} {i : Instruction} (hi : i ∈ c.modes ++ c.names) :
    ∃ x ∈ c.products, i ∈ x.text.names ++ x.text.modes := by
  simp only [modes, names, List.mem_append, List.mem_flatMap] at hi
  rcases hi with ⟨x, hx, hi⟩ | ⟨x, hx, hi⟩
  · exact ⟨x, hx, List.mem_append_right _ hi⟩
  · exact ⟨x, hx, List.mem_append_left _ hi⟩

theorem fits_of_products {p : Program} {entry : EntryPoint} {c : Parts} (sound : c.dictionary.Sound)
    (declared : ∀ i ∈ c.dictionary.declarations, i.Fits)
    (products : List.Forall₂ (Product.Of c.frame c.dictionary) p.methods c.products)
    (hpoint : (c.point entry).Fits) : ∀ i ∈ c.instructions entry, i.Fits := by
  have notes : ∀ i ∈ c.modes ++ c.names, i.Fits := by
    intro i hi
    obtain ⟨x, hx, hi⟩ := product_of_note hi
    obtain ⟨m, -, hof⟩ := exists_left_of_forall₂ products hx
    obtain ⟨op, note⟩ := hof.text.note hi
    exact note.fits
  intro i hi
  simp only [instructions, List.mem_append, List.mem_cons] at hi
  rcases hi with hi | rfl | rfl | rfl | hi | hi | hi | hi | hi
  · obtain ⟨x, -, rfl⟩ := List.mem_map.mp hi
    exact fits_of _ (by simp [maxSize])
  · have : (Literal.encode "OpenCL.std").length = 3 := by decide +kernel
    exact fits_of _ (by simp [maxSize, this])
  · exact fits_of _ (by simp [maxSize])
  · exact hpoint
  · exact notes i (List.mem_append_left _ hi)
  · exact notes i (List.mem_append_right _ hi)
  · obtain ⟨w, -, a, b, rfl⟩ := sound.annotations i hi
    exact fits_of _ (by simp [maxSize])
  · exact declared i hi
  · obtain ⟨x, hx, hi⟩ := List.mem_flatMap.mp hi
    obtain ⟨m, -, hof⟩ := exists_left_of_forall₂ products hx
    exact hof.text.fits i hi

end Parts

theorem layout_module {frame : Frame} {entry : EntryPoint} {p : Program} {b : Build} {kernel : Id}
    {supply : Supply} {xs : List Product}
    (htarget : ∀ s, b.target.get s =
      (Build.new frame supply).target.get s ++ xs.flatMap fun x => x.job.work.output.get s)
    (products : List.Forall₂ (Product.Of frame b.dictionary) p.methods xs) :
    (((b.target.append .capabilities
      (Parts.capabilities ⟨frame, kernel, b.dictionary, xs⟩)).append .memoryModel
        [Parts.model]).append .entryPoints
          [Parts.point ⟨frame, kernel, b.dictionary, xs⟩ entry]).merge b.dictionary.layout =
      Parts.layout ⟨frame, kernel, b.dictionary, xs⟩ entry := by
  have outputs : ∀ s, (xs.flatMap fun x => x.job.work.output.get s) = xs.flatMap fun x =>
      match s with
      | .executionModes => x.text.modes
      | .debug => x.text.names
      | .functions => x.text.functions
      | _ => [] := by
    intro s
    refine List.flatMap_congr fun x hx => ?_
    obtain ⟨m, -, hof⟩ := exists_left_of_forall₂ products hx
    exact hof.get_output s
  have declared : ∀ s, b.dictionary.layout.get s =
      match s with
      | .annotations => b.dictionary.annotations
      | .declarations => b.dictionary.declarations
      | _ => [] := by intro s; cases s <;> rfl
  have nothing : (xs.flatMap fun _ => []) = ([] : List Instruction) := by simp
  ext1 s
  rw [Parts.get_layout]
  cases s <;> simp [htarget, outputs, declared, nothing, Build.new, Parts.modes, Parts.names,
    Parts.functions, Parts.extension]

/-- A module that compiles, part by part, and the run that made the parts. -/
theorem compile_parts {o : Options} {p : Program} {entry : EntryPoint} {m : Module}
    (h : compile o p entry = .ok m) :
    ∃ (c : Parts) (supply : Supply), c.Of p entry ∧
      Frame.ofProgram p o.debugNames Supply.new = (.ok c.frame, supply) ∧
      (∃ b, Build.bodies c.frame entry p (.new c.frame supply) =
        (.ok (c.products.map Product.job), b)) ∧
      (∃ b, Build.functions c.frame entry p (.new c.frame supply) = (.ok (), b) ∧
        b.dictionary = c.dictionary ∧ b.finish c.frame entry = .ok (c.layout entry)) ∧
      m = ⟨(c.layout entry).encode.serialize o.version o.generator
        (UInt32.ofNat c.dictionary.supply.next), c.dictionary.specIds⟩ := by
  obtain ⟨-, frame, supply, b, layout, hframe, hfunctions, hfinish, rfl⟩ := compile_ok_iff.mp h
  obtain ⟨hnext, hlimit, hof⟩ := Frame.ofProgram_ok hframe
  have hbase : 2 + p.methods.length ≤ supply.next := by
    simp only [Supply.new, Supply.startingAt] at hnext
    omega
  have start := Dictionary.sound_new supply
  obtain ⟨steps, xs, ⟨b₁, hbodies, -⟩, products, apart, groups, htarget⟩ :=
    functions_ok start (.new hbase hlimit) hfunctions
  obtain ⟨is, ids, ascends⟩ := steps.ascends
  have declared : ∀ i ∈ b.dictionary.declarations, i.Fits := by
    rw [ascends.declarations]
    exact ascends.fits
  obtain ⟨kernel, hkernel, hpoint, rfl⟩ := finish_ok hfinish xs
  have sound := steps.sound start
  rw [layout_module htarget products] at hfinish ⊢
  exact ⟨⟨frame, kernel, b.dictionary, xs⟩, supply, ⟨hof, hkernel, ⟨supply, steps⟩, sound,
    products, apart, groups, Parts.fits_of_products sound declared products hpoint⟩, hframe,
    ⟨b₁, hbodies⟩, ⟨b, hfunctions, rfl, hfinish⟩, rfl⟩

theorem compile_ok {o : Options} {p : Program} {entry : EntryPoint} {m : Module}
    (h : compile o p entry = .ok m) :
    ∃ c : Parts, c.Of p entry ∧
      m.words.drop Layout.headerSize = encodeAll (c.instructions entry) ∧
      m.bound = UInt32.ofNat c.dictionary.supply.next := by
  obtain ⟨c, supply, hof, -, -, -, rfl⟩ := compile_parts h
  refine ⟨c, hof, ?_, rfl⟩
  show Layout.toList _ = _
  rw [Layout.toList_encode, Parts.toList_layout]

end SpirvKernel
