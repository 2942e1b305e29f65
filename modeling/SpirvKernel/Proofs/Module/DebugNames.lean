import SpirvKernel.Proofs.Emission.Silence
import SpirvKernel.Proofs.Module.FunctionIds

/-!
# Debug names

The names of functions are decoration. With and without them a program is accepted or turned down
alike, unless a name is too long to be written, and the modules differ in the names alone.
-/

namespace SpirvKernel

open Instruction Attempt Emission

/-! ## Builds without names -/

def Job.silent (job : Job) : Job := ⟨job.task.silent, job.work.erased⟩

def Build.erased (b : Build) : Build := { b with target := b.target.bare }

def CompileError.NameTooLong (e : CompileError) : Prop := e = .inModule (.oversized .name)

theorem Job.follows_run {x : Task → Emit Unit} {job : Job}
    (h : Silences (x job.task) (x job.task.silent)) :
    Follows Build.erased NameTooLong silent (job.run x) (job.silent.run x) := by
  intro b
  rcases h ⟨b.dictionary, b.target, job.work⟩ with ⟨e, hx, he⟩ | hy
  · left
    exact ⟨e, by simp [run, hx, Except.map], he⟩
  · right
    have start : (⟨b.dictionary, b.target, job.work⟩ : Emission).erased =
        ⟨b.erased.dictionary, b.erased.target, job.silent.work⟩ := rfl
    rw [start] at hy
    unfold run
    dsimp only
    rw [show job.silent.task = job.task.silent from rfl, hy]
    cases (x job.task ⟨b.dictionary, b.target, job.work⟩).1 <;> rfl

theorem follows_taskStart (frame : Frame) (m : Method) (storage : Storage)
    (entry : Option EntryPoint) :
    Follows id NameTooLong (fun x => (x.1.silent, x.2.erased)) (Task.start frame m storage entry)
      (Task.start frame.silent m storage entry) := by
  unfold Task.start
  refine (follows_refl _).bind fun id => ?_
  exact (follows_refl _).bind fun range => follows_pure rfl

theorem Job.follows_start (frame : Frame) (entry : EntryPoint) (m : Method) :
    Follows Build.erased NameTooLong silent (start frame entry m) (start frame.silent entry m) := by
  unfold start
  refine Follows.bind (follows_onPart (follows_taskStart frame m _ _) ?_ ?_) fun x => follows_pure rfl
  · exact fun _ => rfl
  · exact fun _ _ => rfl

namespace Build

theorem follows_inMethod {α β : Type} {f : α → β} {x : Attempt Fault Build α}
    {y : Attempt Fault Build β} (name : String) (h : Follows erased NameTooLong f x y) :
    Follows erased CompileError.NameTooLong f (inMethod name x) (inMethod name y) := by
  intro b
  unfold inMethod
  rcases h b with ⟨e, hx, rfl⟩ | hy
  -- A fault that is not recoverable is reported without the name of the method.
  · left
    refine ⟨.inModule (.oversized .name), ?_, rfl⟩
    dsimp only
    rw [hx]
    rfl
  · right
    rw [hy]
    obtain ⟨r, b'⟩ := x b
    cases r <;> rfl

theorem follows_header (frame : Frame) (entry : EntryPoint) (m : Method) :
    Follows erased CompileError.NameTooLong Job.silent (header frame entry m)
      (header frame.silent entry m) :=
  follows_inMethod _ ((Job.follows_start frame entry m).bind fun job =>
    Job.follows_run (silences_header job.task))

theorem follows_body (job : Job) :
    Follows erased CompileError.NameTooLong Job.silent (body job) (body job.silent) :=
  follows_inMethod _ (Job.follows_run (silences_body job.task))

theorem follows_merge (job : Job) :
    Follows erased CompileError.NameTooLong Job.silent (merge job) (merge job.silent) :=
  follows_inMethod _ (Job.follows_run silences_merge)

theorem follows_functions (frame : Frame) (entry : EntryPoint) (p : Program) :
    Follows erased CompileError.NameTooLong id (functions frame entry p)
      (functions frame.silent entry p) := by
  unfold functions
  have headers := follows_mapM (follows_header frame entry) p.methods
  rw [List.map_id'] at headers
  refine headers.bind fun headed => ?_
  refine (follows_mapM follows_body headed).bind fun complete => ?_
  exact (follows_mapM follows_merge complete).bind fun _ => follows_pure rfl

theorem finish_erased (frame : Frame) (entry : EntryPoint) (b : Build) :
    b.erased.finish frame.silent entry = (b.finish frame entry).map Layout.bare := by
  have sections (capabilities model point : List Instruction) :
      (((b.erased.target.append .capabilities capabilities).append .memoryModel model).append
        .entryPoints point).merge b.dictionary.layout =
      ((((b.target.append .capabilities capabilities).append .memoryModel model).append
        .entryPoints point).merge b.dictionary.layout).bare := by
    have declared : b.dictionary.layout.bare = b.dictionary.layout := rfl
    simp [Build.erased, Layout.bare_merge, Layout.bare_append, declared]
  unfold finish
  rw [show frame.silent.functions = frame.functions from rfl,
    show b.erased.dictionary = b.dictionary from rfl]
  cases frame.functions.get entry.method with
  | error e => rfl
  | ok kernel =>
    simp only [bind, Except.bind, sections]
    split <;> rfl

end Build

/-! ## Modules without names -/

theorem Frame.ofProgram_silent (p : Program) (s : Supply) : Frame.ofProgram p false s =
    ((Frame.ofProgram p true s).1.map Frame.silent, (Frame.ofProgram p true s).2) := by
  have follows : Follows id (fun _ : Fault => False) Frame.silent (Frame.ofProgram p true)
      (Frame.ofProgram p false) := by
    unfold Frame.ofProgram
    refine (follows_refl _).bind fun openCl => ?_
    exact (follows_refl _).bind fun functions => follows_pure rfl
  rcases follows s with ⟨e, -, excuse⟩ | h
  · exact excuse.elim
  · exact h

theorem Frame.debugNames_ofProgram {p : Program} {debugNames : Bool} {s s' : Supply} {frame : Frame}
    (h : Frame.ofProgram p debugNames s = (.ok frame, s')) : frame.debugNames = debugNames := by
  simp only [ofProgram, bind_eq_ok_iff, pure_ok_iff] at h
  obtain ⟨_, _, -, _, _, -, rfl, rfl⟩ := h
  rfl

/-- The sections of the module and the dictionary in the end. -/
def Program.sections (p : Program) (debugNames : Bool) (entry : EntryPoint) :
    Except CompileError (Layout Instruction × Dictionary) := do
  if (p.method? entry.method).isNone then throw (.missingEntryPoint entry.method)
  let (frame, supply) := Frame.ofProgram p debugNames Supply.new
  let frame ← frame.mapError .inModule
  let (done, build) := Build.functions frame entry p (Build.new frame supply)
  done
  let layout ← (build.finish frame entry).mapError .inModule
  pure (layout, build.dictionary)

/-- The words of a module, as the options ask for them. -/
def Options.write (o : Options) (x : Layout Instruction × Dictionary) : Module where
  words := x.1.encode.serialize o.version o.generator (UInt32.ofNat x.2.supply.next)
  specIds := x.2.specIds

theorem compile_eq (o : Options) (p : Program) (entry : EntryPoint) :
    compile o p entry = (p.sections o.debugNames entry).map o.write := by
  unfold compile Program.sections
  dsimp only
  split
  · rfl
  · rcases Frame.ofProgram p o.debugNames Supply.new with ⟨_ | frame, supply⟩
    · rfl
    · simp only [Except.mapError, bind, Except.bind, pure, Except.pure]
      rcases Build.functions frame entry p (Build.new frame supply) with ⟨_ | _, b⟩
      · rfl
      · cases b.finish frame entry <;> rfl

theorem Program.sections_silent (p : Program) (entry : EntryPoint) :
    p.sections true entry = .error (.inModule (.oversized .name)) ∨
      p.sections false entry = (p.sections true entry).map fun x => (x.1.bare, x.2) := by
  unfold Program.sections
  dsimp only
  rw [Frame.ofProgram_silent]
  split
  · exact .inr rfl
  · rcases Frame.ofProgram p true Supply.new with ⟨e | frame, supply⟩
    · exact .inr rfl
    · simp only [Except.map, Except.mapError, bind, Except.bind, pure, Except.pure]
      rcases Build.follows_functions frame entry p (Build.new frame supply) with ⟨e, failed, rfl⟩ | h
      · left
        rw [failed]
      · right
        rw [show Build.new frame.silent supply = (Build.new frame supply).erased from rfl, h]
        rcases Build.functions frame entry p (Build.new frame supply) with ⟨e | _, b⟩
        · rfl
        · simp only [Except.map, Build.finish_erased]
          cases b.finish frame entry <;> rfl

namespace Parts

variable {p : Program} {entry : EntryPoint} {c : Parts}

theorem names_of_products {ms : List Method} {xs : List Product} {frame : Frame} {d : Dictionary}
    (shown : frame.debugNames = true) (h : List.Forall₂ (Product.Of frame d) ms xs) :
    xs.flatMap (·.text.names) = (ms.zip (xs.map (·.job.task.id.word))).map fun z =>
      .of .name (z.2 :: Literal.encode z.1.name) := by
  induction h with
  | nil => rfl
  | cons hof _ ih =>
    rw [List.flatMap_cons, ih, hof.text.named, nameNotes, hof.shared, if_pos shown, hof.method]
    rfl

theorem Of.filter_name (h : c.Of p entry) (shown : c.frame.debugNames = true) :
    (c.instructions entry).filter (isA .name) =
      (p.methods.zip (Instruction.functionIds (c.instructions entry))).map fun z =>
        .of .name (z.2 :: Literal.encode z.1.name) := by
  rw [h.filter_instructions, h.filter_declarations rfl, h.filter_functions rfl, h.functionIds,
    ← names_of_products shown h.products]
  simp [names]

theorem filter_others {op : Opcode} {before names after : List Instruction}
    (hnames : ∀ i ∈ names, i.isA op = true)
    (h : (before ++ (names ++ after)).filter (isA op) = names) :
    (before ++ (names ++ after)).filter (fun i => !i.isA op) = before ++ after := by
  have own : names.filter (isA op) = names := List.filter_eq_self.mpr hnames
  have lengths := congrArg List.length h
  rw [List.filter_append, List.filter_append, own, List.length_append, List.length_append] at lengths
  have others {is : List Instruction} (none : (is.filter (isA op)).length = 0) :
      is.filter (fun i => !i.isA op) = is := by
    have none := List.filter_eq_nil_iff.mp (List.eq_nil_of_length_eq_zero none)
    exact List.filter_eq_self.mpr fun i hi => by simpa using none i hi
  have left : names.filter (fun i => !i.isA op) = [] :=
    List.filter_eq_nil_iff.mpr fun i hi => by simp [hnames i hi]
  rw [List.filter_append, List.filter_append, others (by omega), left, others (by omega),
    List.nil_append]

theorem Of.toList_bare (h : c.Of p entry) :
    (c.layout entry).bare.toList = (c.instructions entry).filter fun i => !i.isA .name := by
  have named : (c.instructions entry).filter (isA .name) = c.names := by
    rw [h.filter_instructions, h.filter_declarations rfl, h.filter_functions rfl]
    simp
  have split : c.instructions entry = (c.capabilities ++ (c.extension :: model :: c.point entry ::
      c.modes)) ++ (c.names ++ (c.dictionary.annotations ++
        (c.dictionary.declarations ++ c.functions))) := by
    simp [instructions]
  have hnames : ∀ i ∈ c.names, i.isA .name = true := by
    intro i hi
    simp [isA, h.opcode_names i hi]
  rw [split] at named ⊢
  rw [filter_others hnames named]
  simp [Layout.toList, Section.all, Layout.get_bare, get_layout]

end Parts

theorem sections_parts {p : Program} {entry : EntryPoint} {x : Layout Instruction × Dictionary}
    (h : p.sections true entry = .ok x) :
    ∃ c : Parts, c.Of p entry ∧ c.frame.debugNames = true ∧ x = (c.layout entry, c.dictionary) := by
  have compiled := compile_eq {} p entry
  rw [h] at compiled
  obtain ⟨found, -⟩ := compile_ok_iff.mp compiled
  obtain ⟨c, supply, hof, hframe, -, ⟨b, hfunctions, hdictionary, hfinish⟩, -⟩ := compile_parts compiled
  refine ⟨c, hof, Frame.debugNames_ofProgram hframe, ?_⟩
  unfold Program.sections at h
  dsimp only at h hframe
  rw [found, hframe] at h
  simp only [Except.mapError, bind, Except.bind, hfunctions, hfinish, hdictionary] at h
  exact (Except.ok.inj h).symm

/-- Leaving out the names of functions changes nothing else. -/
theorem compile_debugNames_decorate {o : Options} {p : Program} {entry : EntryPoint}
    (fits : compile { o with debugNames := true } p entry ≠ .error (.inModule (.oversized .name))) :
    (∃ e, compile { o with debugNames := true } p entry = .error e ∧
      compile { o with debugNames := false } p entry = .error e) ∨
    ∃ m m', compile { o with debugNames := true } p entry = .ok m ∧
      compile { o with debugNames := false } p entry = .ok m' ∧
      m'.bound = m.bound ∧ m'.specIds = m.specIds ∧
      ∃ is, decodeAll (m.words.drop Layout.headerSize) = (is, []) ∧
        m'.words = m.words.take Layout.headerSize ++ encodeAll (is.filter fun i => !i.isA .name) ∧
        (functionIds is).length = p.methods.length ∧
        is.filter (isA .name) = (p.methods.zip (functionIds is)).map fun z =>
          .of .name (z.2 :: Literal.encode z.1.name) := by
  have named := compile_eq { o with debugNames := true } p entry
  have plain := compile_eq { o with debugNames := false } p entry
  dsimp only at named plain
  rcases p.sections_silent entry with failed | silent
  · -- A name is too long, which was ruled out.
    rw [named, failed] at fits
    exact absurd rfl fits
  · -- Both runs have the same sections, but for the names.
    rw [silent] at plain
    cases hx : p.sections true entry with
    | error e =>
      rw [hx] at named plain
      exact .inl ⟨e, named, plain⟩
    | ok x =>
      rw [hx] at named plain
      refine .inr ⟨_, _, named, plain, rfl, rfl, ?_⟩
      obtain ⟨c, hof, shown, hc⟩ := sections_parts hx
      subst hc
      refine ⟨c.instructions entry, hof.decode _ _ _, ?_, ?_, hof.filter_name shown⟩
      · rw [← hof.toList_bare, ← Layout.toList_encode]
        rfl
      · rw [hof.functionIds, List.length_map, hof.products.length_eq]

theorem doubling_debugNames_decorate :
    compile {} doubling doublingEntry ≠ .error (.inModule (.oversized .name)) ∧
      ∃ m m', compile {} doubling doublingEntry = .ok m ∧
        compile { debugNames := false } doubling doublingEntry = .ok m' ∧ m'.bound = m.bound ∧
        ∃ is, decodeAll (m.words.drop Layout.headerSize) = (is, []) ∧
          m'.words = m.words.take Layout.headerSize ++
            encodeAll (is.filter fun i => !i.isA .name) ∧
          (is.filter (isA .name)).length = 2 := by
  obtain ⟨m, h, -⟩ : ∃ m, compile {} doubling doublingEntry = .ok m ∧ true = true :=
    exists_ok_of_any (by decide +kernel)
  have fits : compile {} doubling doublingEntry ≠ .error (.inModule (.oversized .name)) := by
    rw [h]
    nofun
  refine ⟨fits, ?_⟩
  rcases compile_debugNames_decorate (o := {}) fits with ⟨e, he, -⟩ | hok
  · cases h.symm.trans he
  · obtain ⟨m, m', hm, hm', hbound, -, is, hdecode, hwords, hlength, hnames⟩ := hok
    refine ⟨m, m', hm, hm', hbound, is, hdecode, hwords, ?_⟩
    rw [hnames, List.length_map, List.length_zip, hlength]
    rfl

end SpirvKernel
