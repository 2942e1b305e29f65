import SpirvKernel.Proofs.Emission.Acceptance
import SpirvKernel.Proofs.Module.Capacity

/-!
# Which programs are compiled

A program is compiled exactly if it is well-formed, unless it is too large.
-/

namespace SpirvKernel

open Attempt

/-! ## Jobs -/

namespace Build

variable {p : Program} {frame : Frame} {entry : EntryPoint} {b : Build} {job : Job} {C : Prop}

theorem settles_inMethod {α : Type} {name : String} {Q : α → Build → Prop} {spare : Fault → Prop}
    {known : CompileError → Prop} {x : Attempt Fault Build α}
    (hspare : ∀ fault, spare fault → known (.ofFault name fault)) (h : Settles spare C Q x b) :
    Settles known C Q (inMethod name x) b := by
  refine settles_of (fun a b' run => h.ok (inMethod_ok_iff.mp run)) fun e b' run hC => ?_
  rcases hx : x b with ⟨fault | a, b₁⟩
  · rw [inMethod, hx] at run
    cases run
    exact hspare fault (h.error hx hC)
  · rw [inMethod, hx] at run
    cases run

theorem settles_run {x : Task → Emit Unit} {Q : Work → Prop} {spare : Fault → Prop}
    (h : Settles spare C (fun _ s => Q s.work) (x job.task) ⟨b.dictionary, b.target, job.work⟩) :
    Settles spare C (fun job' _ => job'.task = job.task ∧ Q job'.work) (job.run x) b := by
  refine settles_of (fun job' b' run => ?_) fun e b' run hC => ?_
  · obtain ⟨s, hs, rfl, rfl⟩ := Job.run_ok_iff.mp run
    exact ⟨(h.ok hs).1, rfl, (h.ok hs).2⟩
  · rcases hx : x job.task ⟨b.dictionary, b.target, job.work⟩ with ⟨fault | _, s⟩
    · rw [Job.run, hx] at run
      cases run
      exact h.error hx hC
    · rw [Job.run, hx] at run
      cases run

/-- A frame that knows the methods of the program, and no others. -/
def KnowsMethods (p : Program) (frame : Frame) : Prop :=
  ∀ id, (frame.functions.get? id).isSome ↔ ∃ m ∈ p.methods, m.id = id

/-- The job has been taken up for the method `m`. -/
structure StartedFor (p : Program) (entry : EntryPoint) (m : Method) (job : Job) : Prop where
  method : job.task.method = m
  serves : job.task.Serves p
  kernel : job.task.entry.isSome ↔ m.id = entry.method

theorem settles_reserve (n : Nat) (s : Supply) : Settles (·.isShortage = true) True
    (fun r _ => r = ⟨s.next, s.next + n⟩) (Supply.reserve n) s := by
  refine settles_of (fun r s' run => ⟨trivial, ?_⟩) fun e s' run _ => ?_
  · exact (Supply.reserve_ok_iff.mp run).2.1
  · unfold Supply.reserve at run
    split at run <;> cases run
    rfl

theorem hasNames_start (r : IdRange) {n : Nat} (hr : r.next + n ≤ r.stop) :
    (Emission.start r).HasNames (fun _ => False) (fun _ => False) [] n where
  values _ := ⟨nofun, nofun⟩
  blocks _ := ⟨nofun, nofun⟩
  room := hr
  missing := nofun
  accounted := nofun

theorem settles_start {m : Method} (knows : KnowsMethods p frame) (hm : m ∈ p.methods)
    (distinct : m.Distinct) :
    Settles (·.isShortage = true) True (fun job _ => StartedFor p entry m job ∧
      job.work.stage = .constructed ∧
        job.work.HasNames (fun _ => False) (fun _ => False) [] m.idBudget)
      (Job.start frame entry m) b := by
  have task : Settles (·.isShortage = true) True
      (fun x _ => StartedFor p entry m ⟨x.1, x.2⟩ ∧ x.2.stage = .constructed ∧
        x.2.HasNames (fun _ => False) (fun _ => False) [] m.idBudget)
      (Task.start frame m (.ofMethod m) (if m.id = entry.method then some entry else none))
      b.dictionary.supply := by
    refine (settles_choice (fun _ => FunctionTable.get_ok_iff) _).read
      (fun _ => (knows m.id).mpr ⟨m, hm, rfl⟩) fun id _ _ => ?_
    refine (settles_reserve _ _).bind (fun _ => trivial) fun r s₁ _ hr => ?_
    refine settles_pure trivial ⟨⟨rfl, ⟨rfl, knows, distinct⟩, ?_⟩, rfl, hasNames_start r ?_⟩
    · by_cases hkernel : m.id = entry.method <;> simp [hkernel]
    · rw [hr]
  refine Settles.bind (settles_onPart task) id fun x b₁ _ hx => ?_
  obtain ⟨s', hx, -⟩ := hx
  exact settles_pure trivial hx

/-! ## Headers, bodies and the merge -/

/-- The header of the method `m` has been written. -/
structure AfterHeader (p : Program) (m : Method) (job : Job) : Prop where
  method : job.task.method = m
  serves : job.task.Serves p
  stage : job.work.stage = .afterHeader
  names : job.work.HasNames (· ∈ m.params.map (·.value)) (fun _ => False) []
    (3 * m.values.length + m.blocks.length)

theorem settles_header {m : Method} (knows : KnowsMethods p frame) (hm : m ∈ p.methods)
    (distinct : m.Distinct) :
    Settles CompileError.IsShortage (m.id = entry.method → m.returnType = .void)
      (fun job _ => AfterHeader p m job) (header frame entry m) b := by
  refine settles_inMethod (fun _ => CompileError.isShortage_ofFault.mpr) ?_
  refine (settles_start knows hm distinct).bind (fun _ => trivial) fun job b₁ _ hjob => ?_
  obtain ⟨⟨rfl, serves, kernel⟩, stage, holds⟩ := hjob
  have params := (List.nodup_append.mp distinct.values).1
  have room : job.work.HasNames (fun _ => False) (fun _ => False) []
      (3 * job.task.method.values.length + job.task.method.blocks.length +
        job.task.method.params.length) := holds.le (by unfold Method.idBudget; omega)
  rw [← kernel]
  refine (settles_run (Q := fun w => w.HasNames _ _ _ _ ∧ w.stage = _)
    (Emission.decides_header params stage room)).imp fun job' _ hjob' => ?_
  obtain ⟨htask, hholds, hstage⟩ := hjob'
  exact ⟨by rw [htask], by rw [htask]; exact serves, hstage, hholds⟩

theorem settles_body {m : Method} (headed : AfterHeader p m job) :
    Settles CompileError.IsShortage (m.WellFormed p) (fun job' _ => job'.work.stage = .afterBody)
      (body job) b := by
  obtain ⟨rfl, serves, stage, holds⟩ := headed
  refine settles_inMethod (fun _ => CompileError.isShortage_ofFault.mpr) ?_
  refine (settles_run (Q := (·.stage = .afterBody)) ?_).imp fun _ _ => And.right
  exact Emission.decides_body serves stage holds

theorem settles_merge (stage : job.work.stage = .afterBody) :
    Settles CompileError.IsShortage True (fun _ _ => True) (merge job) b := by
  refine settles_inMethod (fun _ => CompileError.isShortage_ofFault.mpr) ?_
  refine (settles_run (Q := fun _ => True) ?_).imp fun _ _ => And.right
  refine (Emission.decides_expect stage).bind id fun _ s₁ _ _ => ?_
  exact ⟨trivial, trivial⟩

theorem methods_of_afterHeader {ms : List Method} {jobs : List Job}
    (h : List.Forall₂ (AfterHeader p) ms jobs) : jobs.map (·.task.method) = ms := by
  induction h with
  | nil => rfl
  | cons headed _ ih => rw [List.map_cons, ih, headed.method]

theorem forall_afterHeader {jobs : List Job} {P : Method → Prop}
    (h : List.Forall₂ (AfterHeader p) p.methods jobs) :
    (∀ job ∈ jobs, P job.task.method) ↔ ∀ m ∈ p.methods, P m := by
  have methods := methods_of_afterHeader h
  constructor
  · intro hjobs m hm
    rw [← methods] at hm
    obtain ⟨job, hjob, rfl⟩ := List.mem_map.mp hm
    exact hjobs job hjob
  · intro hmethods job hjob
    exact hmethods _ (methods ▸ List.mem_map_of_mem hjob)

theorem settles_functions (knows : KnowsMethods p frame) (distinct : ∀ m ∈ p.methods, m.Distinct) :
    Settles CompileError.IsShortage
      ((∀ m ∈ p.methods, m.id = entry.method → m.returnType = .void) ∧
        ∀ m ∈ p.methods, m.WellFormed p) (fun _ _ => True) (functions frame entry p) b := by
  have headers : Settles CompileError.IsShortage _ (fun jobs _ => List.Forall₂ (AfterHeader p) _ jobs)
      (p.methods.mapM (header frame entry)) b :=
    settles_mapM fun m hm _ => settles_header knows hm (distinct m hm)
  refine headers.bind And.left fun jobs b₁ hvoid headed => ?_
  have bodies : Settles CompileError.IsShortage (∀ job ∈ jobs, job.task.method.WellFormed p)
      (fun jobs' _ => List.Forall₂ (fun _ job => job.work.stage = .afterBody) jobs jobs')
      (jobs.mapM body) b₁ := by
    refine settles_mapM fun job hjob _ => ?_
    obtain ⟨m, -, hm⟩ := exists_left_of_forall₂ headed hjob
    exact settles_body { hm with method := rfl, names := by rw [hm.method]; exact hm.names }
  refine (bodies.congr (forall_afterHeader headed)).bind And.right fun jobs' b₂ hbodies done => ?_
  have merges : Settles CompileError.IsShortage (∀ job ∈ jobs', True)
      (fun merged _ => List.Forall₂ (fun _ _ => True) jobs' merged) (jobs'.mapM merge) b₂ := by
    refine settles_mapM fun job hjob _ => ?_
    obtain ⟨_, -, stage⟩ := exists_left_of_forall₂ done hjob
    exact settles_merge stage
  exact merges.bind (fun _ _ _ => trivial) fun _ _ _ _ => settles_pure ⟨hvoid, hbodies⟩ trivial

end Build

/-! ## The frame -/

theorem settles_draw (s : Supply) :
    Settles (·.isShortage = true) True (fun _ _ => True) Supply.draw s :=
  (Build.settles_reserve 1 s).bind id fun _ _ _ _ => settles_pure trivial trivial

theorem settles_numbers (ms : List Method) (table : FunctionTable) (s : Supply) :
    Settles (·.isShortage = true) True
      (fun t _ => ∀ id, (t.get? id).isSome ↔ (table.get? id).isSome ∨ ∃ m ∈ ms, m.id = id)
      (ms.foldlM (fun table m => table.insert m.id <$> Supply.draw) table) s := by
  induction ms generalizing table s with
  | nil => exact settles_pure trivial (by simp)
  | cons m ms ih =>
    rw [List.foldlM_cons]
    have first : Settles (·.isShortage = true) True (fun t _ => ∃ id, t = table.insert m.id id)
        (table.insert m.id <$> Supply.draw) s := (settles_draw s).map fun id _ _ => ⟨id, rfl⟩
    refine first.bind id fun _ s₁ _ h => ?_
    obtain ⟨x, rfl⟩ := h
    refine (ih (table.insert m.id x) s₁).imp fun t _ ht id => ?_
    rw [ht, FunctionTable.get?_insert, List.exists_mem_cons_iff]
    by_cases heq : id = m.id
    · simp [heq]
    · simp [heq, Ne.symm heq]

theorem settles_ofProgram (p : Program) (debugNames : Bool) (s : Supply) :
    Settles (·.isShortage = true) True (fun frame _ => Build.KnowsMethods p frame)
      (Frame.ofProgram p debugNames) s := by
  refine (settles_draw s).bind id fun openCl s₁ _ _ => ?_
  refine (settles_numbers p.methods .empty s₁).bind id fun functions s₂ _ h => ?_
  exact settles_pure trivial fun id => by simpa [FunctionTable.empty, FunctionTable.get?] using h id

/-! ## The whole program -/

theorem finish_error {frame : Frame} {entry : EntryPoint} {b : Build} {fault : Fault}
    (known : (frame.functions.get? entry.method).isSome) (h : b.finish frame entry = .error fault) :
    fault.isShortage = true := by
  obtain ⟨kernel, hkernel⟩ := Option.isSome_iff_exists.mp known
  rw [Build.finish, FunctionTable.get_ok_iff.mpr hkernel] at h
  simp only [bind, Except.bind] at h
  split at h <;> cases h
  rfl

section

variable {o : Options} {p : Program} {entry : EntryPoint}

theorem wellFormed_of_ok (distinct : ∀ m ∈ p.methods, m.Distinct) {m : Module}
    (h : compile o p entry = .ok m) : p.WellFormed entry := by
  obtain ⟨frame, supply, b, layout, hframe, hfunctions, hfinish, -⟩ := compile_stages h
  have knows := ((settles_ofProgram p o.debugNames Supply.new).ok hframe).2
  obtain ⟨kernel, hkernel, -, -⟩ := finish_ok hfinish []
  obtain ⟨hvoid, hmethods⟩ := ((Build.settles_functions knows distinct).ok hfunctions).1
  exact ⟨(knows entry.method).mp (by simp [hkernel]), hvoid, hmethods⟩

theorem isShortage_of_error (distinct : ∀ m ∈ p.methods, m.Distinct) {e : CompileError}
    (h : compile o p entry = .error e) (hp : p.WellFormed entry) : e.IsShortage := by
  rcases compile_error h with ⟨rfl, hmissing⟩ | ⟨fault, supply, hframe, rfl⟩ |
    ⟨frame, supply, hframe, ⟨b, hfunctions⟩ | ⟨b, fault, hfunctions, hfinish, rfl⟩⟩
  · obtain ⟨m, hm, hid⟩ := hp.present
    rw [Program.method?, List.find?_eq_none] at hmissing
    exact absurd hid (by simpa using hmissing m hm)
  · exact (settles_ofProgram p o.debugNames Supply.new).error hframe trivial
  · have knows := ((settles_ofProgram p o.debugNames Supply.new).ok hframe).2
    exact (Build.settles_functions knows distinct).error hfunctions ⟨hp.kernel, hp.methods⟩
  · have knows := ((settles_ofProgram p o.debugNames Supply.new).ok hframe).2
    exact finish_error ((knows entry.method).mpr hp.present) hfinish

/-- Well-formed programs compile, if there is room for them, and no others. -/
theorem compile_accepts_exactly (distinct : ∀ m ∈ p.methods, m.Distinct) :
    (∀ out, compile o p entry = .ok out → p.WellFormed entry) ∧
      (p.WellFormed entry → (∃ out, compile o p entry = .ok out) ∨
        ∃ e, compile o p entry = .error e ∧ e.IsShortage) ∧
      (p.Small entry → ((∃ out, compile o p entry = .ok out) ↔ p.WellFormed entry)) := by
  have accepted (hp : p.WellFormed entry) : (∃ out, compile o p entry = .ok out) ∨
      ∃ e, compile o p entry = .error e ∧ e.IsShortage := by
    cases h : compile o p entry with
    | ok out => exact .inl ⟨out, rfl⟩
    | error e => exact .inr ⟨e, rfl, isShortage_of_error distinct h hp⟩
  refine ⟨fun _ => wellFormed_of_ok distinct, accepted, fun small => ⟨?_, fun hp => ?_⟩⟩
  · rintro ⟨out, h⟩
    exact wellFormed_of_ok distinct h
  · rcases accepted hp with h | ⟨e, h, shortage⟩
    · exact h
    · exact absurd shortage (not_isShortage_of_small small h)

end

/-- A store to memory that a later block allocates, and a loop that takes a value from its end. -/
def gather : Program where
  methods := [
    { id := ⟨2⟩, name := "gather", params := [⟨⟨0⟩, .pointer .i32 .global⟩], returnType := .void
      blocks := [
        { id := ⟨4⟩
          body := [⟨⟨1⟩, .i32, .constant (.ofWord 1)⟩, ⟨⟨2⟩, .void, .store ⟨6⟩ ⟨1⟩⟩]
          terminator := .branch ⟨7⟩ },
        { id := ⟨7⟩
          body := [⟨⟨3⟩, .i32, .phi [(⟨1⟩, ⟨4⟩), (⟨4⟩, ⟨7⟩)]⟩,
            ⟨⟨4⟩, .i32, .binary .add ⟨3⟩ ⟨1⟩ .none⟩, ⟨⟨5⟩, .void, .barrier⟩]
          terminator := .switch ⟨4⟩ [(9, ⟨1⟩)] ⟨7⟩ },
        { id := ⟨1⟩
          body := [⟨⟨6⟩, .pointer .i32 .local, .alloca .i32 .single⟩]
          terminator := .ret none }] }]

def gatherEntry : EntryPoint where
  method := ⟨2⟩
  name := "gather"
  rank := .one
  groupSize := none

theorem gather_accepted :
    (∀ m ∈ gather.methods, m.Distinct) ∧ gather.Small gatherEntry ∧
      (∃ out, compile {} gather gatherEntry = .ok out) ∧ gather.WellFormed gatherEntry := by
  have distinct : ∀ m ∈ gather.methods, m.Distinct := by
    simp only [gather, List.mem_singleton, forall_eq]
    exact ⟨by decide, by decide⟩
  have small : gather.Small gatherEntry := by
    unfold Program.Small
    decide +kernel
  obtain ⟨out, h, -⟩ : ∃ out, compile {} gather gatherEntry = .ok out ∧ true = true :=
    exists_ok_of_any (by decide +kernel)
  have accepted : ∃ out, compile {} gather gatherEntry = .ok out := ⟨out, h⟩
  exact ⟨distinct, small, accepted, ((compile_accepts_exactly distinct).2.2 small).mp accepted⟩

end SpirvKernel
