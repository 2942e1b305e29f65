import SpirvKernel.Proofs.Emission.Budget
import SpirvKernel.Proofs.Module.Acceptance
import SpirvKernel.Proofs.Module.Lifecycle

/-!
# Compilation has no internal faults

The identifiers set aside for a method last for its header and its body, however they end. The compiler
asks for headers, bodies and merges in their order, so whatever stops it is a fault of the program.
-/

namespace SpirvKernel

open Attempt Emission

/-! ## One method -/

namespace Emission

variable {t : Task} {s : Emission} {n : Nat}

theorem ConsumesAt.next_le {x : Emit Unit} (h : ConsumesAt n x s)
    (stop : (x s).2.work.table.range.stop = s.work.table.range.stop) :
    (x s).2.work.table.range.next ≤ s.work.table.range.next + n := by
  have used := h.1
  simp only [Emission.used, IdTable.used, stop] at used
  omega

theorem ConsumesAt.settles {x : Emit Unit} (h : ConsumesAt n x s)
    (room : s.work.table.range.next + n ≤ s.work.table.range.stop)
    (limit : s.work.table.range.stop ≤ Supply.limit) :
    Settles (·.isInternal = false) True (fun _ s' => x s = (.ok (), s')) x s := by
  refine settles_of (fun _ s' run => ⟨trivial, run⟩) fun e s' run _ => ?_
  rcases h.2 e (by rw [run]) with ⟨-, full⟩ | regular
  · simp only [Emission.used, IdTable.used] at full
    omega
  · exact regular

theorem stop_header (t : Task) (s : Emission) :
    (header t s).2.work.table.range.stop = s.work.table.range.stop := by
  rcases run : header t s with ⟨e | _, s'⟩
  · exact (failsWith_header t s e s' run).table.stop
  · obtain ⟨is, names, modes, headed⟩ := header_ok run
    exact headed.stop

theorem stop_body (hp : s.work.pending = []) :
    (body t s).2.work.table.range.stop = s.work.table.range.stop := by
  rcases run : body t s with ⟨e | _, s'⟩
  · exact (failsWith_body t s e s' run).table.stop
  · obtain ⟨cs, complete⟩ := body_ok hp run (.refl _)
    exact complete.stop

/-- What is left of its range is enough for the body of the method. -/
structure HasRoomForBody (t : Task) (w : Work) : Prop where
  stage : w.stage = .afterHeader
  pending : w.pending = []
  room : w.table.range.next + (t.method.blocks.length + 3 * t.method.values.length) ≤
    w.table.range.stop

theorem header_hasRoomForBody {d : Dictionary} {g : Layout Instruction} {r : IdRange} {s : Emission}
    (hr : r.next + t.method.idBudget ≤ r.stop)
    (run : header t ⟨d, g, Emission.start r⟩ = (.ok (), s)) : HasRoomForBody t s.work := by
  obtain ⟨is, names, modes, headed⟩ := header_ok run
  have taken := (header_consumes (s := ⟨d, g, Emission.start r⟩) t rfl).next_le (stop_header t _)
  have stop := headed.stop
  rw [run] at taken
  refine ⟨headed.stage, headed.pending, ?_⟩
  change s.work.table.range.next ≤ r.next + t.method.params.length at taken
  change s.work.table.range.stop = r.stop at stop
  unfold Method.idBudget at hr
  omega

theorem next_le_of_header_body (hstorage : t.storage = .ofMethod t.method)
    (d d' : Dictionary) (g g' : Layout Instruction) (r : IdRange) :
    (header t ⟨d, g, Emission.start r⟩).2.work.table.range.next ≤ r.next + t.method.idBudget ∧
      (body t ⟨d', g', (header t ⟨d, g, Emission.start r⟩).2.work⟩).2.work.table.range.next ≤
        r.next + t.method.idBudget := by
  -- Both may fail, and the dictionary may have changed between them.
  have headed := (header_consumes (s := ⟨d, g, Emission.start r⟩) t rfl).next_le (stop_header t _)
  change _ ≤ r.next + t.method.params.length at headed
  have budget : t.method.params.length + (t.method.blocks.length + 3 * t.method.values.length) ≤
      t.method.idBudget := by
    unfold Method.idBudget
    omega
  refine ⟨by omega, ?_⟩
  rcases run : header t ⟨d, g, Emission.start r⟩ with ⟨e | _, s⟩
  · -- After a header that failed there is no body.
    have stage : s.work.stage ≠ Call.body.stage := by
      rw [(failsWith_header t _ e s run).stage]
      nofun
    have refused : body t ⟨d', g', s.work⟩ = _ := perform_refuses (r := .body) rfl stage
    rw [run] at headed
    rw [refused]
    exact Nat.le_trans headed (by omega)
  · obtain ⟨is, names, modes, complete⟩ := header_ok run
    have consumes := body_consumes (s := ⟨d', g', s.work⟩) hstorage complete.stage
    have taken := consumes.next_le (stop_body complete.pending)
    rw [run] at headed
    change s.work.table.range.next ≤ _ at headed
    change _ ≤ s.work.table.range.next + _ at taken
    change (body t ⟨d', g', s.work⟩).2.work.table.range.next ≤ _
    omega

end Emission

/-! ## Refusals -/

/-- The fault that was met, unless there was no entry point to begin with. -/
def CompileError.fault? : CompileError → Option Fault
  | .missingEntryPoint _ => none
  | .inMethod _ fault | .inModule fault => some fault

/-- A program was refused for no other faults than those of `P`. -/
def CompileError.Reports (P : Fault → Prop) (e : CompileError) : Prop := ∀ fault ∈ e.fault?, P fault

theorem CompileError.reports_ofFault {P : Fault → Prop} (name : String) (fault : Fault)
    (h : P fault) : (ofFault name fault).Reports P := by
  unfold ofFault
  split <;> simpa [Reports, fault?] using h

namespace Build

variable {frame : Frame} {entry : EntryPoint} {b : Build} {job : Job} {P : Fault → Prop}

/-- The job has been taken up, with all the identifiers its method can need. -/
structure Equipped (job : Job) (r : IdRange) : Prop where
  storage : job.task.storage = .ofMethod job.task.method
  work : job.work = Emission.start r
  room : r.next + job.task.method.idBudget ≤ r.stop
  limit : r.stop ≤ Supply.limit

theorem settles_startOf (m : Method) :
    Settles (·.isPlain = true) True (fun job _ => job.task.method = m ∧ ∃ r, Equipped job r)
      (Job.start frame entry m) b := by
  have known : Settles (·.isPlain = true) True (fun _ _ => True)
      (ofExcept (frame.functions.get m.id)) b.dictionary.supply := by
    unfold FunctionTable.get
    split
    · exact settles_pure trivial trivial
    · exact settles_spare rfl
  have task : Settles (·.isPlain = true) True (fun _ _ => True)
      (Task.start frame m (.ofMethod m) (if m.id = entry.method then some entry else none))
      b.dictionary.supply := by
    refine known.bind id fun id s _ _ => ?_
    have reserve := (settles_reserve m.idBudget s).tolerate fun _ => Fault.isPlain_of_isShortage
    exact reserve.bind (fun _ => trivial) fun r _ _ _ => settles_pure trivial trivial
  have start : Settles (·.isPlain = true) True (fun _ _ => True) (Job.start frame entry m) b :=
    Settles.bind (settles_onPart task) id fun _ _ _ _ => settles_pure trivial trivial
  refine settles_of (fun job b' run => ⟨trivial, ?_⟩) fun e b' run => start.error run
  obtain ⟨id, -, room, rfl, -⟩ := Job.start_ok_iff.mp run
  exact ⟨rfl, _, rfl, rfl, Nat.le_refl _, room⟩

theorem settles_headerOf {Ready : Job → Prop} (plain : ∀ e : Fault, e.isPlain = true → P e) (m : Method)
    (run : ∀ job r d g, job.task.method = m → Equipped job r →
      Settles P True (fun _ s => Ready ⟨job.task, s.work⟩) (Emission.header job.task)
        ⟨d, g, Emission.start r⟩) :
    Settles (CompileError.Reports P) True (fun job _ => Ready job) (header frame entry m) b := by
  refine settles_inMethod (CompileError.reports_ofFault m.name) ?_
  refine ((settles_startOf m).tolerate plain).bind id fun job b₁ _ hjob => ?_
  obtain ⟨method, r, equipped⟩ := hjob
  have ran := run job r b₁.dictionary b₁.target method equipped
  rw [← equipped.work] at ran
  refine (settles_run (Q := fun w => Ready ⟨job.task, w⟩) ran).imp fun job' _ hjob' => ?_
  obtain ⟨task, ready⟩ := hjob'
  rwa [← task] at ready

theorem settles_bodyOf (run : ∀ d g, Settles P True (fun _ s => s.work.stage = .afterBody)
      (Emission.body job.task) ⟨d, g, job.work⟩) :
    Settles (CompileError.Reports P) True (fun job' _ => job'.work.stage = .afterBody)
      (body job) b := by
  refine settles_inMethod (CompileError.reports_ofFault _) ?_
  exact (settles_run (Q := (·.stage = .afterBody)) (run b.dictionary b.target)).imp fun _ _ => And.right

theorem settles_mergeOf (stage : job.work.stage = .afterBody) :
    Settles (CompileError.Reports P) True (fun _ _ => True) (merge job) b := by
  refine settles_of (fun _ _ _ => ⟨trivial, trivial⟩) fun e b' run _ => ?_
  have merged : Emission.merge ⟨b.dictionary, b.target, job.work⟩ = _ := merge_apply stage
  rw [merge, inMethod, Job.run, merged] at run
  cases run

/-- What stops the functions of a program stops one of its headers or bodies. -/
theorem settles_functionsOf {Ready : Job → Prop} (p : Program)
    (headerOf : ∀ m ∈ p.methods, ∀ b,
      Settles (CompileError.Reports P) True (fun job _ => Ready job) (header frame entry m) b)
    (bodyOf : ∀ job b, Ready job → Settles (CompileError.Reports P) True
      (fun job' _ => job'.work.stage = .afterBody) (body job) b) :
    Settles (CompileError.Reports P) True (fun _ _ => True) (functions frame entry p) b := by
  have headers : Settles (CompileError.Reports P) (∀ m ∈ p.methods, True)
      (fun jobs _ => List.Forall₂ (fun _ => Ready) p.methods jobs)
      (p.methods.mapM (header frame entry)) b := settles_mapM fun m hm _ => headerOf m hm _
  refine headers.bind (fun _ _ _ => trivial) fun jobs b₁ _ hjobs => ?_
  have bodies : Settles (CompileError.Reports P) (∀ job ∈ jobs, True)
      (fun jobs' _ => List.Forall₂ (fun _ job' => job'.work.stage = .afterBody) jobs jobs')
      (jobs.mapM body) b₁ := settles_mapM fun job hjob _ => by
    obtain ⟨m, -, ready⟩ := exists_left_of_forall₂ hjobs hjob
    exact bodyOf job _ ready
  refine bodies.bind (fun _ _ _ => trivial) fun jobs' b₂ _ hjobs' => ?_
  have merges : Settles (CompileError.Reports P) (∀ job ∈ jobs', True)
      (fun merged _ => List.Forall₂ (fun _ _ => True) jobs' merged) (jobs'.mapM merge) b₂ :=
    settles_mapM fun job hjob _ => by
      obtain ⟨job₀, -, stage⟩ := exists_left_of_forall₂ hjobs' hjob
      exact settles_mergeOf stage
  exact merges.bind (fun _ _ _ => trivial) fun _ _ _ _ => settles_pure trivial trivial

end Build

theorem isPlain_of_finish {frame : Frame} {entry : EntryPoint} {b : Build} {fault : Fault}
    (h : b.finish frame entry = .error fault) : fault.isPlain = true := by
  rcases hkernel : frame.functions.get entry.method with fault' | kernel
  · rw [Build.finish, hkernel] at h
    cases h
    unfold FunctionTable.get at hkernel
    split at hkernel <;> cases hkernel
    rfl
  · exact Fault.isPlain_of_isShortage
      (finish_error (by rw [FunctionTable.get_ok_iff.mp hkernel]; rfl) h)

theorem reports_of_error {P : Fault → Prop} {o : Options} {p : Program} {entry : EntryPoint}
    {e : CompileError} (plain : ∀ f : Fault, f.isPlain = true → P f)
    (functions : ∀ frame b, Settles (CompileError.Reports P) True (fun _ _ => True)
      (Build.functions frame entry p) b)
    (h : compile o p entry = .error e) : e.Reports P := by
  rcases compile_error h with ⟨rfl, -⟩ | ⟨fault, supply, hframe, rfl⟩ |
    ⟨frame, supply, hframe, ⟨b, hfunctions⟩ | ⟨b, fault, hfunctions, hfinish, rfl⟩⟩
  · nofun
  · have shortage := (settles_ofProgram p o.debugNames Supply.new).error hframe trivial
    simpa [CompileError.Reports, CompileError.fault?] using
      plain fault (Fault.isPlain_of_isShortage shortage)
  · exact (functions frame _).error hfunctions trivial
  · simpa [CompileError.Reports, CompileError.fault?] using plain fault (isPlain_of_finish hfinish)

/-! ## The compiler -/

/-- Whether a program was turned down for a fault of the compiler itself. -/
def CompileError.IsInternal : CompileError → Prop
  | .missingEntryPoint _ => False
  | .inMethod _ fault | .inModule fault => fault.isInternal = true

theorem CompileError.not_isInternal_of_reports {e : CompileError}
    (h : e.Reports (·.isInternal = false)) : ¬ e.IsInternal := by
  cases e with
  | missingEntryPoint => exact id
  | inMethod | inModule => simpa [IsInternal, Reports, fault?] using h

namespace Build

variable {frame : Frame} {entry : EntryPoint} {b : Build} {job : Job}

structure ReadyForBody (job : Job) : Prop where
  storage : job.task.storage = .ofMethod job.task.method
  work : Emission.HasRoomForBody job.task job.work
  limit : job.work.table.range.stop ≤ Supply.limit

theorem header_reliable (m : Method) :
    Settles (CompileError.Reports (·.isInternal = false)) True (fun job _ => ReadyForBody job)
      (header frame entry m) b := by
  refine settles_headerOf (fun _ => Fault.isInternal_of_isPlain) m fun job r d g _ equipped => ?_
  obtain ⟨storage, -, room, limit⟩ := equipped
  have params : r.next + job.task.method.params.length ≤ r.stop := by
    unfold Method.idBudget at room
    omega
  have consumes := header_consumes (s := ⟨d, g, Emission.start r⟩) job.task rfl
  refine (consumes.settles params limit).imp fun _ s run => ⟨storage, header_hasRoomForBody room run, ?_⟩
  have stop := stop_header job.task ⟨d, g, Emission.start r⟩
  rw [run] at stop
  exact stop ▸ limit

theorem body_reliable (ready : ReadyForBody job) :
    Settles (CompileError.Reports (·.isInternal = false)) True
      (fun job' _ => job'.work.stage = .afterBody) (body job) b := by
  refine settles_bodyOf fun d g => ?_
  have consumes := body_consumes (s := ⟨d, g, job.work⟩) ready.storage ready.work.stage
  refine (consumes.settles ready.work.room ready.limit).imp fun _ s run => ?_
  obtain ⟨cs, complete⟩ := body_ok ready.work.pending run (.refl _)
  exact complete.stage

end Build

theorem not_isInternal_of_error {o : Options} {p : Program} {entry : EntryPoint} {e : CompileError}
    (h : compile o p entry = .error e) : ¬ e.IsInternal := by
  have functions (frame : Frame) (b : Build) :
      Settles (CompileError.Reports (·.isInternal = false)) True (fun _ _ => True)
        (Build.functions frame entry p) b :=
    Build.settles_functionsOf p (fun m _ _ => Build.header_reliable m)
      fun _ _ ready => Build.body_reliable ready
  exact CompileError.not_isInternal_of_reports
    (reports_of_error (fun _ => Fault.isInternal_of_isPlain) functions h)

/-- No program, however malformed, makes the compiler fail at its own work. -/
theorem compile_without_internal_fault (o : Options) (p : Program) (entry : EntryPoint) :
    (∀ e, compile o p entry = .error e → ¬ e.IsInternal) ∧
      ∀ (t : Task) (d d' : Dictionary) (g g' : Layout Instruction) (r : IdRange),
        t.storage = .ofMethod t.method →
          (header t ⟨d, g, Emission.start r⟩).2.work.table.range.next ≤
              r.next + t.method.idBudget ∧
            (body t ⟨d', g', (header t ⟨d, g, Emission.start r⟩).2.work⟩).2.work.table.range.next ≤
              r.next + t.method.idBudget :=
  ⟨fun _ h => not_isInternal_of_error h, fun _ d d' g g' r h => next_le_of_header_body h d d' g g' r⟩

/-- The first values take three identifiers each, the last of them under a name that is taken. -/
def crowded : Method where
  id := ⟨0⟩
  name := "crowded"
  params := [⟨⟨9⟩, .i32⟩]
  returnType := .void
  blocks := [{
    id := ⟨0⟩
    body := [⟨⟨0⟩, .i32, .gridIndex .groupIndex 0⟩, ⟨⟨1⟩, .i32, .gridIndex .groupIndex 1⟩,
      ⟨⟨9⟩, .i32, .gridIndex .groupIndex 2⟩]
    terminator := .ret none }]

def crowdedEntry : EntryPoint where
  method := ⟨0⟩
  name := "crowded"
  rank := .one
  groupSize := none

theorem crowded_refused :
    compile {} ⟨[crowded]⟩ crowdedEntry =
        .error (.inMethod "crowded" (.alreadyAllocated (.value ⟨9⟩))) ∧
      ¬ (CompileError.inMethod "crowded" (.alreadyAllocated (.value ⟨9⟩))).IsInternal ∧
      ∀ t : Task, t.method = crowded → t.storage = .ofMethod t.method → ∀ d g r,
        (header t ⟨d, g, Emission.start r⟩).2.work.table.range.next ≤ r.next + 12 ∧
          (body t (header t ⟨d, g, Emission.start r⟩).2).2.work.table.range.next ≤ r.next + 12 := by
  have refused : compile {} ⟨[crowded]⟩ crowdedEntry =
      .error (.inMethod "crowded" (.alreadyAllocated (.value ⟨9⟩))) := by
    decide +kernel
  obtain ⟨external, within⟩ := compile_without_internal_fault {} ⟨[crowded]⟩ crowdedEntry
  refine ⟨refused, external _ refused, fun t ht hstorage d g r => ?_⟩
  have budget : crowded.idBudget = 12 := by decide
  have bounds := within t d (header t ⟨d, g, Emission.start r⟩).2.dictionary g
    (header t ⟨d, g, Emission.start r⟩).2.target r hstorage
  rwa [ht, budget] at bounds

end SpirvKernel
