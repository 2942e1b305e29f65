import SpirvKernel.Proofs.Emission.Names
import SpirvKernel.Proofs.Kernel.Numbering
import SpirvKernel.Proofs.Module.Reliability

/-!
# Programs made of drafts

A method that was made from a draft has blocks and uses no name twice, whatever its values refer to.
So compilation never meets a name that is taken or a method without blocks.
-/

namespace SpirvKernel

open Attempt Emission

namespace Build

variable {frame : Frame} {entry : EntryPoint} {b : Build} {job : Job}

/-- The body of the job finds no name taken. -/
structure HasFreeNames (job : Job) : Prop where
  storage : job.task.storage = .ofMethod job.task.method
  stage : job.work.stage = .afterHeader
  pending : job.work.pending = []
  blocks : job.task.method.blocks ≠ []
  once : ∀ e, job.work.table.times e + (Tariff.naming e).body job.task.method ≤ 1

theorem header_structural {m : Method} (distinct : m.Distinct) (blocks : m.blocks ≠ []) :
    Settles (CompileError.Reports (·.isStructural = false)) True (fun job _ => HasFreeNames job)
      (header frame entry m) b := by
  refine settles_headerOf (fun _ => Fault.isStructural_of_isPlain) m
    fun job r d g method equipped => ?_
  subst method
  have charges (e : Entity) := Tariff.chargesAt_header (T := .naming e) (t := job.task)
    (s := ⟨d, g, Emission.start r⟩) rfl nofun rfl
  have none (e : Entity) : (Emission.start r).table.times e = 0 := rfl
  have whole (e : Entity) := Tariff.naming_le_one e distinct
  refine (settles_of_naming charges fun e => ?_).imp fun _ s hs => ?_
  · have := none e
    have := whole e
    dsimp only
    omega
  · obtain ⟨run, times⟩ := hs
    obtain ⟨is, names, modes, headed⟩ := header_ok run
    refine ⟨equipped.storage, headed.stage, headed.pending, blocks, fun e => ?_⟩
    have := none e
    have := whole e
    have := times e
    dsimp only at this ⊢
    omega

theorem body_structural (unnamed : HasFreeNames job) :
    Settles (CompileError.Reports (·.isStructural = false)) True
      (fun job' _ => job'.work.stage = .afterBody) (body job) b := by
  refine settles_bodyOf fun d g => ?_
  have charges (e : Entity) := Tariff.chargesAt_body (T := .naming e) (s := ⟨d, g, job.work⟩)
    rfl nofun unnamed.storage unnamed.stage fun empty => absurd empty unnamed.blocks
  refine (settles_of_naming charges unnamed.once).imp fun _ s hs => ?_
  obtain ⟨cs, complete⟩ := body_ok unnamed.pending hs.1 (.refl _)
  exact complete.stage

end Build

theorem not_isStructural_of_error {o : Options} {p : Program} {entry : EntryPoint} {e : CompileError}
    (distinct : ∀ m ∈ p.methods, m.Distinct) (blocks : ∀ m ∈ p.methods, m.blocks ≠ [])
    (h : compile o p entry = .error e) : e.Reports (·.isStructural = false) := by
  have functions (frame : Frame) (b : Build) :
      Settles (CompileError.Reports (·.isStructural = false)) True (fun _ _ => True)
        (Build.functions frame entry p) b :=
    Build.settles_functionsOf p (fun m hm _ => Build.header_structural (distinct m hm) (blocks m hm))
      fun _ _ unnamed => Build.body_structural unnamed
  exact reports_of_error (fun _ => Fault.isStructural_of_isPlain) functions h

/-- Methods made from drafts are never refused for names that are taken or for want of blocks. -/
theorem compile_of_built (o : Options) (p : Program) (entry : EntryPoint)
    (built : ∀ m ∈ p.methods, m.Built) (e : CompileError) (fault : Fault)
    (h : compile o p entry = .error e) (hfault : e.fault? = some fault) :
    (∀ x, fault ≠ .alreadyAllocated x) ∧ ∀ name, fault ≠ .emptyMethod name := by
  have reports := not_isStructural_of_error (fun m hm => (built m hm).distinct)
    (fun m hm => (built m hm).blocks_ne_nil) h
  have sound := reports fault hfault
  refine ⟨?_, ?_⟩
  · rintro x rfl; cases sound
  · rintro name rfl; cases sound

/-- The load, the second terminator and the move to the fourth block are refused. -/
def restlessEdits : List Draft.Edit :=
  [.param .i32, .newBlock, .positionAt ⟨1⟩, .alloca .i32 (.fixed 4) .local, .load ⟨0⟩,
    .positionAt ⟨0⟩, .param .i32, .terminate (.branch ⟨1⟩), .terminate (.ret none), .positionAt ⟨3⟩,
    .positionAt ⟨1⟩, .add .i32 (.unary .neg ⟨9⟩)]

def restless : Method := ((Draft.new ⟨0⟩ "restless" .void).performAll restlessEdits).finish

def restlessEntry : EntryPoint where
  method := ⟨0⟩
  name := "restless"
  rank := .one
  groupSize := none

theorem restless_refused :
    compile {} ⟨[restless]⟩ restlessEntry =
        .error (.inMethod "restless" (.unallocated (.value ⟨9⟩))) ∧
      (∀ x, Fault.unallocated (.value ⟨9⟩) ≠ .alreadyAllocated x) ∧
      ∀ name, Fault.unallocated (.value ⟨9⟩) ≠ .emptyMethod name := by
  have refused : compile {} ⟨[restless]⟩ restlessEntry =
      .error (.inMethod "restless" (.unallocated (.value ⟨9⟩))) := by
    decide +kernel
  have built : ∀ m ∈ [restless], m.Built := by
    intro m hm
    rw [List.mem_singleton.mp hm]
    exact ⟨⟨0⟩, "restless", .void, restlessEdits, rfl⟩
  exact ⟨refused, compile_of_built {} ⟨[restless]⟩ restlessEntry built _ _ refused rfl⟩

end SpirvKernel
