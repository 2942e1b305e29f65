import Mathlib.Data.List.Nodup
import SpirvKernel.Proofs.Emission.Capacity
import SpirvKernel.Proofs.Module.Assembly

/-!
# When a module is not too large

The size of a program bounds the identifiers of its module and the length of every instruction. Up to
a moderate size there is room for all of them.
-/

namespace SpirvKernel

open Attempt Emission

/-- Whether a program was turned down for its size alone. -/
def CompileError.IsShortage : CompileError → Prop
  | .missingEntryPoint _ => False
  | .inMethod _ fault | .inModule fault => fault.isShortage = true

theorem CompileError.isShortage_ofFault {name : String} {fault : Fault} :
    (ofFault name fault).IsShortage ↔ fault.isShortage = true := by
  unfold ofFault
  split <;> rfl

namespace Build

variable {α : Type} {small : Prop} {n : Nat} {frame : Frame} {entry : EntryPoint}

/-- Building draws at most `n` identifiers. If `small`, no other shortage can stop it. -/
def Spends (small : Prop) (n : Nat) (x : Attempt CompileError Build α) : Prop :=
  Draws CompileError.IsShortage (·.dictionary.supply.next) (fun e => e.IsShortage → ¬ small) n x

theorem spends_inMethod {name : String} {x : Attempt Fault Build α}
    (hx : Draws (·.isShortage = true) (·.dictionary.supply.next) (Admits small) n x) :
    Spends small n (inMethod name x) := by
  intro b
  obtain ⟨hnext, herror⟩ := hx b
  unfold inMethod
  refine ⟨hnext, fun e he => ?_⟩
  rcases h : x b with ⟨fault | a, b'⟩
  · rw [h] at he herror
    cases he
    simpa only [CompileError.isShortage_ofFault, Admits] using herror fault rfl
  · rw [h] at he
    cases he

theorem draws_run {x : Task → Emit Unit} {job : Job} (hx : Emission.Spends small n (x job.task)) :
    Draws (·.isShortage = true) (·.dictionary.supply.next) (Admits small) n (job.run x) := by
  intro b
  obtain ⟨hnext, herror⟩ := hx ⟨b.dictionary, b.target, job.work⟩
  unfold Job.run
  refine ⟨hnext, fun e he => herror e ?_⟩
  rcases h : x job.task ⟨b.dictionary, b.target, job.work⟩ with ⟨fault | a, s⟩
  · rw [h] at he
    cases he
    rfl
  · rw [h] at he
    cases he

theorem draws_reserve (n : Nat) :
    Draws (·.isShortage = true) Supply.next (Admits small) n (Supply.reserve n) := by
  intro s
  unfold Supply.reserve
  split
  · exact ⟨Nat.le_refl _, nofun⟩
  · rename_i full
    refine ⟨Nat.le_add_right _ _, fun e he => .inl ?_⟩
    cases he
    exact ⟨rfl, Nat.lt_of_not_le full⟩

theorem draws_start (m : Method) :
    Draws (·.isShortage = true) (·.dictionary.supply.next) (Admits small) m.idBudget
      (Job.start frame entry m) := by
  have task : Draws (·.isShortage = true) Supply.next (Admits small) m.idBudget
      (Task.start frame m (.ofMethod m) (if m.id = entry.method then some entry else none)) := by
    have get : Draws (·.isShortage = true) Supply.next (Admits small) 0
        (ofExcept (frame.functions.get m.id)) := by
      unfold FunctionTable.get
      split
      · exact draws_pure _
      · exact draws_fail nofun
    refine get.pay (Nat.zero_le _) fun id => ?_
    refine (draws_reserve m.idBudget).pay (Nat.le_refl _) fun range => ?_
    exact (draws_pure _).le (Nat.zero_le _)
  refine Draws.pay (task.onPart (fun _ => rfl) fun _ _ => rfl) (Nat.le_refl _) fun x => ?_
  exact (draws_pure _).le (Nat.zero_le _)

theorem spends_header {m : Method} (h : small → m.size ≤ sizeLimit) :
    Spends small (10 * m.size) (header frame entry m) := by
  have budget := m.idBudget_le
  refine spends_inMethod ((draws_start m).pay_ok (by omega) fun b job b' hjob => ?_)
  have method : job.task.method = m := by
    obtain ⟨id, -, -, rfl, -⟩ := Job.start_ok_iff.mp hjob
    rfl
  have run := draws_run (Emission.spends_header (method.symm ▸ h))
  rw [method] at run
  exact run.le (by omega)

theorem spends_body {job : Job} (h : small → job.task.method.size ≤ sizeLimit)
    (hstorage : job.task.storage = .ofMethod job.task.method) :
    Spends small (25 * job.task.method.size) (body job) :=
  spends_inMethod (draws_run (Emission.spends_body h hstorage))

theorem spends_merge (job : Job) : Spends small 0 (merge job) := by
  refine spends_inMethod (draws_run ?_)
  exact (Emission.spends_expect .merge).pay (Nat.zero_le _) fun _ => draws_change fun _ => rfl

theorem header_task {m : Method} {b b' : Build} {job : Job}
    (h : header frame entry m b = (.ok job, b')) :
    job.task.method = m ∧ job.task.storage = .ofMethod m := by
  simp only [header, inMethod_ok_iff, bind_eq_ok_iff, Job.run_ok_iff] at h
  obtain ⟨_, _, hstart, _, -, rfl, -⟩ := h
  obtain ⟨id, -, -, rfl, -⟩ := Job.start_ok_iff.mp hstart
  exact ⟨rfl, rfl⟩

theorem headers_tasks {ms : List Method} {b b' : Build} {jobs : List Job}
    (h : ms.mapM (header frame entry) b = (.ok jobs, b')) :
    jobs.map (·.task.method) = ms ∧
      ∀ job ∈ jobs, job.task.storage = .ofMethod job.task.method := by
  induction ms generalizing b jobs with
  | nil =>
    obtain ⟨rfl, -⟩ := mapM_nil_ok_iff.mp h
    exact ⟨rfl, nofun⟩
  | cons m ms ih =>
    obtain ⟨job, rest, b₁, hjob, hrest, rfl⟩ := mapM_cons_ok_iff.mp h
    obtain ⟨hmethod, hstorage⟩ := header_task hjob
    obtain ⟨hmethods, hstorages⟩ := ih hrest
    rw [List.map_cons, hmethods, List.forall_mem_cons, hmethod]
    exact ⟨rfl, hstorage, hstorages⟩

theorem spends_functions {p : Program} (h : small → p.size ≤ sizeLimit) :
    Spends small (35 * p.size) (functions frame entry p) := by
  have fits {m : Method} (hm : m ∈ p.methods) (hs : small) : m.size ≤ sizeLimit :=
    Nat.le_trans (Program.size_le_of_mem hm) (h hs)
  have headers : Spends small (10 * p.size) (p.methods.mapM (header frame entry)) := by
    rw [Program.size, ← List.sum_map_mul_left]
    exact draws_mapM fun m hm => spends_header (fits hm)
  refine headers.pay_ok (by omega) fun b jobs b' hjobs => ?_
  obtain ⟨hmethods, hstorage⟩ := headers_tasks hjobs
  have bodies : Spends small (25 * p.size) (jobs.mapM body) := by
    rw [Program.size, ← hmethods, ← List.sum_map_mul_left, List.map_map]
    refine draws_mapM fun job hjob => spends_body (fits ?_) (hstorage job hjob)
    exact hmethods ▸ List.mem_map_of_mem hjob
  refine bodies.pay (by omega) fun jobs' => ?_
  have merges : Spends small 0 (jobs'.mapM merge) :=
    (draws_mapM fun job _ => spends_merge job).le (by simp)
  exact merges.pay (Nat.zero_le _) fun _ => (draws_pure ()).le (Nat.zero_le _)

end Build

/-! ## The frame -/

theorem draws_ofProgram (p : Program) (debugNames : Bool) :
    Draws (·.isShortage = true) Supply.next (Admits True) (p.methods.length + 1)
      (Frame.ofProgram p debugNames) := by
  have draw : Draws (·.isShortage = true) Supply.next (Admits True) 1 Supply.draw :=
    (Build.draws_reserve 1).pay (Nat.le_refl _) fun _ => draws_pure _
  have numbers (ms : List Method) (table : FunctionTable) :
      Draws (·.isShortage = true) Supply.next (Admits True) ms.length
        (ms.foldlM (fun table m => table.insert m.id <$> Supply.draw) table) := by
    induction ms generalizing table with
    | nil => exact draws_pure table
    | cons m ms ih =>
      rw [List.foldlM_cons]
      exact (draw.map _).pay (by simp) fun table => ih table
  refine draw.pay (by omega) fun openCl => ?_
  refine (numbers p.methods .empty).pay (by omega) fun functions => ?_
  exact (draws_pure _).le (Nat.zero_le _)

/-! ## The interface -/

theorem Dictionary.Steps.exists_builtins {d d₁ : Dictionary} (h : d.Steps d₁)
    (hd : ∃ bs : List BuiltIn, bs.Nodup ∧ bs.length = d.interface.length ∧
      ∀ b ∈ bs, (d.get? (.builtin b)).isSome) :
    ∃ bs : List BuiltIn, bs.Nodup ∧ bs.length = d₁.interface.length ∧
      ∀ b ∈ bs, (d₁.get? (.builtin b)).isSome := by
  induction h with
  | refl => exact hd
  | tail _ step ih =>
    obtain ⟨bs, nodup, length, known⟩ := ih
    cases step with
    | need | reserve | length | unnamed => exact ⟨bs, nodup, length, known⟩
    | @record key i new =>
      cases key with
      | builtin b =>
        refine ⟨b :: bs, ?_, ?_, ?_⟩
        · rw [List.nodup_cons]
          refine ⟨fun hb => ?_, nodup⟩
          have := known b hb
          rw [new] at this
          cases this
        · simp [record, extend, Declaration.interface, length]
        · intro b' hb'
          rw [get?_record]
          split
          · rfl
          · rename_i hne
            rcases List.mem_cons.mp hb' with rfl | hb'
            · exact absurd rfl hne
            · exact known b' hb'
      | _ =>
        refine ⟨bs, nodup, ?_, fun b hb => ?_⟩
        · simpa [record, extend, Declaration.interface] using length
        · rw [get?_record, if_neg (by simp)]
          exact known b hb

theorem Dictionary.length_interface_le {supply : Supply} {d : Dictionary}
    (h : (Dictionary.new supply).Steps d) : d.interface.length ≤ 5 := by
  obtain ⟨bs, nodup, length, -⟩ := h.exists_builtins ⟨[], List.nodup_nil, rfl, nofun⟩
  have all : bs ⊆ [.numWorkgroups, .workgroupSize, .workgroupId, .localInvocationId,
      .globalInvocationId] := fun b _ => by cases b <;> simp
  rw [← length]
  exact (List.subperm_of_subset nodup all).length_le

/-! ## The whole program -/

section

variable {o : Options} {p : Program} {entry : EntryPoint}

theorem Program.Small.room (small : p.Small entry) :
    2 + p.methods.length + 35 * p.size ≤ Supply.limit := by
  have size := small.size_le
  have methods := p.length_methods_le
  unfold sizeLimit at size
  unfold Supply.limit
  omega

theorem not_isShortage_of_finish {frame : Frame} {b : Build} {fault : Fault}
    (small : p.Small entry) (interface : b.dictionary.interface.length ≤ 5)
    (h : b.finish frame entry = .error fault) : fault.isShortage = false := by
  unfold Build.finish at h
  rcases hkernel : frame.functions.get entry.method with fault' | kernel
  · rw [hkernel] at h
    cases h
    unfold FunctionTable.get at hkernel
    split at hkernel <;> cases hkernel
    rfl
  · simp only [hkernel, bind, Except.bind] at h
    split at h
    · cases h
    · rename_i long
      refine absurd (Instruction.fits_of _ ?_) long
      unfold Program.Small sizeLimit at small
      simp only [List.length_append, List.length_cons, List.length_map, Instruction.maxSize]
      omega

/-- A program of moderate size is never turned down for its size. -/
theorem not_isShortage_of_small {e : CompileError} (small : p.Small entry)
    (h : compile o p entry = .error e) : ¬ e.IsShortage := by
  have room := small.room
  rcases compile_error h with ⟨rfl, -⟩ | ⟨fault, supply, hframe, rfl⟩ |
    ⟨frame, supply, hframe, ⟨b, hfunctions⟩ | ⟨b, fault, hfunctions, hfinish, rfl⟩⟩
  · exact id
  · have failure := (draws_ofProgram p o.debugNames Supply.new).2 fault (by rw [hframe])
    rcases failure with ⟨-, full⟩ | admitted
    · change Supply.limit < 1 + (p.methods.length + 1) at full
      omega
    · exact fun shortage => admitted shortage trivial
  · obtain ⟨hnext, -, -⟩ := Frame.ofProgram_ok hframe
    change supply.next = 1 + 1 + p.methods.length at hnext
    have spends : Build.Spends True (35 * p.size) (Build.functions frame entry p) :=
      Build.spends_functions fun _ => small.size_le
    rcases (spends (Build.new frame supply)).2 e (by rw [hfunctions]) with ⟨-, full⟩ | admitted
    · change Supply.limit < supply.next + 35 * p.size at full
      omega
    · exact fun shortage => admitted shortage trivial
  · obtain ⟨hnext, hlimit, -⟩ := Frame.ofProgram_ok hframe
    have grown := (functions_ok (Dictionary.sound_new supply) (.new (Nat.le_refl _) hlimit)
      hfunctions).1
    have := not_isShortage_of_finish small (Dictionary.length_interface_le grown) hfinish
    intro shortage
    rw [CompileError.IsShortage, this] at shortage
    cases shortage

end

end SpirvKernel
