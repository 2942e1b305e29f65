import SpirvKernel.Proofs.Emission.Mirror
import SpirvKernel.Proofs.Module.Assembly

/-!
# Modules of programs that are alike

Two programs are alike if their methods are, one by one. They are built in step, with the same
identifiers, and the modules are equal.
-/

namespace SpirvKernel

open Attempt Emission

/-! ## Jobs -/

structure Job.Like (N : Naming) (R : Word → Word → Prop) (job job' : Job) : Prop where
  task : job.task.Like N R job'.task
  work : job.work.Like N R job'.work

section

variable {N : Naming} {R : Word → Word → Prop}

theorem like_start {r : IdRange} (own : ∀ n < r.stop, R (Id.word ⟨n⟩) (Id.word ⟨n⟩)) (zero : R 0 0) :
    (Emission.start r).Like N R (Emission.start r) where
  range := rfl
  entries := .nil
  output := fun sec => by cases sec <;> exact .nil
  stage := rfl
  pending := .nil
  phis := nofun
  own := own
  zero := zero

theorem kernel_eq {entry entry' : EntryPoint} (hentry : N.method entry.method entry'.method)
    (hsize : entry'.groupSize = entry.groupSize) {m m' : MethodId} (hm : N.method m m') :
    (if m' = entry'.method then some entry' else none).map EntryPoint.groupSize =
      (if m = entry.method then some entry else none).map EntryPoint.groupSize := by
  by_cases h : m = entry.method
  · rw [if_pos h, if_pos ((N.methods _ _ _ _ hm hentry).mp h), Option.map_some, Option.map_some, hsize]
  · rw [if_neg h, if_neg fun h' => h ((N.methods _ _ _ _ hm hentry).mpr h')]

theorem Job.Like.mono {R' : Word → Word → Prop} (hR : ∀ a b, R a b → R' a b) {job job' : Job}
    (h : job.Like N R job') : job.Like N R' job' :=
  ⟨h.task.mono hR, h.work.mono hR⟩

theorem Job.Like.run {x : Task → Emit Unit} {job job' done : Job} (h : job.Like N R job')
    {b b' : Build} (run : job.run x b = (.ok done, b'))
    (step : ∀ s t, Twin N R ⟨b.dictionary, b.target, job.work⟩ t →
      x job.task ⟨b.dictionary, b.target, job.work⟩ = (.ok (), s) → s.dictionary = b'.dictionary →
        ∃ t', x job'.task t = (.ok (), t') ∧ Twin N R s t') :
    ∃ done', job'.run x b = (.ok done', b') ∧ done.Like N R done' := by
  obtain ⟨s, hs, rfl, rfl⟩ := Job.run_ok_iff.mp run
  obtain ⟨t', ht', twin⟩ := step s ⟨b.dictionary, b.target, job'.work⟩ ⟨⟨rfl, h.work⟩, rfl⟩ hs rfl
  refine ⟨⟨job'.task, t'.work⟩, Job.run_ok_iff.mpr ⟨t', ht', rfl, ?_⟩, h.task, twin.work⟩
  rw [twin.dictionary, twin.target]

theorem Job.start_like {frame frame' : Frame} {entry entry' : EntryPoint} {m m' : Method} {b b' : Build}
    {job : Job} (hframe : frame.Like N R frame') (hm : m.Like N m')
    (hentry : N.method entry.method entry'.method) (hsize : entry'.groupSize = entry.groupSize)
    (own : ∀ n < b.dictionary.supply.next + m.idBudget, R (Id.word ⟨n⟩) (Id.word ⟨n⟩)) (zero : R 0 0)
    (h : start frame entry m b = (.ok job, b')) :
    ∃ job', start frame' entry' m' b = (.ok job', b') ∧ job.Like N R job' := by
  obtain ⟨id, hid, room, rfl, rfl⟩ := start_ok_iff.mp h
  obtain ⟨hid', hown⟩ := hframe.functions _ _ id hm.id hid
  refine ⟨_, start_ok_iff.mpr ⟨id, hid', ?_, rfl, ?_⟩, ?_, ?_⟩
  · rwa [hm.idBudget]
  · rw [hm.idBudget]
  · exact ⟨hframe, hm, hm.storage, rfl, hown, kernel_eq hentry hsize hm.id⟩
  · rw [hm.idBudget]
    exact like_start own zero

end

/-! ## Builds in step -/

section

variable {N : Naming} {job job' done : Job} {b b' : Build}

theorem Build.header_like {frame frame' : Frame} {entry entry' : EntryPoint} {m m' : Method}
    (hframe : frame.Like N Eq frame') (hm : m.Like N m')
    (hentry : N.method entry.method entry'.method) (hsize : entry'.groupSize = entry.groupSize)
    (run : header frame entry m b = (.ok job, b')) :
    ∃ job', header frame' entry' m' b = (.ok job', b') ∧ job.Like N Eq job' := by
  simp only [header, inMethod_ok_iff, bind_eq_ok_iff] at run ⊢
  obtain ⟨_, b₁, hstart, run⟩ := run
  obtain ⟨started, hstart', like⟩ :=
    Job.start_like hframe hm hentry hsize (fun _ _ => rfl) rfl hstart
  obtain ⟨job', run', like'⟩ := like.run run fun s t twin run _ =>
    header_mirrored like.task twin run fun _ _ _ => rfl
  exact ⟨job', ⟨started, b₁, hstart', run'⟩, like'⟩

theorem Build.body_like (h : job.Like N Eq job') (run : body job b = (.ok done, b')) :
    ∃ done', body job' b = (.ok done', b') ∧ done.Like N Eq done' := by
  simp only [body, inMethod_ok_iff] at run ⊢
  refine h.run run fun s t twin hs _ => ?_
  have mirrors := mirrors_body (fun a => ⟨a, rfl⟩) h.task
  obtain ⟨_, t', run', -, twin'⟩ := mirrors.twin hs twin fun _ _ _ _ => rfl
  exact ⟨t', run', twin'⟩

theorem matches_eq {slot : Slot} {a b : Word} (h : slot.Matches Eq a b) : a = b := by
  cases slot <;> exact h

theorem Instruction.Alike.eq {i j : Instruction} (h : i.Alike Eq j) : i = j := by
  obtain @⟨op, as, bs, operands⟩ := h
  generalize op.rest = rest at operands
  generalize (op.format false).leading = slots at operands
  have : as = bs := by
    induction operands with
    | nil => rfl
    | lead head _ ih | rest head _ ih => rw [matches_eq head, ih]
  rw [this]

theorem Work.Like.output_eq {w w' : Work} (h : w.Like N Eq w') : w.output = w'.output := by
  refine Layout.ext_get fun sec => ?_
  rw [← List.forall₂_eq_eq_eq]
  exact (h.output sec).imp fun _ _ => Instruction.Alike.eq

theorem Build.merge_like (h : job.Like N Eq job') (run : merge job b = (.ok done, b')) :
    ∃ done', merge job' b = (.ok done', b') := by
  simp only [merge, inMethod_ok_iff, Job.run_ok_iff, Emission.merge, bind_eq_ok_iff, change_ok_iff] at run ⊢
  obtain ⟨_, ⟨_, s, hexpect, rfl⟩, -, rfl⟩ := run
  have twin : Twin N Eq ⟨b.dictionary, b.target, job.work⟩ ⟨b.dictionary, b.target, job'.work⟩ :=
    ⟨⟨rfl, h.work⟩, rfl⟩
  obtain ⟨-, _, t, hexpect', -, twin'⟩ := (mirrors_expect .merge).twin_quiet hexpect twin
  refine ⟨_, _, ⟨(), t, hexpect', rfl⟩, rfl, ?_⟩
  rw [twin'.dictionary, twin'.target, twin'.work.output_eq]

end

/-! ## Programs -/

/-- Methods are named in one way throughout, values and blocks in each method in a way of its own. -/
def Method.Alike (M : MethodId → MethodId → Prop) (m m' : Method) : Prop :=
  ∃ N : Naming, N.method = M ∧ m.Like N m'

def Program.Alike (M : MethodId → MethodId → Prop) (p p' : Program) : Prop :=
  List.Forall₂ (Method.Alike M) p.methods p'.methods

structure EntryPoint.Alike (M : MethodId → MethodId → Prop) (entry entry' : EntryPoint) : Prop where
  method : M entry.method entry'.method
  name : entry'.name = entry.name
  groupSize : entry'.groupSize = entry.groupSize

section

variable {M : MethodId → MethodId → Prop} {p p' : Program} {entry entry' : EntryPoint}

theorem Method.Alike.id {m m' : Method} (h : m.Alike M m') : M m.id m'.id := by
  obtain ⟨N, rfl, like⟩ := h
  exact like.id

theorem Method.Alike.flip {m m' : Method} (h : m.Alike M m') : m'.Alike (Function.swap M) m := by
  obtain ⟨N, rfl, like⟩ := h
  exact ⟨N.flip, rfl, like.flip⟩

theorem Program.Alike.flip (h : p.Alike M p') : p'.Alike (Function.swap M) p :=
  List.Forall₂.flip (h.imp fun _ _ => Method.Alike.flip)

theorem EntryPoint.Alike.flip (h : entry.Alike M entry') : entry'.Alike (Function.swap M) entry :=
  ⟨h.method, h.name.symm, h.groupSize.symm⟩

theorem Program.Alike.isNone_method? (hM : OneToOne M) (h : p.Alike M p') {k k' : MethodId}
    (hk : M k k') : (p'.method? k').isNone = (p.method? k).isNone := by
  unfold method?
  unfold Alike at h
  generalize p.methods = ms at h
  generalize p'.methods = ms' at h
  induction h with
  | nil => rfl
  | @cons m m' _ _ hm _ ih =>
    have heq : m'.id = k' ↔ m.id = k := (hM _ _ _ _ hm.id hk).symm
    rw [List.find?_cons, List.find?_cons, decide_eq_decide.mpr heq]
    cases decide (m.id = k) with
    | true => rfl
    | false => exact ih

/-! ## Frames -/

/-- The same function under names that match. -/
structure Frame.Alike (M : MethodId → MethodId → Prop) (f f' : Frame) : Prop where
  functions : ∀ k k', M k k' → f'.functions.get? k' = f.functions.get? k
  openCl : f'.openCl = f.openCl
  debugNames : f'.debugNames = f.debugNames

variable {frame frame' : Frame}

theorem Frame.Alike.like {N : Naming} (h : frame.Alike N.method frame') : frame.Like N Eq frame' where
  functions := fun k k' _ hk hid => ⟨(h.functions k k' hk).trans hid, rfl⟩
  openCl := h.openCl
  imported := rfl
  debugNames := h.debugNames

theorem numbers_alike (hM : OneToOne M) {ms ms' : List Method} (hms : List.Forall₂ (Method.Alike M) ms ms')
    {t t' t₁ : FunctionTable} {s s₁ : Supply} (ht : ∀ k k', M k k' → t'.get? k' = t.get? k)
    (run : ms.foldlM (fun table m => table.insert m.id <$> Supply.draw) t s = (.ok t₁, s₁)) :
    ∃ t₁', ms'.foldlM (fun table m => table.insert m.id <$> Supply.draw) t' s = (.ok t₁', s₁) ∧
      ∀ k k', M k k' → t₁'.get? k' = t₁.get? k := by
  induction hms generalizing t t' s with
  | nil =>
    obtain ⟨rfl, rfl⟩ := pure_ok_iff.mp run
    exact ⟨t', rfl, ht⟩
  | @cons m m' ms ms' hm _ ih =>
    rw [List.foldlM_cons, bind_eq_ok_iff] at run
    obtain ⟨_, s₂, hinsert, run⟩ := run
    obtain ⟨id, hdraw, rfl⟩ := map_ok_iff.mp hinsert
    have inserted : ∀ k k', M k k' → (t'.insert m'.id id).get? k' = (t.insert m.id id).get? k := by
      intro k k' hk
      have heq : k' = m'.id ↔ k = m.id := (hM _ _ _ _ hk hm.id).symm
      rw [FunctionTable.get?_insert, FunctionTable.get?_insert, ht k k' hk]
      simp only [heq]
    obtain ⟨t₁', run', ht₁⟩ := ih inserted run
    refine ⟨t₁', ?_, ht₁⟩
    rw [List.foldlM_cons, bind_eq_ok_iff]
    exact ⟨_, s₂, map_ok_iff.mpr ⟨id, hdraw, rfl⟩, run'⟩

theorem Frame.ofProgram_alike (hM : OneToOne M) (hp : p.Alike M p') {debugNames : Bool} {s s' : Supply}
    (run : Frame.ofProgram p debugNames s = (.ok frame, s')) :
    ∃ frame', Frame.ofProgram p' debugNames s = (.ok frame', s') ∧ frame.Alike M frame' := by
  simp only [ofProgram, bind_eq_ok_iff, pure_ok_iff] at run ⊢
  obtain ⟨openCl, s₁, hdraw, functions, s₂, hfunctions, rfl, rfl⟩ := run
  have empty : ∀ k k', M k k' → FunctionTable.empty.get? k' = FunctionTable.empty.get? k :=
    fun _ _ _ => rfl
  obtain ⟨functions', hfunctions', same⟩ := numbers_alike hM hp empty hfunctions
  exact ⟨_, ⟨openCl, s₁, hdraw, functions', s₂, hfunctions', rfl, rfl⟩, same, rfl, rfl⟩

/-! ## Modules -/

/-- Jobs whose output is the same. -/
def Job.Alike (job job' : Job) : Prop := ∃ N, job.Like N Eq job'

namespace Build

variable {b b' : Build} {job done : Job}

theorem header_alike (hframe : frame.Alike M frame') (hentry : entry.Alike M entry') {m m' : Method}
    (hm : m.Alike M m') (run : header frame entry m b = (.ok job, b')) :
    ∃ job', header frame' entry' m' b = (.ok job', b') ∧ job.Alike job' := by
  obtain ⟨N, rfl, hm⟩ := hm
  obtain ⟨job', run', like⟩ := header_like hframe.like hm hentry.method hentry.groupSize run
  exact ⟨job', run', N, like⟩

theorem body_alike {job' : Job} (h : job.Alike job') (run : body job b = (.ok done, b')) :
    ∃ done', body job' b = (.ok done', b') ∧ done.Alike done' := by
  obtain ⟨N, like⟩ := h
  obtain ⟨done', run', like'⟩ := body_like like run
  exact ⟨done', run', N, like'⟩

theorem functions_alike (hp : p.Alike M p') (hframe : frame.Alike M frame')
    (hentry : entry.Alike M entry') (run : functions frame entry p b = (.ok (), b')) :
    functions frame' entry' p' b = (.ok (), b') := by
  simp only [functions, bind_eq_ok_iff] at run ⊢
  obtain ⟨headed, b₁, hheaded, complete, b₂, hcomplete, merged, b₃, hmerged, hb⟩ := run
  obtain ⟨headed', hheaded', headedAlike⟩ :=
    mapM_ok_of_forall₂ hp hheaded fun _ _ _ _ _ hm run => header_alike hframe hentry hm run
  obtain ⟨complete', hcomplete', completeAlike⟩ :=
    mapM_ok_of_forall₂ headedAlike hcomplete fun _ _ _ _ _ like run => body_alike like run
  have merge_alike : ∀ job job' b done b', Job.Alike job job' → merge job b = (.ok done, b') →
      ∃ done', merge job' b = (.ok done', b') ∧ True := by
    rintro job job' b done b' ⟨N, like⟩ run
    obtain ⟨done', run'⟩ := merge_like like run
    exact ⟨done', run', trivial⟩
  obtain ⟨merged', hmerged', -⟩ := mapM_ok_of_forall₂ completeAlike hmerged merge_alike
  exact ⟨headed', b₁, hheaded', complete', b₂, hcomplete', merged', b₃, hmerged', hb⟩

end Build

theorem Build.finish_alike (hframe : frame.Alike M frame') (hentry : entry.Alike M entry') {b : Build}
    {layout : Layout Instruction} (h : b.finish frame entry = .ok layout) :
    b.finish frame' entry' = .ok layout := by
  obtain ⟨kernel, hkernel, -⟩ := finish_ok h []
  have hkernel' := (hframe.functions _ _ hentry.method).trans hkernel
  rw [finish, FunctionTable.get_ok_iff.mpr hkernel', hentry.name]
  rwa [finish, FunctionTable.get_ok_iff.mpr hkernel] at h

theorem compile_alike (hM : OneToOne M) (hp : p.Alike M p') (hentry : entry.Alike M entry') {o : Options}
    {out : Module} (h : compile o p entry = .ok out) : compile o p' entry' = .ok out := by
  obtain ⟨hmethod, frame, supply, b, layout, hframe, hfunctions, hfinish, rfl⟩ := compile_ok_iff.mp h
  obtain ⟨frame', hframe', alike⟩ := Frame.ofProgram_alike hM hp hframe
  have hnew : Build.new frame' supply = Build.new frame supply := by
    rw [Build.new, Build.new, alike.openCl]
  refine compile_ok_iff.mpr ⟨?_, frame', supply, b, layout, hframe', ?_, ?_, rfl⟩
  · rwa [hp.isNone_method? hM hentry.method]
  · rw [hnew]
    exact Build.functions_alike hp alike hentry hfunctions
  · exact Build.finish_alike alike hentry hfinish

end

end SpirvKernel
