import SpirvKernel.Proofs.Module.Order

/-!
# What a module asks of its dictionary

The headers of a module make requests under keys only, of which some may fail. The bodies that come
after them make the requests that their methods call for, and all of them are answered.
-/

namespace SpirvKernel

open Attempt Emission

namespace Build

variable {R : Dictionary → Dictionary → Prop} {frame : Frame} {entry : EntryPoint} {b b' : Build}

theorem header_ok_iff {m : Method} {job : Job} : Build.header frame entry m b = (.ok job, b') ↔
    ∃ id s, frame.functions.get? m.id = some id ∧
      b.dictionary.supply.next + m.idBudget ≤ Supply.limit ∧
      job.task = ⟨frame, m, .ofMethod m, id, if m.id = entry.method then some entry else none⟩ ∧
      Emission.header job.task
        ⟨{ b.dictionary with supply := ⟨b.dictionary.supply.next + m.idBudget⟩ }, b.target,
          Emission.start ⟨b.dictionary.supply.next, b.dictionary.supply.next + m.idBudget⟩⟩ =
        (.ok (), s) ∧
      job.work = s.work ∧ b' = ⟨s.dictionary, s.target⟩ := by
  simp only [Build.header, inMethod_ok_iff, bind_eq_ok_iff]
  constructor
  · rintro ⟨started, b₁, hstart, hrun⟩
    obtain ⟨id, hid, room, rfl, rfl⟩ := Job.start_ok_iff.mp hstart
    obtain ⟨s, hs, rfl, rfl⟩ := Job.run_ok_iff.mp hrun
    exact ⟨id, s, hid, room, rfl, hs, rfl, rfl⟩
  · rintro ⟨id, s, hid, room, task, hs, work, rfl⟩
    refine ⟨_, _, Job.start_ok_iff.mpr ⟨id, hid, room, rfl, rfl⟩, Job.run_ok_iff.mpr ⟨s, ?_, ?_, rfl⟩⟩
    · rw [← task]
      exact hs
    · rw [← task, ← work]

theorem headers_keep (hR : Dictionary.Kept R)
    (reserve : ∀ (d : Dictionary) (n : Nat), d.supply.next + n ≤ Supply.limit →
      R d { d with supply := ⟨d.supply.next + n⟩ })
    {ms : List Method} {jobs : List Job} (run : ms.mapM (Build.header frame entry) b = (.ok jobs, b')) :
    R b.dictionary b'.dictionary := by
  induction ms generalizing b jobs with
  | nil =>
    obtain ⟨-, rfl⟩ := mapM_nil_ok_iff.mp run
    exact hR.refl _
  | cons m ms ih =>
    obtain ⟨job, rest, b₁, hm, hms, -⟩ := mapM_cons_ok_iff.mp run
    obtain ⟨id, s, -, room, -, hs, -, rfl⟩ := header_ok_iff.mp hm
    have header := (header_onDictionary hR job.task).of_ok hs
    exact hR.trans _ _ _ (reserve _ _ room) (hR.trans _ _ _ header (ih hms))

theorem headers_requests {ms : List Method} {jobs : List Job}
    (run : ms.mapM (Build.header frame entry) b = (.ok jobs, b')) :
    jobs.flatMap (fun job => bodyRequests job.task) = ms.flatMap Method.requests := by
  have each := map_of_mapM_ok (g := fun job => bodyRequests job.task) (k := Method.requests)
    (fun m b job b' hm => ?_) run
  · rw [List.flatMap_def, each, ← List.flatMap_def]
  · obtain ⟨id, s, -, -, task, -⟩ := header_ok_iff.mp hm
    rw [task]
    exact bodyRequests_eq rfl

/-- A run over all methods: the headers first, and then the requests of all bodies, all answered. -/
theorem functions_requests (hR : Dictionary.Kept R)
    (reserve : ∀ (d : Dictionary) (n : Nat), d.supply.next + n ≤ Supply.limit →
      R d { d with supply := ⟨d.supply.next + n⟩ })
    {p : Program} {debugNames : Bool} {supply : Supply}
    (hframe : Frame.ofProgram p debugNames Supply.new = (.ok frame, supply))
    (run : Build.functions frame entry p (.new frame supply) = (.ok (), b)) :
    ∃ d ids, R (.new supply) d ∧ Answers (p.methods.flatMap Method.requests) d ids b.dictionary := by
  obtain ⟨jobs, merged, b₂, hbodies, hmerges⟩ := functions_ok_iff.mp run
  simp only [bodies, bind_eq_ok_iff] at hbodies
  obtain ⟨headed, b₁, hheaders, hbodies⟩ := hbodies
  have ready := ((Prepared.new hframe).headers hheaders).ready
  obtain ⟨-, turns, hjobs, -, -, answered⟩ := turns_of_bodies ready.ready hbodies
  have asked : turns.flatMap Turn.requests = p.methods.flatMap Method.requests := by
    rw [← headers_requests hheaders, ← List.nil_append headed, ← hjobs, List.flatMap_map]
    rfl
  rw [asked] at answered
  rw [(merges_ok hmerges).1]
  exact ⟨b₁.dictionary, _, headers_keep hR reserve hheaders, answered⟩

end Build

end SpirvKernel
