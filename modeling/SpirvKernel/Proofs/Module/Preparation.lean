import SpirvKernel.Proofs.Dictionary.Correspondence
import SpirvKernel.Proofs.Module.Likeness

/-!
# Methods ready for their bodies

Methods are taken up and their headers are written. Up to then identifiers are given out in one order
only, and all that was written names none beyond them.
-/

namespace SpirvKernel

open Attempt Emission

theorem Dictionary.kept_whole : Kept fun d d₁ => d.Whole → d₁.Whole := by
  refine ⟨fun _ => id, fun _ _ _ h h' hd => h' (h hd), fun r h d hd => ?_⟩
  obtain ⟨key, hkey⟩ := Option.isSome_iff_exists.mp h
  rw [perform_eq_file hkey]
  exact hd.file (regular_of_key? hkey)

/-! ## Methods under way -/

/-- Methods are taken up, in the order of the jobs, and headers are written, in any order. -/
inductive Build.Prepared (frame : Frame) : Build → List Job → Prop
  | new {p : Program} {debugNames : Bool} {supply : Supply}
      (h : Frame.ofProgram p debugNames Supply.new = (.ok frame, supply)) :
      Prepared frame (.new frame supply) []
  | start {b : Build} {jobs : List Job} {m : Method} {storage : Storage} {entry : Option EntryPoint}
      {task : Task} {work : Work} {supply : Supply} (h : Prepared frame b jobs)
      (run : Task.start frame m storage entry b.dictionary.supply = (.ok (task, work), supply)) :
      Prepared frame { b with dictionary := { b.dictionary with supply } } (jobs ++ [⟨task, work⟩])
  | header {b b' : Build} {before after : List Job} {job job' : Job}
      (h : Prepared frame b (before ++ job :: after))
      (run : job.run Emission.header b = (.ok job', b')) : Prepared frame b' (before ++ job' :: after)

/-- A word that was given out before `n`. -/
def GivenBefore (n : Nat) (a b : Word) : Prop := a = b ∧ a.toNat < n

theorem GivenBefore.mono {m n : Nat} (hmn : m ≤ n) (a b : Word) (h : GivenBefore m a b) :
    GivenBefore n a b :=
  ⟨h.1, Nat.lt_of_lt_of_le h.2 hmn⟩

theorem givenBefore_word {n : Nat} {id : Id} (hid : id.number < n) (hn : n ≤ Supply.limit) :
    GivenBefore n id.word id.word := by
  refine ⟨rfl, ?_⟩
  rw [Id.word, toNat_ofNat (by omega)]
  exact hid

/-- The job names only what was given out before `n`, and its range ends there at the latest. -/
structure Job.Ready (n : Nat) (job : Job) : Prop where
  like : job.Like .same (GivenBefore n) job
  pending : job.work.pending = []
  range : job.work.table.range.next ≤ job.work.table.range.stop
  stop : job.work.table.range.stop ≤ n

theorem Job.Ready.mono {m n : Nat} (hmn : m ≤ n) {job : Job} (h : job.Ready m) : job.Ready n where
  like := h.like.mono (GivenBefore.mono hmn)
  pending := h.pending
  range := h.range
  stop := h.stop.trans hmn

theorem Job.Ready.header {b b' : Build} {job job' : Job} (ready : job.Ready b.dictionary.supply.next)
    (hb : b.dictionary.Whole) (run : job.run Emission.header b = (.ok job', b')) :
    b'.dictionary.Whole ∧ b.dictionary.supply.next ≤ b'.dictionary.supply.next ∧
      job'.work.table.range.stop = job.work.table.range.stop ∧ job'.Ready b'.dictionary.supply.next := by
  obtain ⟨s, hs, rfl, rfl⟩ := Job.run_ok_iff.mp run
  obtain ⟨is, names, modes, headed⟩ := header_ok hs
  have more : b.dictionary.supply.next ≤ s.dictionary.supply.next := headed.steps.next_le
  have whole : s.dictionary.Whole := by
    have keeps := (header_onDictionary Dictionary.kept_whole job.task).of_ok hs
    exact keeps hb
  -- The header mirrors itself, and what it names is known to the dictionary by then.
  have like := (ready.mono more).like
  obtain ⟨_, run', like'⟩ := like.run run fun s t twin hs hd =>
    header_mirrored like.task twin hs fun k id hk => by
      rw [hd] at hk
      exact ⟨rfl, whole.distinct.orderly.toNat_lt hk⟩
  rw [run] at run'
  cases run'
  refine ⟨whole, more, headed.stop, like', headed.pending.trans ready.pending, headed.room ready.range, ?_⟩
  change s.work.table.range.stop ≤ _
  rw [headed.stop]
  exact ready.stop.trans more

structure Build.Ready (frame : Frame) (b : Build) (jobs : List Job) : Prop where
  whole : b.dictionary.Whole
  shared : frame.Like .same (GivenBefore b.dictionary.supply.next) frame
  ready : ∀ job ∈ jobs, job.Ready b.dictionary.supply.next
  stops : (jobs.map (·.work.table.range.stop)).Pairwise (· < ·)

namespace Build

variable {frame : Frame} {b b' : Build} {jobs : List Job}

theorem ready_new {p : Program} {debugNames : Bool} {supply : Supply}
    (h : Frame.ofProgram p debugNames Supply.new = (.ok frame, supply)) :
    Ready frame (.new frame supply) [] := by
  obtain ⟨hnext, limit, of⟩ := Frame.ofProgram_ok h
  refine ⟨Dictionary.whole_new supply limit, ⟨?_, rfl, ?_, rfl⟩, nofun, .nil⟩
  · rintro m _ id rfl hid
    obtain ⟨-, -, hid'⟩ := of.listed m id hid
    refine ⟨hid, givenBefore_word ?_ limit⟩
    change id.number < supply.next
    omega
  · refine givenBefore_word ?_ limit
    change frame.openCl.number < supply.next
    rw [of.openCl, hnext]
    change Supply.new.next < _
    omega

theorem Ready.start {m : Method} {storage : Storage} {entry : Option EntryPoint} {task : Task}
    {work : Work} {supply : Supply} (h : Ready frame b jobs)
    (run : Task.start frame m storage entry b.dictionary.supply = (.ok (task, work), supply)) :
    Ready frame { b with dictionary := { b.dictionary with supply } } (jobs ++ [⟨task, work⟩]) := by
  obtain ⟨id, hid, room, rfl, rfl, rfl⟩ := Task.start_ok_iff.mp run
  have more : b.dictionary.supply.next ≤ b.dictionary.supply.next + m.idBudget := Nat.le_add_right _ _
  have shared := h.shared.mono (GivenBefore.mono more)
  have own : ∀ n < b.dictionary.supply.next + m.idBudget,
      GivenBefore (b.dictionary.supply.next + m.idBudget) (Id.word ⟨n⟩) (Id.word ⟨n⟩) :=
    fun _ hn => givenBefore_word hn room
  have budget : 0 < m.idBudget := Nat.succ_pos _
  refine ⟨h.whole.reserve room, shared, ?_, ?_⟩
  · intro job hjob
    rcases List.mem_append.mp hjob with hjob | hjob
    · exact (h.ready job hjob).mono more
    · obtain rfl := List.mem_singleton.mp hjob
      refine ⟨⟨⟨shared, m.like_same, storage.like_same, rfl, ?_, rfl⟩, like_start own ?_⟩, rfl, more,
        Nat.le_refl _⟩
      · exact (shared.functions _ _ id rfl hid).2
      · refine ⟨rfl, ?_⟩
        exact Nat.lt_of_lt_of_le budget (Nat.le_add_left _ _)
  · rw [List.map_append, List.pairwise_append]
    refine ⟨h.stops, List.pairwise_singleton _ _, ?_⟩
    intro n hn k hk
    obtain ⟨job, hjob, rfl⟩ := List.mem_map.mp hn
    obtain rfl := List.mem_singleton.mp hk
    change _ < b.dictionary.supply.next + m.idBudget
    have := (h.ready job hjob).stop
    omega

theorem Ready.header {before after : List Job} {job job' : Job}
    (h : Ready frame b (before ++ job :: after)) (run : job.run Emission.header b = (.ok job', b')) :
    Ready frame b' (before ++ job' :: after) := by
  have ready := h.ready job (List.mem_append_right _ List.mem_cons_self)
  obtain ⟨whole, more, stop, ready'⟩ := ready.header h.whole run
  refine ⟨whole, h.shared.mono (GivenBefore.mono more), ?_, ?_⟩
  · intro other hother
    rw [List.mem_append, List.mem_cons] at hother
    rcases hother with hother | rfl | hother
    · exact (h.ready other (List.mem_append_left _ hother)).mono more
    · exact ready'
    · exact (h.ready other (List.mem_append_right _ (List.mem_cons_of_mem _ hother))).mono more
  · have stops := h.stops
    rw [List.map_append, List.map_cons] at stops ⊢
    rwa [stop]

theorem Prepared.ready (h : Prepared frame b jobs) : Ready frame b jobs := by
  induction h with
  | new hframe => exact ready_new hframe
  | start _ run ih => exact ih.start run
  | header _ run ih => exact ih.header run

theorem Ready.nodup (h : Ready frame b jobs) : jobs.Nodup :=
  .of_map _ (h.stops.imp Nat.ne_of_lt)

theorem Prepared.headers {entry : EntryPoint} {ms : List Method} {headed : List Job}
    (h : Prepared frame b jobs) (run : ms.mapM (Build.header frame entry) b = (.ok headed, b')) :
    Prepared frame b' (jobs ++ headed) := by
  induction ms generalizing b jobs headed with
  | nil =>
    obtain ⟨rfl, rfl⟩ := mapM_nil_ok_iff.mp run
    rwa [List.append_nil]
  | cons m ms ih =>
    obtain ⟨job, rest, b₁, hm, hms, rfl⟩ := mapM_cons_ok_iff.mp run
    simp only [Build.header, inMethod_ok_iff, bind_eq_ok_iff] at hm
    obtain ⟨started, b₀, hstart, hheader⟩ := hm
    obtain ⟨id, hid, room, rfl, rfl⟩ := Job.start_ok_iff.mp hstart
    have hstart : Task.start frame m (.ofMethod m) (if m.id = entry.method then some entry else none)
        b.dictionary.supply = (.ok (_, _), _) := Task.start_ok_iff.mpr ⟨id, hid, room, rfl, rfl, rfl⟩
    have := ih (Prepared.header (h.start hstart) hheader) hms
    rwa [List.append_assoc] at this

end Build

end SpirvKernel
