import Mathlib.Data.List.Perm.Basic
import SpirvKernel.Proofs.Module.Preparation

/-!
# Bodies in any order

Once the headers are written, the bodies may be written in any order. All of them are accepted in the
one order if they are in the other. Identifiers that the dictionary gives out on the way may be
exchanged; nothing else in a function depends on the order.
-/

namespace SpirvKernel

open Attempt Emission

/-! ## One body -/

/-- A body as it is written: what it asks of the dictionary is answered, and the job is done. -/
structure Turn where
  job : Job
  answers : List Id
  done : Job

namespace Turn

def requests (x : Turn) : List Dictionary.Request := bodyRequests x.job.task

/-- The turn is taken from `d` to `d'`. -/
structure RunsBody (target : Layout Instruction) (x : Turn) (d d' : Dictionary) : Prop where
  run : Build.body x.job ⟨d, target⟩ = (.ok x.done, ⟨d', target⟩)
  answered : Answers x.requests d x.answers d'

end Turn

section

variable {n : Nat} {job done : Job} {b b' : Build} {d d' d₁ d₁' : Dictionary} {target : Layout Instruction}

theorem Build.body_ok_iff : Build.body job b = (.ok done, b') ↔
    ∃ s, Emission.body job.task ⟨b.dictionary, b.target, job.work⟩ = (.ok (), s) ∧
      done = ⟨job.task, s.work⟩ ∧ b' = ⟨s.dictionary, s.target⟩ := by
  rw [Build.body, Build.inMethod_ok_iff, Job.run_ok_iff]

theorem body_runsBody (ready : job.Ready n) (run : Build.body job b = (.ok done, b')) :
    b'.target = b.target ∧ ∃ ids, Turn.RunsBody b.target ⟨job, ids, done⟩ b.dictionary b'.dictionary := by
  obtain ⟨s, hs, rfl, rfl⟩ := Build.body_ok_iff.mp run
  obtain ⟨cs, complete⟩ := body_ok ready.pending hs (.refl _)
  have like : job.Like .same Eq job := ready.like.mono fun _ _ h => h.1
  obtain ⟨ids, answered, -⟩ := mirrors_body (fun a => ⟨a, rfl⟩) like.task _ _ _
    ⟨b.dictionary, b.target, job.work⟩ hs ⟨rfl, like.work⟩
  refine ⟨complete.target, ids, ?_, answered⟩
  rwa [complete.target] at run

/-- A body is written again from another dictionary. -/
theorem Turn.RunsBody.again {x : Turn} {R : Word → Word → Prop} (taken : x.RunsBody target d d')
    (total : ∀ a, ∃ b, R a b) (like : x.job.Like .same R x.job) {ids : List Id}
    (answered : Answers x.requests d₁ ids d₁')
    (related : List.Forall₂ (fun i j => R i.word j.word) x.answers ids) :
    ∃ done', Build.body x.job ⟨d₁, target⟩ = (.ok done', ⟨d₁', target⟩) ∧ x.done.Like .same R done' := by
  obtain ⟨s, hs, hdone, hb⟩ := Build.body_ok_iff.mp taken.run
  obtain ⟨rfl, rfl⟩ := Build.mk.inj hb
  obtain ⟨ids', answered', -, mirror⟩ := mirrors_body total like.task _ _ _
    ⟨d₁, s.target, x.job.work⟩ hs ⟨rfl, like.work⟩
  obtain rfl : x.answers = ids' := by
    have same := taken.answered.symm.trans answered'
    simpa using same
  obtain ⟨_, t, run', hd, -, like'⟩ := mirror ids d₁' answered related
  refine ⟨⟨x.job.task, t.work⟩, Build.body_ok_iff.mpr ⟨t, run', rfl, ?_⟩, ?_⟩
  · rw [hd, like'.target]
  · rw [hdone]
    exact ⟨like.task, like'.work⟩

theorem results_lt (ready : job.Ready n) (limit : n ≤ Supply.limit)
    (run : Build.body job b = (.ok done, b')) :
    ∀ w ∈ Instruction.results done.work.output.functions, w.toNat < n := by
  -- The identifiers of a function are from the range of its method.
  obtain ⟨s, hs, rfl, rfl⟩ := Build.body_ok_iff.mp run
  obtain ⟨cs, complete⟩ := body_ok ready.pending hs (.refl _)
  have header : ∀ w ∈ Instruction.results job.work.output.functions, w.toNat < n := by
    have results := results_alike (ready.like.work.output .functions)
    rw [List.forall₂_same] at results
    exact fun w hw => (results w hw).2
  have stop : s.work.table.range.next ≤ n := by
    refine (complete.room ready.range).trans ?_
    rw [complete.stop]
    exact ready.stop
  have closing : Instruction.results [Instruction.of .functionEnd []] = [] := rfl
  intro w hw
  change w ∈ Instruction.results s.work.output.functions at hw
  rw [complete.output, functions_append, Instruction.results_append, Instruction.results_append, closing,
    List.append_nil, List.mem_append, complete.results.mem_iff, mem_wordsFrom (stop.trans limit)] at hw
  rcases hw with hw | hw
  · exact header w hw
  · omega

end

/-! ## One body after the other -/

section

variable {n : Nat} {jobs done : List Job} {b b' : Build}

theorem turns_of_bodies (ready : ∀ job ∈ jobs, job.Ready n)
    (run : jobs.mapM Build.body b = (.ok done, b')) :
    b'.target = b.target ∧ ∃ turns : List Turn, turns.map (·.job) = jobs ∧ turns.map (·.done) = done ∧
      (∀ x ∈ turns, ∃ d d', x.RunsBody b.target d d') ∧
      Answers (turns.flatMap Turn.requests) b.dictionary (turns.flatMap (·.answers)) b'.dictionary := by
  induction jobs generalizing b done with
  | nil =>
    obtain ⟨rfl, rfl⟩ := mapM_nil_ok_iff.mp run
    exact ⟨rfl, [], rfl, rfl, List.forall_mem_nil _, mapM_nil_ok_iff.mpr ⟨rfl, rfl⟩⟩
  | cons job jobs ih =>
    obtain ⟨x, rest, b₁, hjob, hjobs, rfl⟩ := mapM_cons_ok_iff.mp run
    obtain ⟨same, ids, taken⟩ := body_runsBody (ready job List.mem_cons_self) hjob
    obtain ⟨same', turns, rfl, rfl, taken', answered⟩ :=
      ih (fun job hjob => ready job (List.mem_cons_of_mem _ hjob)) hjobs
    rw [same] at same' taken'
    refine ⟨same', ⟨job, ids, x⟩ :: turns, rfl, rfl, ?_, ?_⟩
    · exact List.forall_mem_cons.mpr ⟨⟨_, _, taken⟩, taken'⟩
    · exact mapM_append_ok_iff.mpr ⟨ids, _, _, taken.answered, answered, rfl⟩

end

/-- A turn with a second set of answers. -/
structure Repeated extends Turn where
  log : List Dictionary.Exchange
  request : log.map (·.request) = toTurn.requests
  first : log.map (·.first) = answers

def Repeated.again (x : Repeated) : List Id := x.log.map (·.second)

theorem exists_log {rs : List Dictionary.Request} {ids ids' : List Id} (h : ids.length = rs.length)
    (h' : ids'.length = rs.length) : ∃ log : List Dictionary.Exchange,
      log.map (·.request) = rs ∧ log.map (·.first) = ids ∧ log.map (·.second) = ids' := by
  induction rs generalizing ids ids' with
  | nil =>
    obtain rfl := List.eq_nil_of_length_eq_zero h
    obtain rfl := List.eq_nil_of_length_eq_zero h'
    exact ⟨[], rfl, rfl, rfl⟩
  | cons r rs ih =>
    obtain ⟨id, ids, rfl⟩ := List.exists_cons_of_length_eq_add_one h
    obtain ⟨id', ids', rfl⟩ := List.exists_cons_of_length_eq_add_one h'
    obtain ⟨log, rfl, rfl, rfl⟩ := ih (Nat.succ.inj h) (Nat.succ.inj h')
    exact ⟨⟨r, id, id'⟩ :: log, rfl, rfl, rfl⟩

section

variable {d d' : Dictionary} {target : Layout Instruction}

theorem exists_repeated {turns : List Turn} (taken : ∀ x ∈ turns, ∃ d d', x.RunsBody target d d')
    {ids : List Id} (answered : Answers (turns.flatMap Turn.requests) d ids d') :
    ∃ xs : List Repeated, xs.map (·.toTurn) = turns ∧ xs.flatMap (·.again) = ids := by
  induction turns generalizing d ids with
  | nil =>
    obtain ⟨rfl, rfl⟩ := mapM_nil_ok_iff.mp answered
    exact ⟨[], rfl, rfl⟩
  | cons x turns ih =>
    obtain ⟨⟨_, _, taken₁⟩, taken₂⟩ := List.forall_mem_cons.mp taken
    obtain ⟨ids₁, ids₂, d₁, answered₁, answered₂, rfl⟩ := mapM_append_ok_iff.mp answered
    obtain ⟨log, request, first, rfl⟩ :=
      exists_log (length_of_mapM_ok taken₁.answered) (length_of_mapM_ok answered₁)
    obtain ⟨xs, rfl, rfl⟩ := ih taken₂ answered₂
    exact ⟨⟨x, log, request, first⟩ :: xs, rfl, rfl⟩

theorem bodies_of_repeated {R : Word → Word → Prop} (total : ∀ a, ∃ b, R a b) {xs : List Repeated}
    (taken : ∀ x ∈ xs, ∃ d d', x.RunsBody target d d') (like : ∀ x ∈ xs, x.job.Like .same R x.job)
    (related : ∀ x ∈ xs, ∀ z ∈ x.log, R z.first.word z.second.word)
    (answered : Answers (xs.flatMap (·.requests)) d (xs.flatMap (·.again)) d') :
    ∃ done, (xs.map (·.job)).mapM Build.body ⟨d, target⟩ = (.ok done, ⟨d', target⟩) ∧
      List.Forall₂ (fun x y => x.done.Like .same R y) xs done := by
  induction xs generalizing d with
  | nil =>
    obtain ⟨-, rfl⟩ := mapM_nil_ok_iff.mp answered
    exact ⟨[], rfl, .nil⟩
  | cons x xs ih =>
    obtain ⟨⟨_, _, taken₁⟩, taken₂⟩ := List.forall_mem_cons.mp taken
    obtain ⟨like₁, like₂⟩ := List.forall_mem_cons.mp like
    obtain ⟨related₁, related₂⟩ := List.forall_mem_cons.mp related
    obtain ⟨ids₁, ids₂, d₁, answered₁, answered₂, heq⟩ := mapM_append_ok_iff.mp answered
    have length : x.again.length = x.requests.length := by
      rw [Repeated.again, ← x.request, List.length_map, List.length_map]
    obtain ⟨rfl, rfl⟩ := List.append_inj heq (length.trans (length_of_mapM_ok answered₁).symm)
    have answers : List.Forall₂ (fun i j => R i.word j.word) x.answers x.again := by
      rw [← x.first, Repeated.again, List.forall₂_map_left_iff, List.forall₂_map_right_iff]
      exact List.forall₂_same.mpr related₁
    obtain ⟨y, run, alike⟩ := taken₁.again total like₁ answered₁ answers
    obtain ⟨done, rest, alike'⟩ := ih taken₂ like₂ related₂ answered₂
    exact ⟨y :: done, mapM_cons_ok_iff.mpr ⟨y, done, _, run, rest, rfl⟩, .cons alike alike'⟩

end

/-! ## Two orders -/

theorem exists_perm_of_map {α β : Type} {f : α → β} {as : List α} {bs : List β} (h : bs.Perm (as.map f)) :
    ∃ as' : List α, as'.Perm as ∧ as'.map f = bs := by
  have images : List.Forall₂ (fun b a => b = f a) (as.map f) as :=
    List.forall₂_map_left_iff.mpr (List.forall₂_same.mpr fun _ _ => rfl)
  obtain ⟨as', same, perm⟩ := List.perm_comp_forall₂ h images
  refine ⟨as', perm, ?_⟩
  rw [← List.forall₂_eq_eq_eq, List.forall₂_map_left_iff]
  exact same.flip.imp fun _ _ h => h.symm

section

variable {d F F' : Dictionary}

theorem exchanged_of_repeated {xs ys : List Repeated} (hd : d.Whole) (perm : ys.Perm xs)
    (answered : Answers (xs.flatMap (·.requests)) d (xs.flatMap (·.answers)) F)
    (answered' : Answers (ys.flatMap (·.requests)) d (ys.flatMap (·.again)) F') :
    Dictionary.Exchanged d F F' (xs.flatMap (·.log)) := by
  have requests (zs : List Repeated) :
      (zs.flatMap (·.log)).map (·.request) = zs.flatMap (·.requests) := by
    simp only [List.map_flatMap, Repeated.request]
  refine ⟨hd, ?_, ys.flatMap (·.log), perm.flatMap_right _, ?_⟩
  · rw [requests, List.map_flatMap]
    simp only [Repeated.first]
    exact answered
  · rw [requests, List.map_flatMap]
    exact answered'

end

/-- Bodies that are accepted in one order are accepted in every other. -/
theorem bodies_reordered {first second done : List Job} {b b₁ : Build} (hb : b.dictionary.Whole)
    (ready : ∀ job ∈ first, job.Ready b.dictionary.supply.next) (perm : second.Perm first)
    (run : first.mapM Build.body b = (.ok done, b₁)) :
    ∃ done' b₂, second.mapM Build.body b = (.ok done', b₂) ∧ b₁.dictionary.Agrees b₂.dictionary ∧
      ∃ σ : Equiv.Perm Word, (∀ w, w.toNat < b.dictionary.supply.next → σ w = w) ∧
        ∃ turns : List Turn, turns.map (·.job) = second ∧
          (turns.map fun x => (x.job, x.done)).Perm (first.zip done) ∧
          (∀ x ∈ turns, ∃ d d', x.RunsBody b.target d d') ∧
          List.Forall₂ (fun x y => x.done.Like .same (fun a b => σ a = b) y) turns done' := by
  obtain ⟨-, turns, rfl, rfl, taken, answered⟩ := turns_of_bodies ready run
  obtain ⟨turns', perm', rfl⟩ := exists_perm_of_map perm
  -- The requests alone come first in the second order. Their answers are what the bodies then get.
  have asked := perm'.flatMap_right Turn.requests
  obtain ⟨ids, F', answered', -⟩ := Dictionary.requests_perm hb answered asked
  obtain ⟨ys, rfl, rfl⟩ := exists_repeated (fun x hx => taken x (perm'.mem_iff.mp hx)) answered'
  obtain ⟨xs, permuted, rfl⟩ := exists_perm_of_map perm'.symm
  simp only [List.flatMap_map, List.forall_mem_map] at answered answered' taken ready
  -- Request by request, the answers in both orders correspond.
  have exchanged := exchanged_of_repeated hb permuted.symm answered answered'
  obtain ⟨σ, fixed, exchanges⟩ := exchanged.exists_perm
  have mem {x : Repeated} (hx : x ∈ ys) : x ∈ xs := permuted.mem_iff.mpr hx
  have like : ∀ x ∈ ys, x.job.Like .same (fun a b => σ a = b) x.job := by
    intro x hx
    refine (ready x (mem hx)).like.mono ?_
    rintro a _ ⟨rfl, low⟩
    exact fixed a low
  obtain ⟨done', run', alike⟩ := bodies_of_repeated (fun a => ⟨σ a, rfl⟩) (fun x hx => taken x (mem hx)) like
    (fun x hx z hz => exchanges z (List.mem_flatMap.mpr ⟨x, mem hx, hz⟩)) answered'
  refine ⟨done', ⟨F', b.target⟩, ?_, ?_, σ, fixed, ys.map (·.toTurn), rfl, ?_, ?_, ?_⟩
  · rw [List.map_map]
    exact run'
  · exact Dictionary.requests_agree hb (permuted.symm.flatMap_right _) answered answered'
  · rw [List.zip_map', List.map_map, List.map_map]
    exact permuted.symm.map _
  · rw [List.forall_mem_map]
    exact fun x hx => taken x (mem hx)
  · exact List.forall₂_map_left_iff.mpr alike

theorem results_fixed {σ : Word → Word} {is js : List Instruction}
    (alike : List.Forall₂ (Instruction.Alike fun v w => σ v = w) is js)
    (fixed : ∀ w ∈ Instruction.results is, σ w = w) : Instruction.results js = Instruction.results is := by
  have image : (Instruction.results is).map σ = Instruction.results js := by
    rw [← List.forall₂_eq_eq_eq, List.forall₂_map_left_iff]
    exact results_alike alike
  rw [← image, List.map_congr_left fixed, List.map_id']

theorem exists_turn {P : Turn → Job → Prop} {first done done' : List Job} {turns : List Turn} {job x y : Job}
    (nodup : first.Nodup) (length : first.length ≤ done.length)
    (same : (turns.map fun x => (x.job, x.done)).Perm (first.zip done))
    (related : List.Forall₂ P turns done') (hx : (job, x) ∈ first.zip done)
    (hy : (job, y) ∈ (turns.map (·.job)).zip done') : ∃ t ∈ turns, t.job = job ∧ t.done = x ∧ P t y := by
  rw [List.zip_map_left] at hy
  obtain ⟨⟨t, _⟩, ht, heq⟩ := List.mem_map.mp hy
  obtain ⟨rfl, rfl⟩ := Prod.mk.inj heq
  have hturn := (List.of_mem_zip ht).1
  have hdone := same.mem_iff.mp (List.mem_map_of_mem hturn)
  have nodup' : ((first.zip done).map Prod.fst).Nodup := by
    rwa [List.map_fst_zip length]
  have hpair := List.inj_on_of_nodup_map nodup' hdone hx rfl
  exact ⟨t, hturn, rfl, (Prod.mk.inj hpair).2, (List.forall₂_iff_zip.mp related).2 ht⟩

/-- The order of the bodies matters to the identifiers that the dictionary gives out, and no more. -/
theorem bodies_in_any_order {frame : Frame} {b : Build} {jobs first second : List Job}
    (prepared : Build.Prepared frame b jobs) (hfirst : first.Perm jobs) (hsecond : second.Perm jobs) :
    ((∃ done b₁, first.mapM Build.body b = (.ok done, b₁)) ↔
      ∃ done b₂, second.mapM Build.body b = (.ok done, b₂)) ∧
    ∀ done₁ done₂ b₁ b₂, first.mapM Build.body b = (.ok done₁, b₁) →
      second.mapM Build.body b = (.ok done₂, b₂) →
      b₂.dictionary.supply.next = b₁.dictionary.supply.next ∧ b₂.dictionary.size = b₁.dictionary.size ∧
      b₂.dictionary.capabilities = b₁.dictionary.capabilities ∧
      b₂.dictionary.specIds = b₁.dictionary.specIds ∧
      ∃ σ : Equiv.Perm Word, (∀ w, w.toNat < b.dictionary.supply.next → σ w = w) ∧
        ∀ job x y, (job, x) ∈ first.zip done₁ → (job, y) ∈ second.zip done₂ →
          List.Forall₂ (Instruction.Alike fun v w => σ v = w) x.work.output.functions
            y.work.output.functions ∧
          Instruction.results y.work.output.functions = Instruction.results x.work.output.functions := by
  have ready := prepared.ready
  have each {order : List Job} (h : order.Perm jobs) : ∀ job ∈ order, job.Ready b.dictionary.supply.next :=
    fun job hjob => ready.ready job (h.mem_iff.mp hjob)
  have perm : second.Perm first := hsecond.trans hfirst.symm
  refine ⟨⟨?_, ?_⟩, ?_⟩
  · rintro ⟨done, b₁, run⟩
    obtain ⟨done', b₂, run', -⟩ := bodies_reordered ready.whole (each hfirst) perm run
    exact ⟨done', b₂, run'⟩
  · rintro ⟨done, b₂, run⟩
    obtain ⟨done', b₁, run', -⟩ := bodies_reordered ready.whole (each hsecond) perm.symm run
    exact ⟨done', b₁, run'⟩
  · intro done₁ done₂ b₁ b₂ run₁ run₂
    obtain ⟨_, _, again, agrees, σ, fixed, turns, rfl, same, taken, alike⟩ :=
      bodies_reordered ready.whole (each hfirst) perm run₁
    rw [run₂] at again
    cases again
    refine ⟨agrees.next, agrees.size, agrees.capabilities, agrees.specIds, σ, fixed, ?_⟩
    intro job x y hx hy
    obtain ⟨t, ht, rfl, rfl, like⟩ := exists_turn (hfirst.nodup_iff.mpr ready.nodup)
      (length_of_mapM_ok run₁).ge same alike hx hy
    obtain ⟨_, _, taken⟩ := taken t ht
    -- Functions have identifiers from before the bodies, which stay fixed.
    have low := results_lt (each hfirst _ (List.of_mem_zip hx).1) ready.whole.limit taken.run
    have functions := like.work.output .functions
    exact ⟨functions, results_fixed functions fun w hw => fixed w (low w hw)⟩

/-- Two methods with memory for the group, of a size that the host chooses for each. -/
def spread : Program where
  methods := [
    { id := ⟨0⟩, name := "spread", params := [⟨⟨0⟩, .pointer .i32 .global⟩], returnType := .void
      blocks := [
        { id := ⟨0⟩
          body := [⟨⟨1⟩, .pointer .i32 .shared, .alloca .i32 .dynamic⟩,
            ⟨⟨2⟩, .i32, .gridIndex .globalIndex 0⟩, ⟨⟨3⟩, .void, .store ⟨1⟩ ⟨2⟩⟩,
            ⟨⟨4⟩, .void, .call (.method ⟨1⟩) [⟨2⟩] .none⟩]
          terminator := .ret none }] },
    { id := ⟨1⟩, name := "keep", params := [⟨⟨0⟩, .i32⟩], returnType := .void
      blocks := [
        { id := ⟨0⟩
          body := [⟨⟨1⟩, .pointer .i32 .shared, .alloca .i32 .dynamic⟩, ⟨⟨2⟩, .void, .store ⟨1⟩ ⟨0⟩⟩,
            ⟨⟨3⟩, .void, .barrier⟩]
          terminator := .ret none }] }]

def spreadEntry : EntryPoint := { method := ⟨0⟩, name := "spread", rank := .one, groupSize := none }

def spreadFrame : Frame := ⟨⟨[(⟨1⟩, ⟨3⟩), (⟨0⟩, ⟨2⟩)]⟩, ⟨1⟩, false⟩

theorem spread_in_any_order : ∃ jobs done₁ done₂ b b₁ b₂, Build.Prepared spreadFrame b jobs ∧
    jobs.mapM Build.body b = (.ok done₁, b₁) ∧ jobs.reverse.mapM Build.body b = (.ok done₂, b₂) ∧
    done₁.map (·.work.output.functions) ≠ done₂.reverse.map (·.work.output.functions) ∧
    b₂.dictionary.supply.next = b₁.dictionary.supply.next ∧ b₂.dictionary.size = b₁.dictionary.size ∧
    b₂.dictionary.capabilities = b₁.dictionary.capabilities ∧
    b₂.dictionary.specIds = b₁.dictionary.specIds ∧
    ∃ σ : Equiv.Perm Word, (∀ w, w.toNat < b.dictionary.supply.next → σ w = w) ∧
      ∀ job x y, (job, x) ∈ jobs.zip done₁ → (job, y) ∈ jobs.reverse.zip done₂ →
        List.Forall₂ (Instruction.Alike fun v w => σ v = w) x.work.output.functions
          y.work.output.functions ∧
        Instruction.results y.work.output.functions = Instruction.results x.work.output.functions := by
  have hframe : Frame.ofProgram spread false Supply.new = (.ok spreadFrame, ⟨4⟩) := rfl
  obtain ⟨jobs, b, headers, h⟩ := exists_run_of_any (s := .new spreadFrame ⟨4⟩)
    (x := spread.methods.mapM (Build.header spreadFrame spreadEntry)) (f := fun jobs b =>
      (jobs.mapM Build.body b).1.toOption.any fun done₁ =>
        (jobs.reverse.mapM Build.body b).1.toOption.any fun done₂ =>
          done₁.map (·.work.output.functions) ≠ done₂.reverse.map (·.work.output.functions))
    (by decide +kernel)
  obtain ⟨done₁, h₁, h⟩ := exists_ok_of_any h
  obtain ⟨done₂, h₂, h⟩ := exists_ok_of_any h
  have run₁ : jobs.mapM Build.body b = (.ok done₁, _) := Prod.ext h₁ rfl
  have run₂ : jobs.reverse.mapM Build.body b = (.ok done₂, _) := Prod.ext h₂ rfl
  have prepared : Build.Prepared spreadFrame b ([] ++ jobs) := (Build.Prepared.new hframe).headers headers
  exact ⟨jobs, done₁, done₂, b, _, _, prepared, run₁, run₂, of_decide_eq_true h,
    (bodies_in_any_order prepared (.refl _) jobs.reverse_perm).2 _ _ _ _ run₁ run₂⟩

end SpirvKernel
