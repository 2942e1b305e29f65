import SpirvKernel.Proofs.Dictionary.Requests
import SpirvKernel.Proofs.Emission.Failure
import SpirvKernel.Proofs.Emission.Shape
import SpirvKernel.Proofs.Module.Reservation

/-!
# The life of a method in a module

Several methods are emitted side by side, with requests in any order and whatever fails. Each reaches
the module at most once, as one complete function, and a request out of order changes nothing.
-/

namespace SpirvKernel

open Attempt Emission

/-! ## Sessions -/

/-- The methods under way and what they build together. -/
structure Session where
  build : Build
  jobs : List Job

namespace Session

inductive Action where
  /-- Takes up a method, as the kernel if there is an entry point. -/
  | start (m : Method) (storage : Storage) (entry : Option EntryPoint)
  | request (job : Nat) (r : Emission.Request)
  /-- Somebody else asks for a declaration. -/
  | declare (r : Dictionary.Request)
  /-- Somebody else sets identifiers aside. -/
  | reserve (count : Nat)

def onDictionary (s : Session) (f : Dictionary → Dictionary) : Session :=
  { s with build := { s.build with dictionary := f s.build.dictionary } }

/-- What comes of an action; nothing if there is no such job. -/
def act (frame : Frame) (s : Session) : Action → Option (Except Fault Unit × Session)
  | .start m storage entry =>
    match Task.start frame m storage entry s.build.dictionary.supply with
    | (.ok (task, work), supply) =>
      some (.ok (), { s.onDictionary ({ · with supply }) with jobs := s.jobs ++ [⟨task, work⟩] })
    | (.error e, supply) => some (.error e, s.onDictionary ({ · with supply }))
  | .request g r => s.jobs[g]?.map fun job =>
    let (result, e) := perform job.task r ⟨s.build.dictionary, s.build.target, job.work⟩
    (result, ⟨⟨e.dictionary, e.target⟩, s.jobs.set g ⟨job.task, e.work⟩⟩)
  | .declare r =>
    let (result, d) := Dictionary.perform r s.build.dictionary
    some (result.map fun _ => (), s.onDictionary fun _ => d)
  | .reserve count =>
    let (result, supply) := Supply.reserve count s.build.dictionary.supply
    some (result.map fun _ => (), s.onDictionary ({ · with supply }))

structure Event where
  action : Action
  before : Session
  result : Except Fault Unit
  after : Session

/-- All that happens when the actions are taken one after the other. -/
def events (frame : Frame) : List Action → Session → List Event
  | [], _ => []
  | a :: as, s =>
    match s.act frame a with
    | some (result, s') => ⟨a, s, result, s'⟩ :: events frame as s'
    | none => events frame as s

end Session

/-! ## What holds of a job at any time -/

/-- The output of a method that may join the module: one function, and notes about it. -/
structure IsWholeFunction (m : Method) (output : Layout Instruction) : Prop where
  elsewhere : ∀ sec, sec ∉ [.debug, .executionModes, .functions] → output.get sec = []
  function : ∃ ops, output.functions.map Instruction.opcode? = ops.map some ∧
    m.IsFunction ops ∧ IsSingleFunction ops

theorem Emission.Text.Of.whole {t : Task} {d : Dictionary} {r : IdRange} {w : Work} {x : Text}
    (h : x.Of t d r w) : IsWholeFunction t.method w.output where
  elsewhere sec hsec := by
    rw [h.output]
    cases sec <;> first | rfl | simp at hsec
  function := by
    obtain ⟨ops, hspell, hfunction⟩ := h.isFunction
    refine ⟨ops, ?_, hfunction, hfunction.single⟩
    rw [h.output]
    exact hspell

/-- Where a job can stand. Once it is stuck or blocked it stays so. -/
inductive Job.Stands (job : Job) : Prop
  | fresh {r : IdRange} (room : r.next ≤ r.stop) (work : job.work = Emission.start r)
  | stuck (stage : job.work.stage = .constructed) (stuck : HeaderStuck job.task job.work)
  | headed {d : Dictionary} {g : Layout Instruction} {r : IdRange} {s : Emission}
      (room : r.next ≤ r.stop) (run : header job.task ⟨d, g, Emission.start r⟩ = (.ok (), s))
      (work : job.work = s.work)
  | blocked (stage : job.work.stage = .afterHeader) (stuck : BodyStuck job.task job.work)
  | complete (stage : job.work.stage = .afterBody)
      (whole : IsWholeFunction job.task.method job.work.output)
  | merged (stage : job.work.stage = .merged)

/-! ## One request -/

namespace Emission

variable {t : Task} {s s' : Emission} {result : Except Fault Unit}

/-- The call that a request makes, if it makes one. -/
def Request.call? : Request → Option Call
  | .header => some .header
  | .body => some .body
  | .constants => none
  | .merge => some .merge

theorem expect_refuses {call : Call} (h : s.work.stage ≠ call.stage) :
    expect call s = (.error (.outOfOrder call s.work.stage), s) := by
  simp [expect, bind_apply, h]

theorem perform_refuses {r : Request} {call : Call} (hr : r.call? = some call)
    (h : s.work.stage ≠ call.stage) :
    perform t r s = (.error (.outOfOrder call s.work.stage), s) := by
  have refused := expect_refuses h
  cases r <;> cases hr <;>
    simp only [perform, header, body, merge, bind_apply, refused]

theorem stage_of_perform {r : Request} {call : Call} (hr : r.call? = some call)
    (h : perform t r s = (.ok (), s')) : s.work.stage = call.stage := by
  by_contra hstage
  rw [perform_refuses hr hstage] at h
  cases h

theorem merge_apply (h : s.work.stage = .afterBody) :
    merge s = (.ok (), { s with
      target := s.target.merge s.work.output
      work := { s.work with output := .empty, stage := .merged } }) := by
  simp [merge, expect, bind_apply, h, Call.stage, Call.next]

end Emission

namespace Job

variable {job : Job} {d : Dictionary} {g : Layout Instruction} {s : Emission} {e : Fault}

theorem stage_of_header {r : IdRange} (h : header job.task ⟨d, g, Emission.start r⟩ = (.ok (), s)) :
    s.work.stage = .afterHeader := by
  obtain ⟨is, names, modes, headed⟩ := header_ok h
  exact headed.stage

theorem Stands.constructed (h : job.Stands) (hstage : job.work.stage = .constructed) :
    (∃ r : IdRange, r.next ≤ r.stop ∧ job.work = Emission.start r) ∨
      HeaderStuck job.task job.work := by
  cases h with
  | fresh room work => exact .inl ⟨_, room, work⟩
  | stuck _ stuck => exact .inr stuck
  | headed _ run work => simp [work, stage_of_header run] at hstage
  | blocked stage | complete stage | merged stage => simp [stage] at hstage

theorem Stands.afterHeader (h : job.Stands) (hstage : job.work.stage = .afterHeader) :
    (∃ d g r s, r.next ≤ r.stop ∧ header job.task ⟨d, g, Emission.start r⟩ = (.ok (), s) ∧
      job.work = s.work) ∨ BodyStuck job.task job.work := by
  cases h with
  | headed room run work => exact .inl ⟨_, _, _, _, room, run, work⟩
  | blocked _ stuck => exact .inr stuck
  | fresh _ work => simp [work, Emission.start] at hstage
  | stuck stage | complete stage | merged stage => simp [stage] at hstage

theorem Stands.afterBody (h : job.Stands) (hstage : job.work.stage = .afterBody) :
    IsWholeFunction job.task.method job.work.output := by
  cases h with
  | complete _ whole => exact whole
  | headed _ run work => simp [work, stage_of_header run] at hstage
  | fresh _ work => simp [work, Emission.start] at hstage
  | stuck stage | blocked stage | merged stage => simp [stage] at hstage

/-- A request of the job led from the dictionary `d` and the module `g` to `s`. -/
structure StandsAfter (job : Job) (d : Dictionary) (g : Layout Instruction) (s : Emission) : Prop where
  stands : Stands ⟨job.task, s.work⟩
  steps : d.Steps s.dictionary
  target : s.target = g

theorem Stands.header (h : job.Stands) (sound : d.Sound) (hstage : job.work.stage = .constructed)
    {result : Except Fault Unit}
    (run : Emission.header job.task ⟨d, g, job.work⟩ = (result, s)) : StandsAfter job d g s := by
  cases result with
  | ok =>
    rcases h.constructed hstage with ⟨r, room, work⟩ | stuck
    · obtain ⟨is, names, modes, headed⟩ := header_ok run
      rw [work] at run
      exact ⟨.headed room run rfl, headed.steps, headed.target⟩
    · exact absurd run (HeaderStuck.ne_ok stuck)
  | error e =>
    have keeps := failsWith_header _ _ _ _ run
    refine ⟨?_, keeps.steps, keeps.target⟩
    rcases header_error sound run with same | stuck
    · rw [same]
      exact h
    · exact .stuck (keeps.stage.trans hstage) stuck

theorem Stands.body (h : job.Stands) (hstage : job.work.stage = .afterHeader)
    {result : Except Fault Unit}
    (run : Emission.body job.task ⟨d, g, job.work⟩ = (result, s)) : StandsAfter job d g s := by
  cases result with
  | ok =>
    rcases h.afterHeader hstage with ⟨d₁, g₁, r, s₁, room, header, work⟩ | stuck
    · obtain ⟨is, names, modes, headed⟩ := header_ok header
      obtain ⟨cs, complete⟩ := body_ok (by rw [work]; exact headed.pending) run (.refl _)
      rw [work] at run
      obtain ⟨x, text⟩ := text_of room header run (.refl _)
      exact ⟨.complete complete.stage text.whole, complete.steps, complete.target⟩
    · exact absurd run (BodyStuck.ne_ok stuck)
  | error e =>
    have keeps := failsWith_body _ _ _ _ run
    exact ⟨.blocked (keeps.stage.trans hstage) (body_error hstage run), keeps.steps, keeps.target⟩

end Job

/-! ## What happens in a session -/

namespace Session

/-- What an event says about a request of `job`. -/
structure Event.InOrder (e : Event) (r : Emission.Request) (job : Job) : Prop where
  refused : ∀ call, r.call? = some call → job.work.stage ≠ call.stage →
    e.result = .error (.outOfOrder call job.work.stage) ∧ e.after = e.before
  constants : r = .constants → e.result = .ok () ∧ e.after = e.before
  kept : r ≠ .merge ∨ e.result ≠ .ok () → e.after.build.target = e.before.build.target
  merged : r = .merge → e.result = .ok () → IsWholeFunction job.task.method job.work.output ∧
    ∀ sec, e.after.build.target.get sec = e.before.build.target.get sec ++ job.work.output.get sec

structure Sound (s : Session) : Prop where
  dictionary : s.build.dictionary.Sound
  jobs : ∀ job ∈ s.jobs, job.Stands

variable {frame : Frame} {s s' : Session} {result : Except Fault Unit} {g : Nat} {job : Job}

theorem act_request {r : Emission.Request} (h : s.act frame (.request g r) = some (result, s')) :
    ∃ job e, s.jobs[g]? = some job ∧
      perform job.task r ⟨s.build.dictionary, s.build.target, job.work⟩ = (result, e) ∧
      s' = ⟨⟨e.dictionary, e.target⟩, s.jobs.set g ⟨job.task, e.work⟩⟩ := by
  obtain ⟨job, hjob, h⟩ := Option.map_eq_some_iff.mp h
  obtain ⟨rfl, rfl⟩ := Prod.mk.inj h
  exact ⟨job, _, hjob, rfl, rfl⟩

theorem set_same (hjob : s.jobs[g]? = some job) :
    (⟨⟨s.build.dictionary, s.build.target⟩, s.jobs.set g ⟨job.task, job.work⟩⟩ : Session) = s := by
  obtain ⟨hg, rfl⟩ := List.getElem?_eq_some_iff.mp hjob
  exact congrArg (Session.mk s.build) (List.set_getElem_self hg)

theorem Sound.set {e : Emission} (h : s.Sound) (steps : s.build.dictionary.Steps e.dictionary)
    (stands : Job.Stands ⟨job.task, e.work⟩) :
    Sound ⟨⟨e.dictionary, e.target⟩, s.jobs.set g ⟨job.task, e.work⟩⟩ where
  dictionary := steps.sound h.dictionary
  jobs job' hjob := by
    rcases List.mem_or_eq_of_mem_set hjob with hjob | rfl
    · exact h.jobs job' hjob
    · exact stands

theorem refused_inOrder {r : Emission.Request} {call : Call} (hcall : r.call? = some call) :
    Event.InOrder ⟨.request g r, s, .error (.outOfOrder call job.work.stage), s⟩ r job := by
  refine ⟨fun call' hcall' _ => ?_, fun hr => ?_, fun _ => rfl, fun _ => nofun⟩
  · obtain rfl : call = call' := Option.some.inj (hcall.symm.trans hcall')
    exact ⟨rfl, rfl⟩
  · rw [hr] at hcall
    cases hcall

/-- One request, at any time. -/
theorem request_inOrder {r : Emission.Request} (sound : s.Sound)
    (h : s.act frame (.request g r) = some (result, s')) :
    s'.Sound ∧ ∃ job, s.jobs[g]? = some job ∧
      Event.InOrder ⟨.request g r, s, result, s'⟩ r job := by
  obtain ⟨job, e, hjob, run, rfl⟩ := act_request h
  have stands := sound.jobs job (List.mem_of_getElem? hjob)
  by_cases refused : ∃ call, r.call? = some call ∧ job.work.stage ≠ call.stage
  · -- A call at the wrong stage changes nothing.
    obtain ⟨call, hcall, hstage⟩ := refused
    rw [perform_refuses hcall hstage] at run
    obtain ⟨rfl, rfl⟩ := Prod.mk.inj run
    rw [set_same hjob]
    exact ⟨sound, job, hjob, refused_inOrder hcall⟩
  have granted : ∀ call, r.call? = some call → job.work.stage = call.stage := by
    simpa using refused
  cases r with
  | header =>
    have leads := stands.header sound.dictionary (granted _ rfl) run
    exact ⟨sound.set leads.steps leads.stands, job, hjob,
      fun call hcall hstage => absurd (granted call hcall) hstage, nofun, fun _ => leads.target, nofun⟩
  | body =>
    have leads := stands.body (granted _ rfl) run
    exact ⟨sound.set leads.steps leads.stands, job, hjob,
      fun call hcall hstage => absurd (granted call hcall) hstage, nofun, fun _ => leads.target, nofun⟩
  | constants =>
    obtain ⟨rfl, rfl⟩ := Prod.mk.inj run
    rw [set_same hjob]
    exact ⟨sound, job, hjob, nofun, fun _ => ⟨rfl, rfl⟩, fun _ => rfl, nofun⟩
  | merge =>
    -- The body is complete, so one function joins the module.
    have whole := stands.afterBody (granted _ rfl)
    obtain ⟨rfl, rfl⟩ := Prod.mk.inj ((merge_apply (granted _ rfl)).symm.trans run)
    refine ⟨sound.set (.refl _) (.merged rfl), job, hjob,
      fun call hcall hstage => absurd (granted call hcall) hstage, nofun, ?_, fun _ _ => ?_⟩
    · rintro (h | h) <;> exact absurd rfl h
    · exact ⟨whole, fun sec => Layout.get_merge _ _ _⟩

theorem reserve_steps (d : Dictionary) (count : Nat) :
    d.Steps { d with supply := (Supply.reserve count d.supply).2 } := by
  unfold Supply.reserve
  split
  · rename_i room
    exact (Dictionary.Step.reserve count room).steps
  · exact .refl d

theorem start_steps (frame : Frame) (m : Method) (storage : Storage) (entry : Option EntryPoint)
    (d : Dictionary) :
    d.Steps { d with supply := (Task.start frame m storage entry d.supply).2 } := by
  simp only [Task.start, bind_apply]
  cases frame.functions.get m.id with
  | error e => exact .refl d
  | ok id =>
    have steps := reserve_steps d m.idBudget
    dsimp only [Attempt.ofExcept, pure_apply]
    rcases h : Supply.reserve m.idBudget d.supply with ⟨_ | _, supply⟩ <;> rwa [h] at steps

theorem act_start {m : Method} {storage : Storage} {entry : Option EntryPoint}
    (h : s.act frame (.start m storage entry) = some (result, s')) :
    s.build.dictionary.Steps s'.build.dictionary ∧
      ∃ new, s'.jobs = s.jobs ++ new ∧ ∀ job ∈ new, job.Stands := by
  have steps := start_steps frame m storage entry s.build.dictionary
  rw [Session.act] at h
  rcases hstart : Task.start frame m storage entry s.build.dictionary.supply
    with ⟨_ | ⟨task, work⟩, supply⟩ <;> rw [hstart] at h steps <;> cases h
  · exact ⟨steps, [], (List.append_nil _).symm, nofun⟩
  · obtain ⟨id, -, -, -, rfl, -⟩ := Task.start_ok_iff.mp hstart
    refine ⟨steps, _, rfl, fun job hjob => ?_⟩
    rw [List.mem_singleton.mp hjob]
    exact .fresh (Nat.le_add_right _ _) rfl

theorem act_sound {a : Action} (sound : s.Sound) (h : s.act frame a = some (result, s')) :
    s'.Sound := by
  cases a with
  | request g r => exact (request_inOrder sound h).1
  | declare r =>
    cases h
    exact ⟨(Dictionary.perform_steps r _).sound sound.dictionary, sound.jobs⟩
  | reserve count =>
    cases h
    exact ⟨(reserve_steps _ count).sound sound.dictionary, sound.jobs⟩
  | start m storage entry =>
    obtain ⟨steps, new, hjobs, fresh⟩ := act_start h
    refine ⟨steps.sound sound.dictionary, fun job hjob => ?_⟩
    rw [hjobs] at hjob
    rcases List.mem_append.mp hjob with hjob | hjob
    · exact sound.jobs job hjob
    · exact fresh job hjob

/-! ## Runs -/

theorem mem_events {P : Session → Prop} {as : List Action}
    (hP : ∀ a s result s', s.act frame a = some (result, s') → P s → P s') (h : P s) :
    ∀ e ∈ events frame as s, P e.before ∧
      e.before.act frame e.action = some (e.result, e.after) := by
  induction as generalizing s with
  | nil => simp [events]
  | cons a as ih =>
    unfold events
    split
    · rename_i result s' hact
      intro e he
      rcases List.mem_cons.mp he with rfl | he
      · exact ⟨h, hact⟩
      · exact ih (hP a s result s' hact h) e he
    · exact ih h

theorem pairwise_events {as : List Action} {Q : Event → Event → Prop}
    (h : ∀ a s result s', s.act frame a = some (result, s') → ∀ as, ∀ e ∈ events frame as s',
      Q ⟨a, s, result, s'⟩ e) : (events frame as s).Pairwise Q := by
  induction as generalizing s with
  | nil => exact .nil
  | cons a as ih =>
    unfold events
    split
    · rename_i result s' hact
      exact .cons (h a s result s' hact as) ih
    · exact ih

/-! ### What stays as it is -/

/-- Whatever is asked of a job, it keeps the property `P`. -/
def KeptByRequests (P : Job → Prop) : Prop := ∀ job d target r, P job →
  P ⟨job.task, (perform job.task r ⟨d, target, job.work⟩).2.work⟩

theorem keptByRequests_merged : KeptByRequests fun job => job.work.stage = .merged := by
  intro job d target r h
  cases hcall : r.call? with
  | none =>
    cases r <;> first | exact h | cases hcall
  | some call =>
    rw [perform_refuses hcall]
    · exact h
    · rw [h]
      cases call <;> nofun

def Blocked (job : Job) : Prop := job.work.stage = .afterHeader ∧ BodyStuck job.task job.work

theorem keptByRequests_blocked : KeptByRequests Blocked := by
  rintro job d target r ⟨hstage, stuck⟩
  cases r with
  | header | merge =>
    rw [perform_refuses rfl]
    · exact ⟨hstage, stuck⟩
    · rw [hstage]
      nofun
  | constants => exact ⟨hstage, stuck⟩
  | body =>
    rcases h : body job.task ⟨d, target, job.work⟩ with ⟨_ | _, s⟩
    · have keeps := failsWith_body _ _ _ _ h
      rw [perform, h]
      exact ⟨keeps.stage.trans hstage, stuck.mono keeps.table⟩
    · exact absurd h (BodyStuck.ne_ok stuck)

theorem KeptByRequests.act {P : Job → Prop} (hP : KeptByRequests P) (a : Action) (s : Session)
    (result : Except Fault Unit) (s' : Session) (hact : s.act frame a = some (result, s'))
    (h : ∃ job, s.jobs[g]? = some job ∧ P job) : ∃ job, s'.jobs[g]? = some job ∧ P job := by
  obtain ⟨job, hjob, h⟩ := h
  cases a with
  | declare | reserve =>
    cases hact
    exact ⟨job, hjob, h⟩
  | start m storage entry =>
    obtain ⟨-, new, hjobs, -⟩ := act_start hact
    refine ⟨job, ?_, h⟩
    rw [hjobs, ← hjob]
    exact List.getElem?_append_left (List.getElem?_eq_some_iff.mp hjob).1
  | request g' r =>
    obtain ⟨job', e, hjob', run, rfl⟩ := act_request hact
    simp only [List.getElem?_set]
    by_cases hg : g' = g
    · subst hg
      obtain rfl : job = job' := Option.some.inj (hjob.symm.trans hjob')
      have := hP job s.build.dictionary s.build.target r h
      rw [run] at this
      exact ⟨_, by simp [(List.getElem?_eq_some_iff.mp hjob).1], this⟩
    · exact ⟨job, by rw [if_neg hg, hjob], h⟩

def Event.Succeeds (e : Event) (g : Nat) (r : Emission.Request) : Prop :=
  e.action = .request g r ∧ e.result = .ok ()

/-- The body was asked for in order and failed. -/
def Event.BodyFails (e : Event) (g : Nat) : Prop :=
  e.action = .request g .body ∧ e.result ≠ .ok () ∧
    ∃ job, e.before.jobs[g]? = some job ∧ job.work.stage = .afterHeader

theorem Event.Succeeds.run {e : Event} {r : Emission.Request} (h : e.Succeeds g r)
    (hact : e.before.act frame e.action = some (e.result, e.after))
    (hjob : e.before.jobs[g]? = some job) :
    ∃ s, perform job.task r ⟨e.before.build.dictionary, e.before.build.target, job.work⟩ =
      (.ok (), s) := by
  rw [h.1, h.2] at hact
  obtain ⟨job', s, hjob', run, -⟩ := act_request hact
  obtain rfl : job = job' := Option.some.inj (hjob.symm.trans hjob')
  exact ⟨s, run⟩

theorem merge_once (g : Nat) (as : List Action) (s : Session) :
    (events frame as s).Pairwise fun e e' => e.Succeeds g .merge → ¬ e'.Succeeds g .merge := by
  refine pairwise_events fun a s result s' hact as e he first second => ?_
  obtain ⟨rfl, rfl⟩ : a = .request g .merge ∧ result = .ok () := first
  obtain ⟨job, e₁, hjob, run, rfl⟩ := act_request hact
  have stage := stage_of_perform rfl run
  rw [perform, merge_apply stage] at run
  cases run
  obtain ⟨⟨job', hjob', merged⟩, hact'⟩ := mem_events keptByRequests_merged.act
    ⟨_, List.getElem?_set_self (List.getElem?_eq_some_iff.mp hjob).1, rfl⟩ e he
  obtain ⟨s, run⟩ := second.run hact' hjob'
  have stage := stage_of_perform rfl run
  rw [merged] at stage
  cases stage

theorem body_final (g : Nat) (as : List Action) (s : Session) :
    (events frame as s).Pairwise fun e e' => e.BodyFails g →
      ¬ e'.Succeeds g .body ∧ ¬ e'.Succeeds g .merge := by
  refine pairwise_events fun a s result s' hact as e he first => ?_
  obtain ⟨rfl, failed, job, hjob, stage⟩ := first
  obtain ⟨job', e₁, hjob', run, rfl⟩ := act_request hact
  obtain rfl : job = job' := Option.some.inj (hjob.symm.trans hjob')
  cases result with
  | ok => exact absurd rfl failed
  | error f =>
    have keeps := failsWith_body _ _ _ _ run
    obtain ⟨⟨job', hjob', stage', stuck⟩, hact'⟩ := mem_events keptByRequests_blocked.act
      ⟨_, List.getElem?_set_self (List.getElem?_eq_some_iff.mp hjob).1, keeps.stage.trans stage,
        body_error stage run⟩ e he
    refine ⟨fun second => ?_, fun second => ?_⟩ <;> obtain ⟨s, run⟩ := second.run hact' hjob'
    · exact BodyStuck.ne_ok stuck run
    · have late := stage_of_perform rfl run
      rw [stage'] at late
      cases late

/-- Jobs keep to the order of their requests and join the module at most once. -/
theorem session_in_order (frame : Frame) (supply : Supply) (target : Layout Instruction)
    (as : List Action) (g : Nat) :
    let es := events frame as ⟨⟨.new supply, target⟩, []⟩
    (∀ e ∈ es, ∀ r, e.action = .request g r →
      ∃ job, e.before.jobs[g]? = some job ∧ e.InOrder r job) ∧
    (es.Pairwise fun e e' => e.Succeeds g .merge → ¬ e'.Succeeds g .merge) ∧
    (es.Pairwise fun e e' => e.BodyFails g → ¬ e'.Succeeds g .body ∧ ¬ e'.Succeeds g .merge) := by
  intro es
  refine ⟨fun e he r hr => ?_, merge_once g as _, body_final g as _⟩
  have start : Sound ⟨⟨.new supply, target⟩, []⟩ := ⟨Dictionary.sound_new supply, by simp⟩
  obtain ⟨sound, hact⟩ := mem_events (fun _ _ _ _ hact sound => act_sound sound hact) start e he
  obtain ⟨action, before, result, after⟩ := e
  obtain rfl : action = .request g r := hr
  exact (request_inOrder sound hact).2

/-- A function with a parameter and one that has no code, under way at the same time. -/
def relay : List Action :=
  [.start ⟨⟨0⟩, "last", [⟨⟨0⟩, .i32⟩], .void, [⟨⟨0⟩, [], .ret none⟩]⟩ {} none,
    .start ⟨⟨0⟩, "none", [], .void, []⟩ {} none, .request 0 .merge, .request 0 .header,
    .request 1 .header, .request 1 .body, .declare (.type .bool), .request 0 .body, .request 0 .merge,
    .request 1 .merge, .request 0 .merge]

def relayFrame : Frame := ⟨⟨[(⟨0⟩, ⟨2⟩)]⟩, ⟨1⟩, true⟩

theorem relay_in_order :
    let es := events relayFrame relay ⟨⟨.new ⟨3⟩, .empty⟩, []⟩
    es.map (·.result) = [.ok (), .ok (), .error (.outOfOrder .merge .constructed), .ok (), .ok (),
      .error (.emptyMethod "none"), .ok (), .ok (), .ok (),
      .error (.outOfOrder .merge .afterHeader), .error (.outOfOrder .merge .merged)] ∧
    (∀ e ∈ es, ∀ r, e.action = .request 0 r →
      ∃ job, e.before.jobs[0]? = some job ∧ e.InOrder r job) ∧
    (es.Pairwise fun e e' => e.Succeeds 0 .merge → ¬ e'.Succeeds 0 .merge) ∧
    (es.Pairwise fun e e' => e.BodyFails 0 → ¬ e'.Succeeds 0 .body ∧ ¬ e'.Succeeds 0 .merge) :=
  ⟨by decide +kernel, session_in_order relayFrame ⟨3⟩ .empty relay 0⟩

end Session

end SpirvKernel
