import SpirvKernel.Proofs.Dictionary.Exhaustion
import SpirvKernel.Proofs.Module.Requests

/-!
# What headers declare for bodies

Headers ask for the types and constants of the values in the bodies. So most bodies, whether they
succeed or fail, find all that they ask for declared, and leave the dictionary as it is. A header may
find no identifier for what it asks; then a body finds none either.
-/

namespace SpirvKernel

open Attempt Emission

/-! ## Values -/

/-- Whether one is the class of truth values and the other a class of numbers. -/
def ScalarClass.crosses : ScalarClass → ScalarClass → Bool
  | .bool, .int _ | .bool, .float _ | .int _, .bool | .float _, .bool => true
  | _, _ => false

/-- Whether the value asks for no more than the header does for it, or for the type of nothing. -/
def Value.isForeseen (m : Method) (v : Value) : Bool :=
  match v.kind with
  | .alloca .. | .gridIndex .. | .barrier | .fieldAddress .. | .inlineAssembly .. => false
  | .constant _ => v.type ≠ .void
  | .convert source _ =>
    !(m.typeOf? source).any fun type => type.scalarClass.crosses v.type.scalarClass
  | _ => true

def Method.isForeseen (m : Method) : Bool := m.values.all (·.isForeseen m)

/-- What the header asks for on behalf of the value. -/
def Value.foretold? (v : Value) : Option Dictionary.Request :=
  match v.kind with
  | .inlineAssembly .. => none
  | kind =>
    if v.type = .void then none
    else match kind with
      | .constant c => some (.constant c)
      | _ => some (.type v.type)

theorem Value.keyed_foretold? {v : Value} {r : Dictionary.Request} (told : v.foretold? = some r) :
    r.key?.isSome := by
  unfold Value.foretold? at told
  split at told
  · cases told
  · split at told
    · cases told
    · split at told <;> cases told <;> rfl

theorem Conversion.direct_of_between {source target : Ty} {flags : ConvertFlags} {c : Conversion}
    (h : between source target flags = .ok c)
    (same : source.scalarClass.crosses target.scalarClass = false) : ∃ op, c = .direct op := by
  unfold between at h
  split at h
  · rename_i hc
    cases h
    unfold between? at hc
    split at hc
    · exact ⟨_, (Option.some.inj hc).symm⟩
    · split at hc
      case h_5 hs ht | h_6 hs ht | h_7 hs ht | h_8 hs ht => rw [hs, ht] at same; cases same
      case h_9 =>
        simp only [Option.bind_eq_bind, Option.bind_eq_some_iff] at hc
        obtain ⟨_, -, _, -, op, -, hop⟩ := hc
        exact ⟨op, (Option.some.inj hop).symm⟩
      case h_12 => cases hc
      all_goals exact ⟨_, (Option.some.inj hc).symm⟩
  · cases h

theorem conversionRequests_foreseen {m : Method} {v : Value} {source : ValueId} {flags : ConvertFlags}
    (h : ∀ type, m.typeOf? source = some type → type.scalarClass.crosses v.type.scalarClass = false)
    {r : Dictionary.Request} (hr : r ∈ conversionRequests m v source flags) : r = .type v.type := by
  unfold conversionRequests at hr
  split at hr
  · cases hr
  · rename_i type htype
    split at hr
    · rename_i hc
      obtain ⟨op, ⟨⟩⟩ := Conversion.direct_of_between hc (h type htype)
    · rename_i hc
      obtain ⟨op, ⟨⟩⟩ := Conversion.direct_of_between hc (h type htype)
    · exact List.mem_singleton.mp hr

theorem valueRequests_foreseen {m : Method} {v : Value} (h : v.isForeseen m = true)
    {r : Dictionary.Request} (hr : r ∈ valueRequests m v) :
    r = .type .void ∨ v.foretold? = some r := by
  have type (asked : r = .type v.type) (told : v.type ≠ .void → v.foretold? = some (.type v.type)) :
      r = .type .void ∨ v.foretold? = some r := by
    rw [asked]
    by_cases nothing : v.type = .void
    · exact .inl (by rw [nothing])
    · exact .inr (told nothing)
  cases hkind : v.kind with
  | alloca | gridIndex | barrier | fieldAddress | inlineAssembly =>
    simp [Value.isForeseen, hkind] at h
  | constant c =>
    have something : v.type ≠ .void := by simpa [Value.isForeseen, hkind] using h
    have asked : r = .constant c := by simpa [valueRequests, hkind] using hr
    exact .inr (by simp [Value.foretold?, hkind, something, asked])
  | convert source flags =>
    have direct : ∀ type, m.typeOf? source = some type →
        type.scalarClass.crosses v.type.scalarClass = false := by
      intro type htype
      simpa [Value.isForeseen, hkind, htype] using h
    rw [valueRequests, hkind] at hr
    exact type (conversionRequests_foreseen direct hr) fun nothing => by
      simp [Value.foretold?, hkind, nothing]
  | store => simp [valueRequests, hkind] at hr
  | _ =>
    exact type (by simpa [valueRequests, hkind] using hr) fun nothing => by
      simp [Value.foretold?, hkind, nothing]

/-! ## Headers -/

namespace Dictionary

variable {d d₁ : Dictionary}

theorem predeclareValue_eq (v : Value) : predeclareValue v =
    match v.foretold? with
    | some r => tolerate Fault.isRecoverable (perform r)
    | none => pure () := by
  unfold predeclareValue Value.foretold?
  cases v.kind with
  | inlineAssembly => rfl
  | _ => by_cases nothing : v.type = .void <;> simp only [nothing] <;> rfl

theorem alreadyMade_of_predeclare {vs : List Value} (h : vs.forM predeclareValue d = (.ok (), d₁)) :
    ∀ v ∈ vs, ∀ r, v.foretold? = some r → d₁.AlreadyMade r := by
  induction vs generalizing d with
  | nil => exact nofun
  | cons v vs ih =>
    obtain ⟨d₂, hv, hvs⟩ := forM_cons_ok_iff.mp h
    have steps : Steps d₂ d₁ := (respects_forM Steps.refl (fun _ _ _ => Steps.trans)
      (predeclareValue_respects kept_steps) vs).of_ok hvs
    refine List.forall_mem_cons.mpr ⟨fun r told => ?_, ih hvs⟩
    rw [predeclareValue_eq, told] at hv
    obtain ⟨x, hx, recoverable⟩ := tolerate_ok hv
    exact (alreadyMade_of_perform (v.keyed_foretold? told) hx recoverable).steps steps

end Dictionary

/-- What headers ask for on behalf of the values of the task has been asked for. -/
structure Task.Foretold (d : Dictionary) (t : Task) : Prop where
  storage : t.storage = .ofMethod t.method
  values : ∀ v ∈ t.method.values, ∀ r, v.foretold? = some r → d.AlreadyMade r

theorem Task.Foretold.steps {d d₁ : Dictionary} {t : Task} (h : t.Foretold d) (steps : d.Steps d₁) :
    t.Foretold d₁ := ⟨h.storage, fun v hv r told => (h.values v hv r told).steps steps⟩

namespace Emission

variable {t : Task} {s s' : Emission}

theorem header_foretells (storage : t.storage = .ofMethod t.method) (h : header t s = (.ok (), s')) :
    t.Foretold s'.dictionary ∧ (t.entry.isSome → s'.dictionary.AlreadyMade (.type .void)) := by
  simp only [header, bind_eq_ok_iff] at h
  obtain ⟨_, _, h₁, _, s₀, h₂, _, s₁, h₃, signature, s₂, h₄, _, s₃, h₅, _, s₄, hf, _, s₅, hparams, _, s₆,
    hname, _, s₇, hstage, hsize⟩ := h
  obtain ⟨d, hd, rfl⟩ := onPart_ok_iff.mp h₅
  have rest : d.Steps s'.dictionary := by
    obtain ⟨-, rfl⟩ := emit_ok_iff.mp hf
    have params := ((keeping_emitParams t.method.params).of_ok hparams).steps
    obtain ⟨-, rfl⟩ := emitName_ok hname
    obtain rfl := setStage_ok hstage
    obtain ⟨modes, -, rfl⟩ := emitGroupSize_ok hsize
    exact params
  refine ⟨⟨storage, fun v hv r told => ?_⟩, fun kernel => ?_⟩
  · exact (Dictionary.alreadyMade_of_predeclare hd v hv r told).steps rest
  · have void : t.method.returnType = .void := by
      simp only [checkResult, ite_ok_iff, fail_ok_iff, and_false, false_or] at h₂
      simpa [kernel] using h₂.1
    obtain ⟨type, -, declared⟩ := typeWord_ok h₃
    have known : s₁.dictionary.Knows (.type .void) := by
      rw [void] at declared
      exact Option.isSome_iff_exists.mpr ⟨type, declared.known⟩
    have signed := (declare_ok (Dictionary.signatureId_declares _ _) h₄).steps
    have predeclared := (predeclare_respects Dictionary.kept_steps _).of_ok hd
    exact ⟨.type .void, rfl, .inl (((signed.trans predeclared).trans rest).knows known)⟩

/-! ## Bodies -/

theorem made_emitStorage_of_isForeseen {D : (α : Type) → Declare α → Prop}
    (storage : t.storage = .ofMethod t.method) (foreseen : t.method.isForeseen = true) :
    Made D (emitStorage t) := by
  have none (kind : StorageKind) : Storage.requested t.method kind = [] := by
    refine List.filterMap_eq_nil_iff.mpr fun v hv => ?_
    have own := List.all_eq_true.mp foreseen v hv
    unfold Value.isForeseen at own
    unfold Storage.request?
    split at own <;> simp_all
  have empty : t.storage = {} := by rw [storage, Storage.ofMethod, none, none, none]
  unfold emitStorage
  rw [empty]
  exact .pure ()

/-- A body whose values are foreseen asks for nothing new. -/
theorem body_unchanged (told : t.Foretold s.dictionary) (nothing : s.dictionary.AlreadyMade (.type .void))
    (foreseen : t.method.isForeseen = true) : (body t s).2.dictionary = s.dictionary := by
  have storage := made_emitStorage_of_isForeseen
    (D := fun _ x => Respects (fun d d₁ => d = s.dictionary → d₁ = d) x) told.storage foreseen
  refine body_onDictionary (fun _ _ => rfl) (fun d d₁ d₂ h h₁ hd => ?_) storage ?_ s rfl
  · have first := h hd
    exact (h₁ (first.trans hd)).trans first
  · intro v hv r hr d hd
    subst hd
    rcases valueRequests_foreseen (List.all_eq_true.mp foreseen v hv) hr with rfl | asked
    · exact nothing.perform
    · exact (told.values v hv r asked).perform

theorem body_steps (t : Task) (s : Emission) : s.dictionary.Steps (body t s).2.dictionary :=
  body_onDictionary Dictionary.Steps.refl (fun _ _ _ => Dictionary.Steps.trans)
    (made_emitStorage Dictionary.perform_steps t) (fun _ _ r _ => Dictionary.perform_steps r) s

end Emission

/-! ## The whole program -/

namespace Build

variable {frame : Frame} {entry : EntryPoint} {b b' : Build}

/-- After bodies were attempted one after the other, of which some may have failed. -/
def attempt (jobs : List Job) (b : Build) : Build := jobs.foldl (fun b job => (body job b).2) b

theorem attempt_steps (jobs : List Job) (b : Build) :
    b.dictionary.Steps (attempt jobs b).dictionary := by
  induction jobs generalizing b with
  | nil => exact .refl _
  | cons job jobs ih => exact (Emission.body_steps job.task _).trans (ih (body job b).2)

theorem headers_foretell {ms : List Method} {jobs : List Job}
    (run : ms.mapM (header frame entry) b = (.ok jobs, b')) :
    (∀ job ∈ jobs, job.task.Foretold b'.dictionary) ∧
      ((∃ m ∈ ms, m.id = entry.method) → b'.dictionary.AlreadyMade (.type .void)) := by
  induction ms generalizing b jobs with
  | nil =>
    obtain ⟨rfl, -⟩ := mapM_nil_ok_iff.mp run
    exact ⟨nofun, nofun⟩
  | cons m ms ih =>
    obtain ⟨job, jobs, b₁, hm, hms, rfl⟩ := mapM_cons_ok_iff.mp run
    obtain ⟨told, nothing⟩ := ih hms
    obtain ⟨id, s, -, -, task, hs, -, rfl⟩ := header_ok_iff.mp hm
    have rest : s.dictionary.Steps b'.dictionary :=
      headers_keep Dictionary.kept_steps (fun d n room => (Dictionary.Step.reserve n room).steps) hms
    obtain ⟨first, kernel⟩ := header_foretells (by rw [task]) hs
    refine ⟨List.forall_mem_cons.mpr ⟨first.steps rest, told⟩, ?_⟩
    rintro ⟨n, hn, hentry⟩
    rcases List.mem_cons.mp hn with rfl | hn
    · exact (kernel (by simp [task, hentry])).steps rest
    · exact nothing ⟨n, hn, hentry⟩

end Build

/-- Once all headers are written, a body whose values are foreseen declares nothing. -/
theorem body_leaves_dictionary {p : Program} {entry : EntryPoint} {frame : Frame} {b₀ b : Build}
    {jobs : List Job} (present : (p.method? entry.method).isSome)
    (headers : p.methods.mapM (Build.header frame entry) b₀ = (.ok jobs, b)) (earlier : List Job)
    {job : Job} (hjob : job ∈ jobs) (foreseen : job.task.method.isForeseen = true) (work : Work) :
    (Build.body ⟨job.task, work⟩ (Build.attempt earlier b)).2.dictionary =
      (Build.attempt earlier b).dictionary := by
  obtain ⟨told, nothing⟩ := Build.headers_foretell headers
  have steps := Build.attempt_steps earlier b
  refine Emission.body_unchanged ((told job hjob).steps steps) ?_ foreseen
  obtain ⟨m, hm⟩ := Option.isSome_iff_exists.mp present
  refine (nothing ⟨m, List.mem_of_find?_eq_some hm, ?_⟩).steps steps
  simpa using List.find?_some hm

/-- A kernel that calls a method whose body fails, and one with memory, which is not foreseen. -/
def relay : Program where
  methods := [
    { id := ⟨0⟩, name := "relay", params := [], returnType := .void
      blocks := [
        { id := ⟨0⟩
          body := [⟨⟨0⟩, .i32, .constant (.ofWord 5)⟩, ⟨⟨1⟩, .void, .call (.method ⟨1⟩) [⟨0⟩] .none⟩]
          terminator := .ret none }] },
    { id := ⟨1⟩, name := "leaf", params := [⟨⟨0⟩, .i32⟩], returnType := .void
      blocks := [
        { id := ⟨0⟩
          body := [⟨⟨1⟩, .float .f32, .convert ⟨0⟩ ⟨0⟩⟩, ⟨⟨2⟩, .void, .call (.method ⟨2⟩) [] .none⟩,
            ⟨⟨3⟩, .i64, .unary .neg ⟨9⟩⟩]
          terminator := .ret none }] },
    { id := ⟨2⟩, name := "stash", params := [], returnType := .void
      blocks := [
        { id := ⟨0⟩
          body := [⟨⟨0⟩, .pointer .i32 .shared, .alloca .i32 .dynamic⟩]
          terminator := .ret none }] }]

def relayEntry : EntryPoint := { method := ⟨0⟩, name := "relay", rank := .one, groupSize := none }

def relayFrame : Frame := ⟨⟨[(⟨2⟩, ⟨4⟩), (⟨1⟩, ⟨3⟩), (⟨0⟩, ⟨2⟩)]⟩, ⟨1⟩, true⟩

theorem relay_leaves_dictionary : (relay.method? relayEntry.method).isSome ∧
    Frame.ofProgram relay true Supply.new = (.ok relayFrame, ⟨5⟩) ∧
    ∃ jobs b job, relay.methods.mapM (Build.header relayFrame relayEntry) (.new relayFrame ⟨5⟩) =
        (.ok jobs, b) ∧ job ∈ jobs ∧ job.task.method.isForeseen = true ∧
      (Build.body job (Build.attempt jobs b)).1.isOk = false ∧
      b.dictionary.supply.next < (Build.attempt jobs b).dictionary.supply.next ∧
      (Build.body job (Build.attempt jobs b)).2.dictionary = (Build.attempt jobs b).dictionary := by
  have present : (relay.method? relayEntry.method).isSome := rfl
  obtain ⟨jobs, b, headers, h⟩ := exists_run_of_any (s := .new relayFrame ⟨5⟩)
    (x := relay.methods.mapM (Build.header relayFrame relayEntry)) (f := fun jobs b =>
      jobs[1]?.any fun job => job.task.method.isForeseen &&
        (Build.body job (Build.attempt jobs b)).1.isOk = false &&
        b.dictionary.supply.next < (Build.attempt jobs b).dictionary.supply.next)
    (by decide +kernel)
  obtain ⟨job, hjob, h⟩ := (Option.any_eq_true _ _).mp h
  simp only [Bool.and_eq_true, decide_eq_true_eq] at h
  obtain ⟨⟨foreseen, failed⟩, more⟩ := h
  have mem := List.mem_of_getElem? hjob
  exact ⟨present, rfl, jobs, b, job, headers, mem, foreseen, failed, more,
    body_leaves_dictionary present headers jobs mem foreseen job.work⟩

end SpirvKernel
