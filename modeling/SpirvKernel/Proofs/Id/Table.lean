import SpirvKernel.Id.Table

/-!
# Runs on a table

Whatever is asked of a table in whatever order, it holds what its log says: an entity has the name that
it was first given, as many entities have names as were named with success, and what was drawn from the
range ascends.
-/

namespace SpirvKernel.IdTable

/-- The answers to requests made one after the other, and the table in the end. -/
def performAll : List Request → IdTable → List (Request × Except Fault (Option Id)) × IdTable
  | [], t => ([], t)
  | r :: rs, t =>
    let (answer, t₁) := perform r t
    let (answers, t₂) := performAll rs t₁
    ((r, answer) :: answers, t₂)

/-- The entity that a request is about. -/
def Request.entity? : Request → Option Entity
  | .allocate e | .bind e _ | .load e | .get e => some e
  | .fresh => none

/-- Whether an entity got a name. -/
def isNaming : Request × Except Fault (Option Id) → Bool
  | (.allocate _, .ok _) | (.bind _ _, .ok _) => true
  | _ => false

/-- The entity that got a name, and the name. -/
def named? : Request × Except Fault (Option Id) → Option (Entity × Id)
  | (.allocate e, .ok (some id)) => some (e, id)
  | (.bind e id, .ok _) => some (e, id)
  | _ => none

/-- The identifier that was taken from the range. -/
def drawn? : Request × Except Fault (Option Id) → Option Id
  | (.allocate _, .ok (some id)) | (.fresh, .ok (some id)) => some id
  | _ => none

variable {t t' : IdTable} {r : Request} {answer : Except Fault (Option Id)}
  {log : List (Request × Except Fault (Option Id))} {range : IdRange}

/-! ## Single requests -/

theorem perform_fresh (t : IdTable) :
    perform .fresh t = if t.range.next < t.range.stop then
        (.ok (some ⟨t.range.next⟩), { t with range := { t.range with next := t.range.next + 1 } })
      else (.error .rangeExhausted, t) := by
  simp only [perform, fresh, IdRange.take, Attempt.map_apply, Attempt.onPart_apply]
  split <;> rfl

theorem perform_bind (e : Entity) (id : Id) (t : IdTable) :
    perform (.bind e id) t = if (t.get? e).isSome then (.error (.alreadyAllocated e), t)
      else (.ok none, { t with entries := (e, id) :: t.entries }) := by
  simp only [perform, bind, Attempt.map_apply]
  split <;> rfl

theorem perform_allocate (e : Entity) (t : IdTable) :
    perform (.allocate e) t = if (t.get? e).isSome then (.error (.alreadyAllocated e), t)
      else if t.range.next < t.range.stop then
        (.ok (some ⟨t.range.next⟩),
          ⟨{ t.range with next := t.range.next + 1 }, (e, ⟨t.range.next⟩) :: t.entries⟩)
      else (.error .rangeExhausted, t) := by
  by_cases taken : (t.get? e).isSome
  · simp [perform, allocate, Attempt.bind_apply, taken, Except.map]
  · by_cases left : t.range.next < t.range.stop
    · -- Taking the identifier does not touch the names, so the second check passes as the first did.
      have free : ¬ (get? { t with range := { t.range with next := t.range.next + 1 } } e).isSome := taken
      simp [perform, allocate, fresh, bind, IdRange.take, Attempt.bind_apply, taken, left, free, Except.map]
    · simp [perform, allocate, fresh, IdRange.take, Attempt.bind_apply, taken, left, Except.map]

theorem perform_load (e : Entity) (t : IdTable) :
    perform (.load e) t = (match t.get? e with
      | some id => .ok (some id)
      | none => .error (.unallocated e), t) := by
  cases h : t.get? e <;>
    simp [perform, load, Attempt.bind_apply, Attempt.require, h, Except.map]

theorem perform_get (e : Entity) (t : IdTable) : perform (.get e) t = (.ok (t.get? e), t) := rfl

/-- What a request may do to a table, besides answering. -/
inductive Step (t : IdTable) : Request → Except Fault (Option Id) → IdTable → Prop
  | idle (r : Request) (answer : Except Fault (Option Id)) (names : isNaming (r, answer) = false)
      (draws : drawn? (r, answer) = none) : Step t r answer t
  | draw (left : t.range.next < t.range.stop) :
      Step t .fresh (.ok (some ⟨t.range.next⟩))
        { t with range := { t.range with next := t.range.next + 1 } }
  | allocate (e : Entity) (free : t.get? e = none) (left : t.range.next < t.range.stop) :
      Step t (.allocate e) (.ok (some ⟨t.range.next⟩))
        ⟨{ t.range with next := t.range.next + 1 }, (e, ⟨t.range.next⟩) :: t.entries⟩
  | bind (e : Entity) (id : Id) (free : t.get? e = none) :
      Step t (.bind e id) (.ok none) { t with entries := (e, id) :: t.entries }

theorem perform_step (r : Request) (t : IdTable) : Step t r (perform r t).1 (perform r t).2 := by
  cases r with
  | allocate e =>
    rw [perform_allocate]
    split
    · exact .idle _ _ rfl rfl
    · rename_i free
      split
      · rename_i left
        exact .allocate e (by simpa using free) left
      · exact .idle _ _ rfl rfl
  | bind e id =>
    rw [perform_bind]
    split
    · exact .idle _ _ rfl rfl
    · rename_i free
      exact .bind e id (by simpa using free)
  | load e =>
    rw [perform_load]
    exact .idle _ _ rfl rfl
  | get e => exact .idle _ _ rfl rfl
  | fresh =>
    rw [perform_fresh]
    split
    · rename_i left
      exact .draw left
    · exact .idle _ _ rfl rfl

theorem Step.eq_of_error {fault : Fault} (h : Step t r (.error fault) t') : t' = t := by
  cases h with
  | idle => rfl

theorem Step.get?_of_ne (h : Step t r answer t') {e : Entity} (hr : r.entity? ≠ some e) :
    t'.get? e = t.get? e := by
  have other {e' : Entity} (id : Id) (he : some e' ≠ some e) :
      List.lookup e ((e', id) :: t.entries) = t.entries.lookup e := by
    rw [List.lookup_cons, beq_eq_false_iff_ne.mpr fun heq => he (congrArg some heq.symm)]
  cases h with
  | idle | draw => rfl
  | allocate e' => exact other _ hr
  | bind e' id => exact other id hr

/-! ## The log -/

/-- Who got a name, in order. -/
def named (log : List (Request × Except Fault (Option Id))) : List (Entity × Id) :=
  log.filterMap named?

/-- What was taken from the range, in order. -/
def drawn (log : List (Request × Except Fault (Option Id))) : List Id := log.filterMap drawn?

/-- The table holds what the log says that was done since it was opened on the range. -/
structure Records (range : IdRange) (log : List (Request × Except Fault (Option Id))) (t : IdTable) :
    Prop where
  names : ∀ e, t.get? e = (named log).lookup e
  size : t.size = log.countP isNaming
  drawn : (drawn log).map (·.number) = List.range' range.next (t.range.next - range.next)
  starts : range.next ≤ t.range.next

theorem records_new (range : IdRange) : Records range [] (new range) where
  names _ := rfl
  size := rfl
  drawn := by simp [new, IdTable.drawn]
  starts := Nat.le_refl _

theorem named?_of_not_isNaming {x : Request × Except Fault (Option Id)} (h : isNaming x = false) :
    named? x = none := by
  unfold named?
  split
  · cases h
  · cases h
  · rfl

theorem Records.idle (h : Records range log t) {x : Request × Except Fault (Option Id)}
    (names : isNaming x = false) (draws : drawn? x = none) : Records range (log ++ [x]) t where
  names e := by simpa [named, named?_of_not_isNaming names] using h.names e
  size := by simpa [names] using h.size
  drawn := by simpa [IdTable.drawn, draws] using h.drawn
  starts := h.starts

theorem Records.names_concat (h : Records range log t) {e : Entity} (free : t.get? e = none) (id : Id)
    (e' : Entity) : List.lookup e' ((e, id) :: t.entries) = (named log ++ [(e, id)]).lookup e' := by
  rw [List.lookup_append, ← h.names, List.lookup_cons, List.lookup_cons, List.lookup_nil]
  by_cases he : e' = e
  · subst he
    simp [free]
  · simp [beq_eq_false_iff_ne.mpr he, get?]

theorem Records.drawn_concat (h : Records range log t) :
    (IdTable.drawn log ++ [Id.mk t.range.next]).map (·.number) =
      List.range' range.next (t.range.next + 1 - range.next) := by
  have starts := h.starts
  rw [List.map_append, h.drawn, Nat.succ_sub starts, List.range'_1_concat,
    Nat.add_sub_cancel' starts]
  rfl

theorem Step.records (step : Step t r answer t') (h : Records range log t) :
    Records range (log ++ [(r, answer)]) t' := by
  cases step with
  | idle r answer names draws => exact h.idle names draws
  | draw left =>
    refine ⟨fun e => ?_, ?_, ?_, Nat.le_succ_of_le h.starts⟩
    · rw [named, List.filterMap_append]
      exact (h.names e).trans (congrArg (List.lookup e) (List.append_nil _)).symm
    · rw [List.countP_append]
      exact h.size
    · rw [IdTable.drawn, List.filterMap_append]
      exact h.drawn_concat
  | allocate e free left =>
    refine ⟨fun e' => ?_, ?_, ?_, Nat.le_succ_of_le h.starts⟩
    · rw [named, List.filterMap_append]
      exact h.names_concat free ⟨t.range.next⟩ e'
    · rw [List.countP_append]
      exact congrArg (· + 1) h.size
    · rw [IdTable.drawn, List.filterMap_append]
      exact h.drawn_concat
  | bind e id free =>
    refine ⟨fun e' => ?_, ?_, ?_, h.starts⟩
    · rw [named, List.filterMap_append]
      exact h.names_concat free id e'
    · rw [List.countP_append]
      exact congrArg (· + 1) h.size
    · rw [IdTable.drawn, List.filterMap_append]
      exact (congrArg _ (List.append_nil _)).trans h.drawn

theorem Records.performAll (h : Records range log t) (rs : List Request) :
    Records range (log ++ (performAll rs t).1) (performAll rs t).2 := by
  induction rs generalizing log t with
  | nil =>
    rw [IdTable.performAll, List.append_nil]
    exact h
  | cons r rs ih =>
    have rest := ih ((perform_step r t).records h)
    rw [List.append_assoc] at rest
    exact rest

/-- A table holds the first name that each entity was given, however it is used. -/
theorem performAll_keeps_log (range : IdRange) (requests : List Request) :
    let log := (performAll requests (new range)).1
    let t := (performAll requests (new range)).2
    let first := fun e => (named log).lookup e
    (∀ r fault, (perform r t).1 = .error fault → (perform r t).2 = t) ∧
    (∀ e, (first e).isSome → perform (.allocate e) t = (.error (.alreadyAllocated e), t)) ∧
    (∀ e, first e = none → t.range.remaining = 0 →
      perform (.allocate e) t = (.error .rangeExhausted, t)) ∧
    (∀ e, perform (.load e) t = (match first e with
      | some id => .ok (some id)
      | none => .error (.unallocated e), t)) ∧
    (∀ e, perform (.get e) t = (.ok (first e), t)) ∧
    ((drawn log).map (·.number)).Pairwise (· < ·) ∧
    (∀ n r, (r.entity? = some (.value ⟨n⟩) →
        (perform r t).2.get? (.block ⟨n⟩) = t.get? (.block ⟨n⟩)) ∧
      (r.entity? = some (.block ⟨n⟩) →
        (perform r t).2.get? (.value ⟨n⟩) = t.get? (.value ⟨n⟩))) ∧
    t.size = log.countP isNaming := by
  intro log t first
  have h : Records range log t := (records_new range).performAll requests
  refine ⟨fun r fault failed => ?_, fun e taken => ?_, fun e free left => ?_, fun e => ?_,
    fun e => ?_, ?_, fun n r => ⟨fun hr => ?_, fun hr => ?_⟩, h.size⟩
  · have step := perform_step r t
    rw [failed] at step
    exact step.eq_of_error
  · rw [perform_allocate, h.names e, if_pos taken]
  · -- A free entity finds no identifier left.
    have empty : ¬ t.range.next < t.range.stop := by
      rw [IdRange.remaining] at left
      omega
    have named : t.get? e = none := (h.names e).trans free
    rw [perform_allocate, named, if_neg (by simp), if_neg empty]
  · rw [perform_load, h.names e]
  · rw [perform_get, h.names e]
  · rw [h.drawn]
    exact List.pairwise_lt_range'
  · -- A value and a block of one number are different entities.
    exact (perform_step r t).get?_of_ne (by rw [hr]; simp)
  · exact (perform_step r t).get?_of_ne (by rw [hr]; simp)

/-- A value and a block of one number, and no identifier left. -/
def usedUp : List Request := [.allocate (.value ⟨1⟩), .bind (.block ⟨1⟩) ⟨40⟩, .fresh]

theorem usedUp_keeps_log :
    let t := (performAll usedUp (new ⟨7, 9⟩)).2
    t.range.remaining = 0 ∧
      perform (.allocate (.value ⟨1⟩)) t = (.error (.alreadyAllocated (.value ⟨1⟩)), t) ∧
      perform (.allocate (.value ⟨2⟩)) t = (.error .rangeExhausted, t) ∧
      perform (.load (.value ⟨1⟩)) t = (.ok (some ⟨7⟩), t) ∧
      perform (.load (.block ⟨1⟩)) t = (.ok (some ⟨40⟩), t) := by
  obtain ⟨-, hduplicate, hexhausted, hload, -⟩ := performAll_keeps_log ⟨7, 9⟩ usedUp
  exact ⟨rfl, hduplicate _ rfl, hexhausted _ rfl rfl, hload _, hload _⟩

end SpirvKernel.IdTable
