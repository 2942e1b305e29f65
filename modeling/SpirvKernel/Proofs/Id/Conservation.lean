import Mathlib.Data.List.Nodup
import SpirvKernel.Id.Ledger

/-!
# Conservation of identifiers

Users of one supply make their requests in any order. What the supply has passed is conserved: each
identifier from the first to the bound was handed out once, or waits in one range to be taken.
-/

namespace SpirvKernel

namespace IdRange

/-- The numbers of a range that are not taken yet. -/
def left (r : IdRange) : List Nat := List.range' r.next r.remaining

theorem left_eq_cons {r : IdRange} (h : r.next < r.stop) :
    r.left = r.next :: left { r with next := r.next + 1 } := by
  simp only [left, remaining]
  rw [show r.stop - r.next = (r.stop - (r.next + 1)) + 1 by omega, List.range'_succ]

end IdRange

namespace Ledger

/-- The answers to requests made one after the other, and the ledger in the end. -/
def performAll : List Request → Ledger → List (Request × Except Fault Outcome) × Ledger
  | [], l => ([], l)
  | r :: rs, l =>
    let (answer, l₁) := perform r l
    let (answers, l₂) := performAll rs l₁
    ((r, answer) :: answers, l₂)

/-- The identifier that a request took from the supply or from a range. -/
def handed? : Request → Except Fault Outcome → Option Id
  | .draw, .ok (.id id) => some id
  | .take _, .ok (.id id) => some id
  | _, _ => none

/-- All identifiers that were taken from the supply and from ranges, in order. -/
def handed (answers : List (Request × Except Fault Outcome)) : List Id :=
  answers.filterMap fun (r, answer) => handed? r answer

/-- The answers to one request, each time it was made. -/
def answersTo (r : Request) (answers : List (Request × Except Fault Outcome)) :
    List (Except Fault Outcome) :=
  (answers.filter (·.1 = r)).map (·.2)

/-- The numbers that wait in some range. -/
def aside (l : Ledger) : List Nat := l.ranges.flatMap IdRange.left

variable {l l' l'' : Ledger} {i : Nat} {range : IdRange} {ids ids' : List Id} {r : Request}

/-! ## Single requests -/

theorem perform_reserve (n : Nat) (l : Ledger) :
    perform (.reserve n) l =
      if l.supply.next + n ≤ Supply.limit then
        (.ok (.count n), { l with
          supply := ⟨l.supply.next + n⟩
          ranges := l.ranges ++ [⟨l.supply.next, l.supply.next + n⟩] })
      else (.error .spaceExhausted, l) := by
  by_cases h : l.supply.next + n ≤ Supply.limit
  · simp [perform, reserve, Attempt.bind_apply, Supply.reserve, IdRange.remaining, h, Except.map]
  · simp [perform, reserve, Attempt.bind_apply, Supply.reserve, h]

theorem perform_draw (l : Ledger) :
    perform .draw l =
      if l.supply.next + 1 ≤ Supply.limit then
        (.ok (.id ⟨l.supply.next⟩), { l with supply := ⟨l.supply.next + 1⟩ })
      else (.error .spaceExhausted, l) := by
  simp only [perform, Attempt.map_apply, Attempt.onPart_apply, Supply.draw_apply]
  split <;> rfl

theorem perform_take (h : l.ranges[i]? = some range) :
    perform (.take i) l =
      if range.next < range.stop then
        (.ok (.id ⟨range.next⟩),
          { l with ranges := l.ranges.set i { range with next := range.next + 1 } })
      else (.error .rangeExhausted, l) := by
  simp only [perform, onRange, Attempt.onPart_apply, onMember, h, Attempt.map_apply, IdRange.take]
  split
  · rfl
  · obtain ⟨hi, rfl⟩ := List.getElem?_eq_some_iff.mp h
    simp [Except.map]

/-- What a request may do to the supply and the ranges, besides answering. -/
inductive Step (l : Ledger) : Request → Except Fault Outcome → Ledger → Prop
  | idle {r answer l'} (nothing : handed? r answer = none) (supply : l'.supply = l.supply)
      (ranges : l'.ranges = l.ranges) : Step l r answer l'
  | reserve (n : Nat) (room : l.supply.next + n ≤ Supply.limit) :
      Step l (.reserve n) (.ok (.count n)) { l with
        supply := ⟨l.supply.next + n⟩
        ranges := l.ranges ++ [⟨l.supply.next, l.supply.next + n⟩] }
  | draw (room : l.supply.next + 1 ≤ Supply.limit) :
      Step l .draw (.ok (.id ⟨l.supply.next⟩)) { l with supply := ⟨l.supply.next + 1⟩ }
  | take (i : Nat) (range : IdRange) (member : l.ranges[i]? = some range)
      (left : range.next < range.stop) :
      Step l (.take i) (.ok (.id ⟨range.next⟩))
        { l with ranges := l.ranges.set i { range with next := range.next + 1 } }

theorem perform_step (r : Request) (l : Ledger) : Step l r (perform r l).1 (perform r l).2 := by
  cases r with
  | reserve n =>
    rw [perform_reserve]
    split
    · rename_i room; exact .reserve n room
    · exact .idle rfl rfl rfl
  | draw =>
    rw [perform_draw]
    split
    · rename_i room; exact .draw room
    · exact .idle rfl rfl rfl
  | take i =>
    cases h : l.ranges[i]? with
    | none =>
      have hp : perform (.take i) l = (.ok .nothing, l) := by
        simp [perform, onRange, onMember, h]
      rw [hp]
      exact .idle rfl rfl rfl
    | some range =>
      rw [perform_take h]
      split
      · rename_i left; exact .take i range h left
      · exact .idle rfl rfl rfl
  | remaining i =>
    refine .idle rfl rfl ?_
    cases h : l.ranges[i]? with
    | none => simp [perform, onRange, onMember, h]
    | some range =>
      obtain ⟨hi, hrange⟩ := List.getElem?_eq_some_iff.mp h
      simp [perform, onRange, onMember, h, ← hrange]
  | openTable i =>
    cases h : l.ranges[i]? <;> simp only [perform, openTable, h] <;> exact .idle rfl rfl rfl
  | onTable i request => exact .idle rfl rfl rfl

/-! ## Conservation -/

/-- What waits or was handed out is what waited before and what the supply has passed. -/
structure Conserves (l : Ledger) (ids : List Id) (l' : Ledger) : Prop where
  grows : l.supply.next ≤ l'.supply.next
  limit : l'.supply.next = l.supply.next ∨ l'.supply.next ≤ Supply.limit
  kept : (ids.map (·.number) ++ l'.aside).Perm
    (l.aside ++ List.range' l.supply.next (l'.supply.next - l.supply.next))

theorem Conserves.of_same (supply : l'.supply = l.supply) (ranges : l'.ranges = l.ranges) :
    Conserves l [] l' where
  grows := by simp [supply]
  limit := .inl (by rw [supply])
  kept := by simp [aside, supply, ranges]

theorem Conserves.trans (h : Conserves l ids l') (h' : Conserves l' ids' l'') :
    Conserves l (ids ++ ids') l'' where
  grows := Nat.le_trans h.grows h'.grows
  limit := by
    have := h.limit
    have := h'.limit
    omega
  kept := by
    have hgrows := h.grows
    have hgrows' := h'.grows
    have split : List.range' l.supply.next (l''.supply.next - l.supply.next) =
        List.range' l.supply.next (l'.supply.next - l.supply.next) ++
          List.range' l'.supply.next (l''.supply.next - l'.supply.next) := by
      rw [show l''.supply.next - l.supply.next =
          (l'.supply.next - l.supply.next) + (l''.supply.next - l'.supply.next) by omega,
        ← List.range'_append_1, Nat.add_sub_cancel' hgrows]
    rw [List.map_append, List.append_assoc, split, ← List.append_assoc l.aside]
    refine (h'.kept.append_left _).trans ?_
    rw [← List.append_assoc]
    exact h.kept.append_right _

theorem flatMap_left_take {ranges : List IdRange} (h : ranges[i]? = some range)
    (hleft : range.next < range.stop) :
    (range.next :: (ranges.set i { range with next := range.next + 1 }).flatMap IdRange.left).Perm
      (ranges.flatMap IdRange.left) := by
  induction ranges generalizing i with
  | nil => cases h
  | cons r ranges ih =>
    cases i with
    | zero =>
      cases h
      simp [IdRange.left_eq_cons hleft]
    | succ i =>
      rw [List.set_cons_succ, List.flatMap_cons, List.flatMap_cons]
      refine List.perm_middle.symm.trans ?_
      exact (ih h).append_left _

theorem Step.conserves {answer : Except Fault Outcome} (h : Step l r answer l') :
    Conserves l (handed? r answer).toList l' := by
  cases h with
  | idle nothing supply ranges =>
    rw [nothing]
    exact .of_same supply ranges
  | reserve n room =>
    refine ⟨by simp, .inr room, ?_⟩
    simp [handed?, aside, IdRange.left, IdRange.remaining]
  | draw room =>
    refine ⟨by simp, .inr room, ?_⟩
    simpa [handed?, aside] using (List.perm_append_singleton l.supply.next l.aside).symm
  | take i range member left =>
    refine ⟨Nat.le_refl _, .inl rfl, ?_⟩
    simpa [handed?, aside] using flatMap_left_take member left

theorem performAll_conserves (rs : List Request) (l : Ledger) :
    Conserves l (handed (performAll rs l).1) (performAll rs l).2 := by
  induction rs generalizing l with
  | nil => exact .of_same rfl rfl
  | cons r rs ih =>
    have all := (perform_step r l).conserves.trans (ih (perform r l).2)
    have split : handed (performAll (r :: rs) l).1 =
        (handed? r (perform r l).1).toList ++ handed (performAll rs (perform r l).2).1 := by
      simp only [performAll, handed, List.filterMap_cons]
      cases handed? r (perform r l).1 <;> rfl
    rwa [← split] at all

theorem Conserves.handed_nodup {supply : Supply} (h : Conserves (new supply) ids l) : ids.Nodup := by
  have nodup := h.kept.nodup_iff.mpr List.nodup_range'
  exact (List.nodup_append.mp nodup).1.of_map _

theorem Conserves.handed_bounds {supply : Supply} {id : Id} (h : Conserves (new supply) ids l)
    (hid : id ∈ ids) :
    supply.next ≤ id.number ∧ id.number < l.supply.next ∧ l.supply.next ≤ Supply.limit := by
  have member := h.kept.mem_iff.mp (List.mem_append_left _ (List.mem_map_of_mem hid))
  have hlimit := h.limit
  simp only [new, aside, List.flatMap_nil, List.nil_append, List.mem_range'_1] at member hlimit
  omega

/-! ## One range among others -/

theorem Step.range_kept {answer : Except Fault Outcome} (step : Step l r answer l')
    (h : l.ranges[i]? = some range) (hr : r ≠ .take i) : l'.ranges[i]? = some range := by
  have hi : i < l.ranges.length := (List.getElem?_eq_some_iff.mp h).1
  cases step with
  | idle _ _ ranges => rw [ranges, h]
  | reserve n => rwa [List.getElem?_append_left hi]
  | draw => exact h
  | take j =>
    have hij : j ≠ i := by rintro rfl; exact hr rfl
    rwa [List.getElem?_set_ne hij]

/-- The answer to a taking from a range that `k` others went before. -/
def nthTaken (range : IdRange) (k : Nat) : Except Fault Outcome :=
  if k < range.remaining then .ok (.id ⟨range.next + k⟩) else .error .rangeExhausted

theorem nthTaken_succ (range : IdRange) (k : Nat) :
    nthTaken range (k + 1) = nthTaken (IdRange.take range).2 k := by
  simp only [nthTaken, IdRange.take, IdRange.remaining]
  grind

theorem perform_take_first (h : l.ranges[i]? = some range) :
    (perform (.take i) l).1 = nthTaken range 0 := by
  rw [perform_take h, nthTaken, IdRange.remaining]
  grind

theorem perform_take_rest (h : l.ranges[i]? = some range) :
    (perform (.take i) l).2.ranges[i]? = some (IdRange.take range).2 := by
  have hi : i < l.ranges.length := (List.getElem?_eq_some_iff.mp h).1
  rw [perform_take h, IdRange.take]
  split
  · simp [hi]
  · exact h

/-- Takings from a range are answered in order with what is left of it, and then fail. -/
theorem answersTo_take (rs : List Request) (h : l.ranges[i]? = some range) :
    answersTo (.take i) (performAll rs l).1 =
      (List.range (rs.count (.take i))).map (nthTaken range) := by
  induction rs generalizing l range with
  | nil => rfl
  | cons r rs ih =>
    by_cases hr : r = .take i
    · subst hr
      have later : (fun k => nthTaken range (k + 1)) = nthTaken (IdRange.take range).2 :=
        funext (nthTaken_succ range)
      rw [List.count_cons_self, List.range_succ_eq_map, List.map_cons, List.map_map]
      change _ = _ :: List.map (fun k => nthTaken range (k + 1)) _
      rw [later, ← ih (perform_take_rest h), ← perform_take_first h]
      simp [performAll, answersTo]
    · rw [List.count_cons_of_ne hr, ← ih ((perform_step r l).range_kept h hr)]
      simp [performAll, answersTo, hr]

/-! ## Any interleaving -/

theorem Step.error_kept {e : Fault} (step : Step l r (.error e) l') :
    l'.supply = l.supply ∧ l'.ranges = l.ranges := by
  cases step with
  | idle _ supply ranges => exact ⟨supply, ranges⟩

theorem exists_error_reserve_iff (n : Nat) (l : Ledger) :
    (∃ e, (perform (.reserve n) l).1 = .error e) ↔ Supply.limit < l.supply.next + n := by
  rw [perform_reserve]
  split
  · simp; omega
  · simp; omega

theorem exists_error_draw_iff (l : Ledger) :
    (∃ e, (perform .draw l).1 = .error e) ↔ Supply.limit < l.supply.next + 1 := by
  rw [perform_draw]
  split
  · simp; omega
  · simp; omega

/-- No identifier is handed out twice, whoever asks when. -/
theorem performAll_hands_out_once (first : Nat) (requests : List Request) :
    let run := performAll requests (new (.startingAt first))
    (handed run.1).Nodup ∧
    (∀ id ∈ handed run.1,
      0 < id.number ∧ id.number < Supply.limit ∧ id.number < run.2.supply.next) ∧
    (∀ n, (∃ e, (perform (.reserve n) run.2).1 = .error e) ↔
      Supply.limit < run.2.supply.next + n) ∧
    ((∃ e, (perform .draw run.2).1 = .error e) ↔ Supply.limit < run.2.supply.next + 1) ∧
    (∀ r e, (perform r run.2).1 = .error e →
      (perform r run.2).2.supply = run.2.supply ∧ (perform r run.2).2.ranges = run.2.ranges) ∧
    ∀ n later, run.2.supply.next + n ≤ Supply.limit →
      answersTo (.take run.2.ranges.length) (performAll later (perform (.reserve n) run.2).2).1 =
        (List.range (later.count (.take run.2.ranges.length))).map fun k =>
          if k < n then .ok (.id ⟨run.2.supply.next + k⟩) else .error .rangeExhausted := by
  intro run
  have conserved := performAll_conserves requests (new (.startingAt first))
  refine ⟨conserved.handed_nodup, fun id hid => ?_, fun n => exists_error_reserve_iff n run.2,
    exists_error_draw_iff run.2, fun r e he => ?_, fun n later room => ?_⟩
  · -- Supplies start at one or later.
    have bounds := conserved.handed_bounds hid
    have positive : 0 < (Supply.startingAt first).next := Nat.le_max_right first 1
    exact ⟨by omega, by omega, bounds.2.1⟩
  · have step := perform_step r run.2
    rw [he] at step
    exact step.error_kept
  · -- The new range is the last, and takings from it come one after the other.
    have member : (perform (.reserve n) run.2).2.ranges[run.2.ranges.length]? =
        some ⟨run.2.supply.next, run.2.supply.next + n⟩ := by
      simp [perform_reserve, room]
    rw [answersTo_take later member]
    simp [nthTaken, IdRange.remaining]

-- Two ranges and the supply are used in turn, and the first range runs out.
example :
    handed (performAll [.reserve 2, .reserve 1, .take 1, .draw, .take 0, .take 1, .take 0, .take 0]
      (new (.startingAt 7))).1 = [⟨9⟩, ⟨10⟩, ⟨7⟩, ⟨8⟩] := by
  decide

end Ledger

end SpirvKernel
