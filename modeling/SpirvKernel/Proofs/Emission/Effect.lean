import Mathlib.Data.List.Forall2
import SpirvKernel.Proofs.Emission.Step

/-!
# Primitives of emission

When a primitive of emission succeeds, and the step that it then is.
-/

namespace SpirvKernel.Emission

open Instruction Attempt

variable {t : Task} {s s' : Emission}

/-! ## Lookups -/

theorem load_ok_iff {e : Entity} {w : Word} :
    (Id.word <$> onTable (IdTable.load e)) s = (.ok w, s') ↔
      (s.work.table.get? e).map Id.word = some w ∧ s = s' := by
  simp only [onTable, onWork, IdTable.load, map_ok_iff, onPart_ok_iff, bind_eq_ok_iff, state_ok_iff,
    require_ok_iff, Option.map_eq_some_iff]
  constructor
  · rintro ⟨id, ⟨w, ⟨t, ⟨_, _, ⟨rfl, rfl⟩, hid, rfl⟩, rfl⟩, rfl⟩, rfl⟩
    exact ⟨⟨id, hid, rfl⟩, rfl⟩
  · rintro ⟨⟨id, hid, rfl⟩, rfl⟩
    exact ⟨id, ⟨_, ⟨_, ⟨_, _, ⟨rfl, rfl⟩, hid, rfl⟩, rfl⟩, rfl⟩, rfl⟩

theorem operand_ok_iff {v : ValueId} {w : Word} :
    operand v s = (.ok w, s') ↔ s.work.table.value? v = some w ∧ s = s' := load_ok_iff

theorem label_ok_iff {b : BlockId} {w : Word} :
    label b s = (.ok w, s') ↔ s.work.table.label? b = some w ∧ s = s' := load_ok_iff

theorem typeOf_ok_iff {v : ValueId} {type : Ty} :
    typeOf t v s = (.ok type, s') ↔ t.method.typeOf? v = some type ∧ s = s' := require_ok_iff

theorem operands_ok_iff {vs : List ValueId} {ws : List Word} :
    vs.mapM operand s = (.ok ws, s') ↔ vs.mapM s.work.table.value? = some ws ∧ s = s' := by
  induction vs generalizing ws with
  | nil => rw [mapM_nil_ok_iff, mapM_nil_some_iff]
  | cons v vs ih =>
    rw [mapM_cons_ok_iff, mapM_cons_some_iff]
    constructor
    · rintro ⟨w, rest, _, h, hs, rfl⟩
      obtain ⟨hw, rfl⟩ := operand_ok_iff.mp h
      obtain ⟨hrest, rfl⟩ := ih.mp hs
      exact ⟨⟨w, rest, hw, hrest, rfl⟩, rfl⟩
    · rintro ⟨⟨w, rest, hw, hrest, rfl⟩, rfl⟩
      exact ⟨w, rest, s, operand_ok_iff.mpr ⟨hw, rfl⟩, ih.mpr ⟨hrest, rfl⟩, rfl⟩

/-! ## Declarations -/

/-- The state after declarations were made that leave the dictionary `d`, in which `key` is `id`. -/
structure Declared (s : Emission) (key : Declaration) (id : Id) (s' : Emission) : Prop where
  steps : s.dictionary.Steps s'.dictionary
  known : s'.dictionary.get? key = some id
  same : s' = { s with dictionary := s'.dictionary }

theorem Declared.run {key : Declaration} {id : Id} (h : Declared s key id s') : Run t s [] [] s' := by
  have := (Step.declare (t := t) h.steps).run
  rwa [← h.same] at this

theorem Declared.work {key : Declaration} {id : Id} (h : Declared s key id s') :
    s'.work = s.work := by
  rw [h.same]

theorem Declared.available {key : Declaration} {id : Id} (h : Declared s key id s') :
    Available t s' id.word :=
  .declared (.inr ⟨key, id, h.known, rfl⟩)

theorem declare_ok {x : Declare Id} {key : Declaration} {id : Id}
    (hx : Dictionary.Declares key x) (h : declare x s = (.ok id, s')) : Declared s key id s' := by
  obtain ⟨d, hd, rfl⟩ := onPart_ok_iff.mp h
  have hb := hx.below s.dictionary
  have hk := hx.known s.dictionary id
  rw [hd] at hb hk
  exact ⟨hb.steps, hk rfl, rfl⟩

theorem typeWord_ok {type : Ty} {w : Word} (h : typeWord type s = (.ok w, s')) :
    ∃ id : Id, w = id.word ∧ Declared s (.ofType type) id s' := by
  obtain ⟨id, hid, rfl⟩ := map_ok_iff.mp h
  exact ⟨id, rfl, declare_ok (Dictionary.typeId_declares type) hid⟩

theorem constantWord_ok {c : Constant} {w : Word} (h : constantWord c s = (.ok w, s')) :
    ∃ id : Id, w = id.word ∧ Declared s (.constant c.truncate) id s' := by
  obtain ⟨id, hid, rfl⟩ := map_ok_iff.mp h
  exact ⟨id, rfl, declare_ok (Dictionary.constantId_declares c) hid⟩

/-! ## Identifiers and instructions -/

theorem fresh_ok_iff {id : Id} : onTable IdTable.fresh s = (.ok id, s') ↔
    s.work.table.range.next < s.work.table.range.stop ∧ id = s.nextId ∧ s' = s.taken := by
  simp only [onTable, onWork, IdTable.fresh, onPart_ok_iff, IdRange.take]
  split
  · rename_i room
    constructor
    · rintro ⟨_, ⟨_, ⟨_, h, rfl⟩, rfl⟩, rfl⟩
      cases h
      exact ⟨room, rfl, rfl⟩
    · rintro ⟨-, rfl, rfl⟩
      exact ⟨_, ⟨_, ⟨_, rfl, rfl⟩, rfl⟩, rfl⟩
  · rename_i room
    simp [room]

theorem bind_ok_iff {e : Entity} {id : Id} : onTable (IdTable.bind e id) s = (.ok (), s') ↔
    s.work.table.get? e = none ∧ s' = s.named e id := by
  simp only [onTable, onWork, onPart_ok_iff, IdTable.bind]
  cases h : s.work.table.get? e with
  | some id => simp
  | none =>
    constructor
    · rintro ⟨_, ⟨_, hb, rfl⟩, rfl⟩
      cases hb
      exact ⟨rfl, rfl⟩
    · rintro ⟨-, rfl⟩
      exact ⟨_, ⟨_, rfl, rfl⟩, rfl⟩

theorem allocate_ok_iff {e : Entity} {id : Id} : onTable (IdTable.allocate e) s = (.ok id, s') ↔
    s.work.table.get? e = none ∧ s.work.table.range.next < s.work.table.range.stop ∧
      id = s.nextId ∧ s' = s.taken.named e s.nextId := by
  have split : onTable (IdTable.allocate e) s = (.ok id, s') ↔
      s.work.table.get? e = none ∧ ∃ s₁, onTable IdTable.fresh s = (.ok id, s₁) ∧
        onTable (IdTable.bind e id) s₁ = (.ok (), s') := by
    simp only [onTable, onWork, onPart_ok_iff, IdTable.allocate, bind_eq_ok_iff, state_ok_iff,
      ite_ok_iff, fail_ok_iff, pure_ok_iff]
    constructor
    · rintro ⟨_, ⟨_, ⟨_, _, ⟨rfl, rfl⟩, h⟩, rfl⟩, rfl⟩
      rcases h with ⟨-, ⟨⟩⟩ | ⟨new, _, _, hf, _, _, hb, rfl, rfl⟩
      exact ⟨by simpa using new, _, ⟨_, ⟨_, hf, rfl⟩, rfl⟩, _, ⟨_, hb, rfl⟩, rfl⟩
    · rintro ⟨new, _, ⟨_, ⟨_, hf, rfl⟩, rfl⟩, _, ⟨_, hb, rfl⟩, rfl⟩
      exact ⟨_, ⟨_, ⟨_, _, ⟨rfl, rfl⟩, .inr ⟨by simp [new], _, _, hf, _, _, hb, rfl, rfl⟩⟩, rfl⟩, rfl⟩
  rw [split]
  constructor
  · rintro ⟨new, s₁, hf, hb⟩
    obtain ⟨room, rfl, rfl⟩ := fresh_ok_iff.mp hf
    obtain ⟨-, rfl⟩ := bind_ok_iff.mp hb
    exact ⟨new, room, rfl, rfl⟩
  · rintro ⟨new, room, rfl, rfl⟩
    exact ⟨new, _, fresh_ok_iff.mpr ⟨room, rfl, rfl⟩, bind_ok_iff.mpr ⟨new, rfl⟩⟩

theorem emitTo_ok_iff {sec : Section} {op : Opcode} {ws : List Word} {u : Unit} :
    emitTo sec op ws s = (.ok u, s') ↔ (Instruction.of op ws).Fits ∧
      s' = { s with work := { s.work with output := s.work.output.append sec [.of op ws] } } := by
  rw [emitTo, ite_ok_iff, fail_ok_iff]
  simp only [onWork, onPart_ok_iff, change_ok_iff]
  constructor
  · rintro (⟨fits, _, rfl, rfl⟩ | ⟨-, ⟨⟩⟩)
    exact ⟨fits, rfl⟩
  · rintro ⟨fits, rfl⟩
    exact .inl ⟨fits, _, rfl, rfl⟩

theorem emit_ok_iff {op : Opcode} {ws : List Word} {u : Unit} : emit op ws s = (.ok u, s') ↔
    (Instruction.of op ws).Fits ∧ s' = s.written (.plain (.of op ws)) := by
  have hw : s.written (.plain (.of op ws)) =
      { s with work := { s.work with
        output := s.work.output.append .functions [.of op ws] } } := by
    simp [written, Line.pending, Line.missing, Line.draft]
  rw [hw, emit, emitTo_ok_iff]

/-! ## What a run wrote -/

theorem emit_effect {op : Opcode} {ws : List Word} (silent : (Instruction.of op ws).result? = none)
    (inner : (Instruction.of op ws).opens = false)
    (uses : ∀ w ∈ (Instruction.of op ws).uses, Available t s w)
    (h : emit op ws s = (.ok (), s')) : Run t s [] [.plain (.of op ws)] s' := by
  obtain ⟨fits, rfl⟩ := emit_ok_iff.mp h
  exact (Step.effect silent inner fits uses).run

theorem Available.mono {os : List Instruction} {ls : List Line} {w : Word} (h : Available t s w)
    (hr : Run t s os ls s') : Available t s' w := by
  have ha := hr.advances
  cases h with
  | value h => exact .value (ha.names.value? h)
  | declared h =>
    rcases h with h | ⟨k, id, hk, rfl⟩
    · exact .declared (.inl (ha.steps.results_subset h))
    · exact .declared (.inr ⟨k, id, ha.steps.get? hk, rfl⟩)
  | written h =>
    refine .written ?_
    rw [ha.output, functions_append, results_append]
    exact List.mem_append_left _ h
  | openCl h => exact .openCl h

theorem named_value (s : Emission) (v : ValueId) (id : Id) :
    (s.named (.value v) id).work.table.get? (.value v) = some id := by
  rw [get?_named, if_pos rfl]

section

variable {s₁ : Emission}

theorem compute_run {op : Opcode} {type : Word} {id : Id} {ws used : List Word}
    (hop : op.Reads ws used) (htype : Available t s type) (hused : ∀ w ∈ used, Available t s w)
    (hf : onTable IdTable.fresh s = (.ok id, s₁))
    (h : emit op (type :: id.word :: ws) s₁ = (.ok (), s')) :
    Run t s [] [.plain (.of op (type :: id.word :: ws))] s' ∧ Available t s' id.word := by
  obtain ⟨room, rfl, rfl⟩ := fresh_ok_iff.mp hf
  obtain ⟨fits, rfl⟩ := emit_ok_iff.mp h
  have result : (Line.plain (.of op (type :: s.nextId.word :: ws))).draft.result? =
      some s.nextId.word := result?_of_typed? (typed?_of hop.typed _ _ _)
  refine ⟨(Step.compute room result (hop.inner _) fits fun w hw => ?_).run,
    .written (Instruction.mem_results.mpr ⟨_, ?_, result⟩)⟩
  · rw [Line.draft, hop.uses] at hw
    rcases List.mem_cons.mp hw with rfl | hw
    · exact htype
    · exact hused w hw
  · exact List.mem_append_right _ (List.mem_singleton.mpr rfl)

theorem define_run {op : Opcode} {v : ValueId} {type : Ty} {p id : Id} {ws used : List Word}
    (hop : op.Reads ws used) (typing : (v, type) ∈ t.typings)
    (known : s.dictionary.get? (.ofType type) = some p) (hused : ∀ w ∈ used, Available t s w)
    (ha : onTable (IdTable.allocate (.value v)) s = (.ok id, s₁))
    (h : emit op (p.word :: id.word :: ws) s₁ = (.ok (), s')) :
    Run t s [] [.plain (.of op (p.word :: id.word :: ws))] s' := by
  obtain ⟨new, room, rfl, rfl⟩ := allocate_ok_iff.mp ha
  obtain ⟨fits, rfl⟩ := emit_ok_iff.mp h
  have typed : (Line.plain (.of op (p.word :: s.nextId.word :: ws))).draft.typed? =
      some (p.word, s.nextId.word) := typed?_of hop.typed _ _ _
  refine (Step.define room new typing known typed (hop.inner _) fits fun w hw => ?_).run
  rw [Line.draft, hop.uses] at hw
  rcases List.mem_cons.mp hw with rfl | hw
  · exact .declared (.inr ⟨_, p, known, rfl⟩)
  · exact hused w hw

end

theorem map_final_plain (T : IdTable) (is : List Instruction) :
    (is.map Line.plain).map (Line.final T) = is := by
  rw [List.map_map]
  exact List.map_id is

/-- What was written satisfies `P`, whatever the dictionary and the names are in the end. -/
def Wrote (t : Task) (s : Emission) (os : List Instruction)
    (P : Dictionary → IdTable → List Instruction → Prop) (s' : Emission) : Prop :=
  ∃ ls, Run t s os ls s' ∧ ∀ d T, s'.dictionary.Steps d → s'.work.table.Within T →
    (∀ l ∈ ls, l.Resolved T) → P d T (ls.map (Line.final T))

section

variable {os os₁ : List Instruction} {s₁ : Emission}
  {P Q : Dictionary → IdTable → List Instruction → Prop}

theorem Wrote.append (h : Wrote t s os P s₁) (h₁ : Wrote t s₁ os₁ Q s') :
    Wrote t s (os ++ os₁) (fun d T is => ∃ as bs, is = as ++ bs ∧ P d T as ∧ Q d T bs) s' := by
  obtain ⟨ls, run, hP⟩ := h
  obtain ⟨ms, run', hQ⟩ := h₁
  have ha := run'.advances
  refine ⟨ls ++ ms, run.trans run', fun d T hd hT hl => ?_⟩
  refine ⟨_, _, List.map_append, hP d T (ha.steps.trans hd) (ha.names.trans hT) fun l h => hl l ?_,
    hQ d T hd hT fun l h => hl l ?_⟩
  · exact List.mem_append_left _ h
  · exact List.mem_append_right _ h

theorem Wrote.imp (h : Wrote t s os P s') (hPQ : ∀ d T is, P d T is → Q d T is) :
    Wrote t s os Q s' := by
  obtain ⟨ls, run, hP⟩ := h
  exact ⟨ls, run, fun d T hd hT hl => hPQ d T _ (hP d T hd hT hl)⟩

theorem Run.wrote (is : List Instruction) (h : Run t s os (is.map .plain) s')
    (hP : ∀ d T, s'.dictionary.Steps d → s'.work.table.Within T → P d T is) : Wrote t s os P s' :=
  ⟨_, h, fun d T hd hT _ => by rw [map_final_plain]; exact hP d T hd hT⟩

theorem forM_wrote {β : Type} {f : β → Emit Unit} {bs : List β}
    {P : β → Dictionary → IdTable → List Instruction → Prop}
    (hf : ∀ b ∈ bs, ∀ s s', f b s = (.ok (), s') → Wrote t s [] (P b) s')
    (h : bs.forM f s = (.ok (), s')) :
    Wrote t s [] (fun d T is => ∃ iss, is = iss.flatten ∧
      List.Forall₂ (fun b is => P b d T is) bs iss) s' := by
  induction bs generalizing s with
  | nil =>
    obtain rfl := forM_nil_ok_iff.mp h
    exact ⟨[], .refl, fun _ _ _ _ _ => ⟨[], rfl, .nil⟩⟩
  | cons b bs ih =>
    obtain ⟨s₁, hb, hbs⟩ := forM_cons_ok_iff.mp h
    have first := hf b List.mem_cons_self s s₁ hb
    have rest := ih (fun b' hb' => hf b' (List.mem_cons_of_mem b hb')) hbs
    refine (first.append rest).imp ?_
    rintro d T _ ⟨as, _, rfl, hP, iss, rfl, hall⟩
    exact ⟨as :: iss, rfl, .cons hP hall⟩

end

end SpirvKernel.Emission
