import SpirvKernel.Proofs.Emission.Footprint
import SpirvKernel.Proofs.Emission.Method

/-!
# Calls that fail

A header that fails before it writes anything leaves the work as it was. Once it has written
something, and once a body has failed at all, the same call fails again however often it is made: it
starts with a name that is taken, or with what does not fit.
-/

namespace SpirvKernel.Emission

open Instruction Attempt

variable {t : Task} {s s' : Emission} {e : Entity} {f : Fault}

/-! ## Names that cannot be given -/

/-- The table has a name for the entity, or no identifier left for one. -/
def Refuses (table : IdTable) (e : Entity) : Prop :=
  (table.get? e).isSome ∨ table.range.stop ≤ table.range.next

theorem Refuses.mono {table table' : IdTable} (h : Refuses table e) (hg : table.Grows table') :
    Refuses table' e := by
  rcases h with h | h
  · obtain ⟨id, hid⟩ := Option.isSome_iff_exists.mp h
    exact .inl (Option.isSome_iff_exists.mpr ⟨id, hg.names e id hid⟩)
  · have := hg.next
    have := hg.stop
    exact .inr (by omega)

theorem refuses_iff {table : IdTable} :
    Refuses table e ↔ ¬ (table.get? e = none ∧ table.range.next < table.range.stop) := by
  unfold Refuses
  cases table.get? e with
  | none => simp
  | some id => simp

theorem allocate_error (h : onTable (IdTable.allocate e) s = (.error f, s')) :
    s' = s ∧ Refuses s.work.table e := by
  have refuses : Refuses s.work.table e := by
    rw [refuses_iff]
    rintro ⟨new, room⟩
    have := allocate_ok_iff.mpr ⟨new, room, rfl, rfl⟩
    rw [h] at this
    cases this
  refine ⟨?_, refuses⟩
  simp only [onTable, onWork, onPart_apply, IdTable.allocate, bind_apply, state_apply] at h
  by_cases taken : (s.work.table.get? e).isSome
  · simp only [if_pos taken, fail_apply, Prod.mk.injEq] at h
    exact h.2.symm
  · have full : ¬ s.work.table.range.next < s.work.table.range.stop := by
      have := refuses.resolve_left taken
      omega
    simp only [if_neg taken, bind_apply, IdTable.fresh, onPart_apply, IdRange.take, if_neg full,
      Prod.mk.injEq] at h
    exact h.2.symm

theorem emitTo_error {sec : Section} {op : Opcode} {ws : List Word}
    (h : emitTo sec op ws s = (.error f, s')) : ¬ (Instruction.of op ws).Fits := by
  intro fits
  have hok : ∃ s₁, emitTo sec op ws s = (.ok (), s₁) := ⟨_, emitTo_ok_iff.mpr ⟨fits, rfl⟩⟩
  obtain ⟨s₁, hok⟩ := hok
  rw [h] at hok
  cases hok

theorem emit_ne_error {op : Opcode} {ws : List Word} (small : ws.length < maxSize) :
    emit op ws s ≠ (.error f, s') := fun h => emitTo_error h (fits_of op small)

theorem declare_error {α : Type} {x : Declare α} (h : declare x s = (.error f, s')) :
    s'.work = s.work := by
  have : s' = { s with dictionary := (x s.dictionary).2 } := (Prod.mk.inj h).2.symm
  rw [this]

theorem typeWord_error {type : Ty} (h : typeWord type s = (.error f, s')) : s'.work = s.work := by
  rw [typeWord, map_apply] at h
  have : s' = { s with dictionary := (Dictionary.typeId type s.dictionary).2 } :=
    (Prod.mk.inj h).2.symm
  rw [this]

theorem expect_error {call : Call} (h : expect call s = (.error f, s')) :
    s' = s ∧ s.work.stage ≠ call.stage ∧ f = .outOfOrder call s.work.stage := by
  simp only [expect, bind_apply, state_apply] at h
  by_cases hstage : s.work.stage = call.stage
  · simp [hstage] at h
  · simp only [if_neg hstage, fail_apply, Prod.mk.injEq, Except.error.injEq] at h
    exact ⟨h.2.symm, hstage, h.1.symm⟩

/-! ## Headers -/

/-- What makes every further header fail. -/
def HeaderStuck (t : Task) (w : Work) : Prop :=
  (∃ p ps, t.method.params = p :: ps ∧ Refuses w.table (.value p.value)) ∨
    t.frame.debugNames = true ∧
      ¬ (Instruction.of .name (t.id.word :: Literal.encode t.method.name)).Fits

theorem emitParams_error {p : Param} {ps : List Param} {type : Id}
    (known : s.dictionary.get? (.ofType p.type) = some type)
    (h : (p :: ps).forM emitParam s = (.error f, s')) : Refuses s'.work.table (.value p.value) := by
  -- The types are known, so only the names can fail, and then the first of them is gone.
  have htype : typeWord p.type s = (.ok type.word, s) := by
    simp [typeWord, declare, Dictionary.typeId_known known, Except.map]
  rw [List.forM, bind_eq_error_iff] at h
  rcases h with h | ⟨_, s₁, hp, hps⟩
  · simp only [emitParam, bind_eq_error_iff, htype] at h
    rcases h with h | ⟨_, _, h, h' | ⟨id, s₂, -, h'⟩⟩
    · cases h
    · cases h
      obtain ⟨rfl, refuses⟩ := allocate_error h'
      exact refuses
    · exact absurd h' (emit_ne_error (by simp [maxSize]))
  · simp only [emitParam, bind_eq_ok_iff, htype] at hp
    obtain ⟨_, _, -, id, s₂, hid, hemit⟩ := hp
    obtain ⟨-, -, -, rfl⟩ := allocate_ok_iff.mp hid
    obtain ⟨-, rfl⟩ := emit_ok_iff.mp hemit
    refine Refuses.mono (.inl ?_) ((keeping_emitParams ps).failsWith _ _ _ hps).table
    exact Option.isSome_iff_exists.mpr ⟨_, named_value _ _ _⟩

theorem emitName_error (h : emitName t s = (.error f, s')) : HeaderStuck t s'.work := by
  unfold emitName at h
  split at h
  · rename_i named
    exact .inr ⟨named, emitTo_error h⟩
  · cases h

theorem emitGroupSize_ne_error : emitGroupSize t s ≠ (.error f, s') := by
  intro h
  cases hsize : t.entry.bind EntryPoint.groupSize with
  | some size =>
    simp only [emitGroupSize, hsize] at h
    exact emitTo_error h (fits_of _ (by simp [maxSize]))
  | none =>
    simp only [emitGroupSize, hsize] at h
    cases h

theorem failsWith_header (t : Task) : FailsWith Keeps (header t) := by
  refine failsWith_bind Keeps.trans (made_expect _).keeping fun _ => ?_
  refine failsWith_bind Keeps.trans (made_checkResult t).keeping fun _ => ?_
  refine failsWith_bind Keeps.trans (made_typeWord (growing_perform (.type _))).keeping fun type => ?_
  refine failsWith_bind Keeps.trans (Made.declare (growing_perform (.signature _ _))).keeping ?_
  intro signature
  have predeclared : Growing Unit (predeclare t.method) := predeclare_respects Dictionary.kept_steps _
  refine failsWith_bind Keeps.trans (Made.declare predeclared).keeping fun _ => ?_
  refine failsWith_bind Keeps.trans (made_emit _ _).keeping fun _ => ?_
  refine failsWith_bind Keeps.trans (keeping_emitParams _) fun _ => ?_
  refine failsWith_bind Keeps.trans (keeping_emitName t) fun _ => ?_
  intro s e s' h
  rcases bind_eq_error_iff.mp h with h | ⟨_, _, -, h⟩
  · cases h
  · exact absurd h emitGroupSize_ne_error

theorem known_of_signature {d : Dictionary} {result : Ty} {params : List Ty} {id : Id}
    (sound : d.Sound) (h : d.get? (.signature result params) = some id) {type : Ty}
    (ht : type ∈ params) : ∃ p, d.get? (.ofType type) = some p := by
  obtain ⟨i, -, hi⟩ := sound.filed _ id h
  obtain ⟨ids, hids, -⟩ := Option.bind_eq_some_iff.mp hi
  have all := isSome_mapM_iff.mp (Option.isSome_of_eq_some hids)
  exact Option.isSome_iff_exists.mp (all type (List.mem_cons_of_mem _ ht))

/-- What is written after the declarations fails only for good. -/
theorem signature_error {type : Id} {signature : Word}
    (known : ∀ p ∈ t.method.params, ∃ id, s.dictionary.get? (.ofType p.type) = some id)
    (failed : (do
      emit .function [type.word, t.id.word, 0, signature]
      t.method.params.forM emitParam
      emitName t
      setStage Call.header.next
      emitGroupSize t : Emit Unit) s = (.error f, s')) : HeaderStuck t s'.work := by
  rcases bind_eq_error_iff.mp failed with h | ⟨_, s₁, hopening, h⟩
  · exact absurd h (emit_ne_error (by simp [maxSize]))
  obtain ⟨-, rfl⟩ := emit_ok_iff.mp hopening
  rcases bind_eq_error_iff.mp h with h | ⟨_, s₂, -, h⟩
  · cases hps : t.method.params with
    | nil => rw [hps] at h; cases h
    | cons p ps =>
      obtain ⟨id, hid⟩ := known p (by simp [hps])
      rw [hps] at h
      exact .inl ⟨p, ps, hps, emitParams_error (s := s.written _) hid h⟩
  rcases bind_eq_error_iff.mp h with h | ⟨_, s₃, -, h⟩
  · exact emitName_error h
  rcases bind_eq_error_iff.mp h with h | ⟨_, s₄, -, h⟩
  · cases h
  · exact absurd h emitGroupSize_ne_error

theorem header_error (sound : s.dictionary.Sound) (failed : header t s = (.error f, s')) :
    s'.work = s.work ∨ HeaderStuck t s'.work := by
  rcases bind_eq_error_iff.mp failed with h | ⟨_, s₁, hexpect, h₁⟩
  · exact .inl (by rw [(expect_error h).1])
  obtain rfl := expect_ok hexpect
  rcases bind_eq_error_iff.mp h₁ with h | ⟨_, s₂, hcheck, h₂⟩
  · unfold checkResult at h
    split at h <;> cases h
    exact .inl rfl
  obtain rfl := checkResult_ok hcheck
  rcases bind_eq_error_iff.mp h₂ with h | ⟨_, s₃, htype, h₃⟩
  · exact .inl (typeWord_error h)
  obtain ⟨type, rfl, declared⟩ := typeWord_ok htype
  rcases bind_eq_error_iff.mp h₃ with h | ⟨signature, s₄, hsignature, h₄⟩
  · exact .inl ((declare_error h).trans declared.work)
  have declared' := declare_ok (Dictionary.signatureId_declares _ _) hsignature
  rcases bind_eq_error_iff.mp h₄ with h | ⟨_, s₅, hpredeclare, h₅⟩
  · exact .inl ((declare_error h).trans (declared'.work.trans declared.work))
  obtain ⟨d, hd, rfl⟩ := onPart_ok_iff.mp hpredeclare
  have sound₄ := declared'.steps.sound (declared.steps.sound sound)
  refine .inr (signature_error (fun p hp => ?_) h₅)
  obtain ⟨id, hid⟩ := known_of_signature sound₄ declared'.known (List.mem_map_of_mem hp)
  exact ⟨id, ((predeclare_respects Dictionary.kept_steps _).of_ok hd).get? hid⟩

theorem HeaderStuck.ne_ok (h : HeaderStuck t s.work) : header t s ≠ (.ok (), s') := by
  intro hok
  simp only [header, bind_eq_ok_iff] at hok
  obtain ⟨_, _, h₁, _, _, h₂, _, s₁, h₃, signature, s₂, h₄, _, s₃, h₅, _, s₄, hf, _, s₅, hparams, _,
    s₆, hname, -⟩ := hok
  obtain rfl := expect_ok h₁
  obtain rfl := checkResult_ok h₂
  rcases h with ⟨p, ps, hps, refuses⟩ | ⟨hnames, hlong⟩
  · obtain ⟨type, rfl, declared⟩ := typeWord_ok h₃
    have declared' := declare_ok (Dictionary.signatureId_declares _ _) h₄
    obtain ⟨d, hd, rfl⟩ := onPart_ok_iff.mp h₅
    obtain ⟨-, rfl⟩ := emit_ok_iff.mp hf
    rw [hps] at hparams
    obtain ⟨s₇, hp, -⟩ := forM_cons_ok_iff.mp hparams
    simp only [emitParam, bind_eq_ok_iff] at hp
    obtain ⟨_, s₈, htype, id, _, hid, -⟩ := hp
    obtain ⟨_, -, declared''⟩ := typeWord_ok htype
    obtain ⟨new, room, -⟩ := allocate_ok_iff.mp hid
    rw [declared''.work] at new room
    refine refuses_iff.mp refuses ⟨?_, ?_⟩
    · rw [← declared.work, ← declared'.work]; exact new
    · rw [← declared.work, ← declared'.work]; exact room
  · rw [emitName, if_pos hnames] at hname
    exact hlong (emitTo_ok_iff.mp hname).1

/-! ## Bodies -/

/-- What makes every further body fail. -/
def BodyStuck (t : Task) (w : Work) : Prop :=
  ∀ b bs, t.method.blocks = b :: bs → Refuses w.table (.block b.id)

theorem BodyStuck.mono {w w' : Work} (h : BodyStuck t w) (hg : w.table.Grows w'.table) :
    BodyStuck t w' :=
  fun b bs hb => (h b bs hb).mono hg

/-- What the body does once the entry block has its name. -/
def bodyAfterLabel (t : Task) (entry : Block) (blocks : List Block) : Emit Unit := do
  blocks.forM allocateLabel
  emitBlock t (emitStorage t) entry
  blocks.forM (emitBlock t (pure ()))
  resolveAll
  emit .functionEnd []
  setStage Call.body.next

theorem body_cons {entry : Block} {blocks : List Block} (h : t.method.blocks = entry :: blocks) :
    body t = (do
      expect .body
      allocateLabel entry
      bodyAfterLabel t entry blocks) := by
  simp only [body, h, List.forM, bind_assoc, bodyAfterLabel]

theorem failsWith_bodyAfterLabel (t : Task) (entry : Block) (blocks : List Block) :
    FailsWith Keeps (bodyAfterLabel t entry blocks) := by
  have entry_made : Made Growing (emitBlock t (emitStorage t) entry) :=
    made_emitBlock (made_emitStorage growing_perform t) fun _ _ r _ => growing_perform r
  have blocks_made : Made Growing (blocks.forM (emitBlock t (pure ()))) :=
    made_emitBlocks fun _ _ _ _ r _ => growing_perform r
  refine failsWith_bind Keeps.trans (made_forM made_allocateLabel _).keeping fun _ => ?_
  refine failsWith_bind Keeps.trans entry_made.keeping fun _ => ?_
  refine failsWith_bind Keeps.trans blocks_made.keeping fun _ => ?_
  refine failsWith_bind Keeps.trans made_resolveAll.keeping fun _ => ?_
  refine failsWith_bind Keeps.trans (made_emit _ _).keeping fun _ => ?_
  intro s e s' h
  cases h

theorem failsWith_body (t : Task) : FailsWith Keeps (body t) := by
  cases hb : t.method.blocks with
  | nil =>
    have hbody : body t = (do
        expect .body
        fail (.emptyMethod t.method.name)) := by
      simp only [body, hb]
    rw [hbody]
    exact ((made_expect _).bind fun _ => .fail _).keeping.failsWith
  | cons entry blocks =>
    rw [body_cons hb]
    refine failsWith_bind Keeps.trans (made_expect _).keeping fun _ => ?_
    refine failsWith_bind Keeps.trans (made_allocateLabel entry).keeping fun _ => ?_
    exact failsWith_bodyAfterLabel t _ _

theorem body_error (hstage : s.work.stage = .afterHeader) (failed : body t s = (.error f, s')) :
    BodyStuck t s'.work := by
  intro b bs hb
  rw [body_cons hb] at failed
  rcases bind_eq_error_iff.mp failed with h | ⟨_, s₁, hexpect, h₁⟩
  · exact absurd hstage (expect_error h).2.1
  obtain rfl := expect_ok hexpect
  rcases bind_eq_error_iff.mp h₁ with h | ⟨_, s₂, hlabel, h₂⟩
  · rcases bind_eq_error_iff.mp h with h | ⟨_, _, -, h⟩
    · obtain ⟨rfl, refuses⟩ := allocate_error h
      exact refuses
    · cases h
  -- The first label was given, and stays so.
  · simp only [allocateLabel, bind_eq_ok_iff, pure_ok_iff] at hlabel
    obtain ⟨_, _, hlabel, -, rfl⟩ := hlabel
    obtain ⟨-, -, -, rfl⟩ := allocate_ok_iff.mp hlabel
    refine Refuses.mono (.inl ?_) (failsWith_bodyAfterLabel t _ _ _ _ _ h₂).table
    rw [get?_named, if_pos rfl]
    rfl

theorem BodyStuck.ne_ok (h : BodyStuck t s.work) : body t s ≠ (.ok (), s') := by
  intro hok
  cases hb : t.method.blocks with
  | nil => simp [body, hb, bind_eq_ok_iff] at hok
  | cons b bs =>
    rw [body_cons hb] at hok
    simp only [allocateLabel, bind_eq_ok_iff] at hok
    obtain ⟨_, _, hexpect, _, _, ⟨_, _, hlabel, -⟩, -⟩ := hok
    obtain rfl := expect_ok hexpect
    obtain ⟨new, room, -⟩ := allocate_ok_iff.mp hlabel
    exact refuses_iff.mp (h b bs hb) ⟨new, room⟩

end SpirvKernel.Emission
