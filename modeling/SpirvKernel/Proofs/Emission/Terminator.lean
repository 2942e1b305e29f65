import SpirvKernel.Proofs.Emission.Effect

/-!
# What terminators become

The instruction that a terminator stands for, given the final names of the method. Emission of a
terminator writes it.
-/

namespace SpirvKernel

open Instruction Attempt

/-- A case of a switch: the literal, cut to the width of the selector, and the label. -/
def Word.ofCase (width : IntWidth) (literal : UInt64) (target : Word) : List Word :=
  Word.ofLiteral (literal &&& width.mask) (width = .i64) ++ [target]

namespace Emission

inductive LowersTerminator (t : Task) (T : IdTable) : Terminator → Instruction → Prop
  | ret : LowersTerminator t T (.ret none) (.of .ret [])
  | retValue {v : ValueId} {x : Word} (hx : T.value? v = some x) :
    LowersTerminator t T (.ret (some v)) (.of .retValue [x])
  | branch {b : BlockId} {l : Word} (hl : T.label? b = some l) :
    LowersTerminator t T (.branch b) (.of .branch [l])
  | condBranch {cond : ValueId} {thenBlock elseBlock : BlockId} {c l m : Word}
      (hc : T.value? cond = some c) (hl : T.label? thenBlock = some l)
      (hm : T.label? elseBlock = some m) :
    LowersTerminator t T (.condBranch cond thenBlock elseBlock) (.of .branchConditional [c, l, m])
  | switch {selector : ValueId} {cases : List (UInt64 × BlockId)} {default : BlockId} {type : Ty}
      {width : IntWidth} {x l : Word} {targets : List Word}
      (ht : t.method.typeOf? selector = some type) (hw : type.scalarClass = .int width)
      (hx : T.value? selector = some x) (hl : T.label? default = some l)
      (hc : cases.mapM (fun c => T.label? c.2) = some targets) :
    LowersTerminator t T (.switch selector cases default) (.of .switch
      (x :: l :: (cases.zip targets).flatMap fun (c, target) => Word.ofCase width c.1 target))
  | unreachable : LowersTerminator t T .unreachable (.of .unreachable [])

variable {t : Task} {s s' : Emission}

theorem switchCases_ok {width : IntWidth} {cases : List (UInt64 × BlockId)} {ws : List Word}
    (h : switchCases width cases s = (.ok ws, s')) :
    s' = s ∧ ∃ targets, cases.mapM (fun c => s.work.table.label? c.2) = some targets ∧
      ws = (cases.zip targets).flatMap fun (c, target) => Word.ofCase width c.1 target := by
  induction cases generalizing ws s' with
  | nil =>
    obtain ⟨rfl, rfl⟩ := pure_ok_iff.mp h
    exact ⟨rfl, [], rfl, rfl⟩
  | cons c cases ih =>
    obtain ⟨literal, target⟩ := c
    simp only [switchCases, bind_eq_ok_iff, label_ok_iff, pure_ok_iff] at h
    obtain ⟨l, _, ⟨hl, rfl⟩, rest, _, hrest, rfl, rfl⟩ := h
    obtain ⟨rfl, targets, htargets, rfl⟩ := ih hrest
    exact ⟨rfl, l :: targets, mapM_cons_some_iff.mpr ⟨l, targets, hl, htargets, rfl⟩,
      by simp [Word.ofCase]⟩

theorem result?_switch (x l : Word) (ws : List Word) :
    (Instruction.of .switch (x :: l :: ws)).result? = none := by
  simp [result?, inSlot_of, Opcode.format, Format.read, filterMap_slot_cycle]

theorem uses_switch (x l : Word) (ws : List Word) :
    (Instruction.of .switch (x :: l :: ws)).uses = [x] := by
  simp [uses, inSlot_of, Opcode.format, Format.read, filterMap_slot_cycle]

theorem emitTerminator_wrote {x : Terminator} (h : emitTerminator t x s = (.ok (), s')) :
    Wrote t s [] (fun _ T is => ∃ i, is = [i] ∧ LowersTerminator t T x i) s' := by
  -- Every terminator is one instruction without a result.
  have wrote : ∀ {op ws}, (Instruction.of op ws).result? = none →
      (Instruction.of op ws).opens = false →
      (∀ w ∈ (Instruction.of op ws).uses, Available t s w) → emit op ws s = (.ok (), s') →
      (∀ T, s.work.table.Within T → LowersTerminator t T x (.of op ws)) →
      Wrote t s [] (fun _ T is => ∃ i, is = [i] ∧ LowersTerminator t T x i) s' := by
    intro op ws silent inner uses h ends
    have run := emit_effect silent inner uses h
    exact run.wrote [.of op ws] fun _ T _ hT => ⟨_, rfl, ends T (run.advances.names.trans hT)⟩
  cases x with
  | ret v =>
    cases v with
    | none =>
      exact wrote rfl rfl (by simp [uses, inSlot_of, Opcode.format, Format.read]) h
        fun _ _ => .ret
    | some v =>
      simp only [emitTerminator, bind_eq_ok_iff, operand_ok_iff] at h
      obtain ⟨x, _, ⟨hx, rfl⟩, h⟩ := h
      refine wrote rfl rfl ?_ h fun T hT => .retValue (hT.value? hx)
      simpa [uses, inSlot_of, Opcode.format, Format.read] using .value hx
  | branch target =>
    simp only [emitTerminator, bind_eq_ok_iff, label_ok_iff] at h
    obtain ⟨l, _, ⟨hl, rfl⟩, h⟩ := h
    refine wrote rfl rfl ?_ h fun T hT => .branch (hT.label? hl)
    simp [uses, inSlot_of, Opcode.format, Format.read]
  | condBranch cond thenBlock elseBlock =>
    simp only [emitTerminator, bind_eq_ok_iff, operand_ok_iff, label_ok_iff] at h
    obtain ⟨c, _, ⟨hc, rfl⟩, l, _, ⟨hl, rfl⟩, m, _, ⟨hm, rfl⟩, h⟩ := h
    refine wrote rfl rfl ?_ h fun T hT => .condBranch (hT.value? hc) (hT.label? hl) (hT.label? hm)
    simpa [uses, inSlot_of, Opcode.format, Format.read] using .value hc
  | switch selector cases default =>
    simp only [emitTerminator, bind_eq_ok_iff, typeOf_ok_iff] at h
    obtain ⟨type, _, ⟨ht, rfl⟩, h⟩ := h
    cases hw : type.scalarClass with
    | int width =>
      simp only [hw, bind_eq_ok_iff, operand_ok_iff, label_ok_iff] at h
      obtain ⟨x, _, ⟨hx, rfl⟩, l, _, ⟨hl, rfl⟩, ws, _, hcases, h⟩ := h
      obtain ⟨rfl, targets, htargets, rfl⟩ := switchCases_ok hcases
      refine wrote (result?_switch _ _ _) rfl ?_ h fun T hT => .switch ht hw (hT.value? hx) (hT.label? hl)
        (mapM_mono (fun _ _ => hT.label?) htargets)
      rw [uses_switch]
      simpa using .value hx
    | bool | float | pointer | other => simp [hw] at h
  | unreachable =>
    exact wrote rfl rfl (by simp [uses, inSlot_of, Opcode.format, Format.read]) h
      fun _ _ => .unreachable

end Emission

end SpirvKernel
