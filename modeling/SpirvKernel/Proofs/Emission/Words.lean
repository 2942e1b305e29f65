import SpirvKernel.Proofs.Emission.Function

/-!
# Emission in words

A method is put together from instructions and its phis are filled in by the places of their operands.
In words, an instruction is appended to its section, and an operand is filled in by overwriting the
word at its offset.
-/

namespace SpirvKernel

namespace Instruction

/-- How many words stand before an operand of an instruction. -/
def operandOffset (is : List Instruction) (n operand : Nat) : Nat :=
  (encodeAll (is.take n)).length + 1 + operand

theorem encode_set (i : Instruction) (operand : Nat) (w : Word) :
    encode { i with operands := i.operands.set operand w } = i.encode.set (operand + 1) w := by
  simp [encode, head, size]

/-- Setting an operand overwrites one word. -/
theorem encodeAll_modify {is : List Instruction} {n operand : Nat} {i : Instruction}
    (hi : is[n]? = some i) (hoperand : operand < i.operands.length) (w : Word) :
    encodeAll (is.modify n fun i => { i with operands := i.operands.set operand w }) =
      (encodeAll is).set (operandOffset is n operand) w := by
  induction is generalizing n with
  | nil => cases hi
  | cons j is ih =>
    cases n with
    | zero =>
      obtain rfl := Option.some.inj hi
      have hlt : operand + 1 < j.encode.length := Nat.succ_lt_succ hoperand
      rw [List.modify_zero_cons, encodeAll, encodeAll, List.flatMap_cons, List.flatMap_cons, encode_set,
        operandOffset, List.take_zero,
        List.set_append_left _ _ (by simpa [encodeAll, Nat.add_comm] using hlt)]
      simp [encodeAll, Nat.add_comm]
    | succ n =>
      have hoffset : operandOffset (j :: is) (n + 1) operand =
          j.encode.length + operandOffset is n operand := by
        simp [operandOffset, encodeAll, Nat.add_assoc]
      rw [List.modify_succ_cons, encodeAll, encodeAll, List.flatMap_cons, List.flatMap_cons, ← encodeAll,
        ← encodeAll, ih hi, hoffset, List.set_append_right _ _ (Nat.le_add_right _ _),
        Nat.add_sub_cancel_left]

theorem length_encodeAll_modify (is : List Instruction) (n operand : Nat) (w : Word) :
    (encodeAll (is.modify n fun i => { i with operands := i.operands.set operand w })).length =
      (encodeAll is).length := by
  induction is generalizing n with
  | nil => simp
  | cons j is ih =>
    cases n with
    | zero => simp [encodeAll, encode]
    | succ n => simpa [encodeAll] using ih n

end Instruction

open Instruction

namespace Pending

/-- The operand to fill in is there. -/
def IsIn (is : List Instruction) (p : Pending) : Prop :=
  ∃ i, is[p.instruction]? = some i ∧ p.operand < i.operands.length

def offset (is : List Instruction) (p : Pending) : Nat := operandOffset is p.instruction p.operand

/-- Overwrites the operand with the name of its value. -/
def patch (T : IdTable) (is : List Instruction) (words : Layout Word) (p : Pending) :
    Except Layout.Error (Layout Word) :=
  words.patch .functions (p.offset is) ((T.value? p.value).getD 0)

end Pending

namespace Emission

open Attempt

variable {t : Task} {s s' : Emission} {T : IdTable} {is : List Instruction} {p q : Pending}

/-! ## Appending -/

theorem emit_encode (l : Layout Instruction) (sec : Section) {op : Opcode} {ws : List Word}
    (fits : (Instruction.of op ws).Fits) :
    l.encode.emit sec op ws =
      .ok ((l.encode.get sec).length, (l.append sec [.of op ws]).encode) := by
  rw [Layout.emit, if_pos fits, Layout.encode_append]
  simp [encodeAll]

theorem emitTo_words {sec : Section} {op : Opcode} {ws : List Word}
    (h : emitTo sec op ws s = (.ok (), s')) :
    s.work.output.encode.emit sec op ws =
      .ok ((s.work.output.encode.get sec).length, s'.work.output.encode) := by
  obtain ⟨fits, rfl⟩ := emitTo_ok_iff.mp h
  exact emit_encode _ sec fits

theorem merge_words {u : Unit} (h : merge s = (.ok u, s')) :
    s'.target.encode = s.target.encode.merge s.work.output.encode := by
  simp only [merge, bind_eq_ok_iff, change_ok_iff] at h
  obtain ⟨_, _, hexpect, rfl⟩ := h
  obtain rfl := expect_ok hexpect
  exact Layout.encode_merge _ _

/-! ## Filling in -/

theorem encodeAll_fill (h : p.IsIn is) :
    encodeAll (fill T is p) = (encodeAll is).set (p.offset is) ((T.value? p.value).getD 0) := by
  obtain ⟨i, hi, hoperand⟩ := h
  exact encodeAll_modify hi hoperand _

theorem offset_fill : q.offset (fill T is p) = q.offset is := by
  rw [Pending.offset, operandOffset, fill, List.take_modify, length_encodeAll_modify]
  rfl

theorem isIn_fill (h : q.IsIn is) : q.IsIn (fill T is p) := by
  obtain ⟨i, hi, hoperand⟩ := h
  by_cases heq : p.instruction = q.instruction
  · refine ⟨{ i with operands := i.operands.set p.operand ((T.value? p.value).getD 0) }, ?_,
      by simpa using hoperand⟩
    rw [fill, heq, List.getElem?_modify_eq, hi]
    rfl
  · exact ⟨i, by rw [fill, List.getElem?_modify_ne _ _ heq, hi], hoperand⟩

theorem offset_lt (h : p.IsIn is) : p.offset is < (encodeAll is).length := by
  obtain ⟨i, hi, hoperand⟩ := h
  obtain ⟨hlt, rfl⟩ := List.getElem?_eq_some_iff.mp hi
  have hsplit := congrArg List.length (encodeAll_append (is.take p.instruction) (is.drop p.instruction))
  rw [List.take_append_drop, List.drop_eq_getElem_cons hlt, List.length_append] at hsplit
  simp only [encodeAll, List.flatMap_cons, encode, List.length_append, List.length_cons] at hsplit
  simp only [Pending.offset, operandOffset, encodeAll]
  omega

theorem patch_encode {l : Layout Instruction} (h : p.IsIn l.functions) :
    p.patch T l.functions l.encode = .ok (l.set .functions (fill T l.functions p)).encode := by
  have hlt : p.offset l.functions < (l.encode.get .functions).length := by
    rw [Layout.get_encode]
    exact offset_lt h
  rw [Pending.patch, Layout.patch, if_pos hlt]
  congr 1
  ext sec : 1
  by_cases hsec : sec = .functions
  · subst hsec
    simp only [Layout.get_set, Layout.get_encode, if_true, encodeAll_fill h]
    rfl
  · simp [hsec]

theorem foldlM_patch {ps : List Pending} {l : Layout Instruction} (h : ∀ p ∈ ps, p.IsIn l.functions) :
    ps.foldlM (Pending.patch T l.functions) l.encode =
      .ok (l.set .functions (ps.foldl (fill T) l.functions)).encode := by
  induction ps generalizing l with
  | nil => rfl
  | cons p ps ih =>
    -- Filling in keeps the sizes, so the offsets are those from the start.
    have hoffsets : Pending.patch T l.functions =
        Pending.patch T (l.set .functions (fill T l.functions p)).functions := by
      funext words q
      rw [Pending.patch, Pending.patch, ← offset_fill (T := T) (p := p)]
      rfl
    have hrest : ∀ q ∈ ps, q.IsIn (l.set .functions (fill T l.functions p)).functions :=
      fun q hq => isIn_fill (h q (List.mem_cons_of_mem p hq))
    rw [List.foldlM_cons, patch_encode (h p List.mem_cons_self)]
    exact (congrArg (ps.foldlM · _) hoffsets).trans (ih hrest)

/-! ## Phis -/

theorem Incoming.missing_lt {start : Nat} {incoming : List Incoming} {x : Nat × ValueId}
    (h : x ∈ missing start incoming) : x.1 < start + (incoming.flatMap draft).length := by
  induction incoming generalizing start with
  | nil => cases h
  | cons y incoming ih =>
    rw [List.flatMap_cons, List.length_append]
    have hdraft : y.draft.length = 2 := rfl
    unfold missing at h
    split at h
    · have := ih h
      omega
    · rcases List.mem_cons.mp h with rfl | h
      · show start < _
        omega
      · have := ih h
        omega

namespace Line

theorem missing_lt {l : Line} {x : Nat × ValueId} (h : x ∈ l.missing) :
    x.1 < l.draft.operands.length := by
  cases l with
  | plain i => cases h
  | phi type id incoming =>
    have := Incoming.missing_lt h
    simp only [draft, Instruction.of, List.length_cons]
    omega

theorem isIn_of_mem_pending {before : List Instruction} {ls : List Line}
    (h : p ∈ pending before.length ls) : p.IsIn (before ++ ls.map draft) := by
  induction ls generalizing before with
  | nil => cases h
  | cons l ls ih =>
    rcases List.mem_append.mp h with h | h
    · obtain ⟨x, hx, rfl⟩ := List.mem_map.mp h
      exact ⟨l.draft, by simp, missing_lt hx⟩
    · have hlength : before.length + 1 = (before ++ [l.draft]).length := by simp
      rw [hlength] at h
      simpa using ih h

end Line

/-- A body is appended with gaps, each gap is overwritten, and the end is emitted. -/
theorem body_words (pending : s.work.pending = []) (h : body t s = (.ok (), s')) :
    ∃ (ls : List Line) (words : Layout Word),
      (Line.pending s.work.output.functions.length ls).foldlM
          (Pending.patch s'.work.table (s.work.output.functions ++ ls.map Line.draft))
          (s.work.output.encode.append .functions (encodeAll (ls.map Line.draft))) = .ok words ∧
      words.emit .functions .functionEnd [] =
        .ok ((words.get .functions).length, s'.work.output.encode) := by
  -- The lines stand as drafts in `s₂`, right before the gaps are filled in.
  obtain ⟨s₁, s₂, x, rfl, labelled, ⟨ws, -, ls, run, -⟩, -, -⟩ := body_closed h
  have hpending : s₂.work.pending = Line.pending s.work.output.functions.length ls := by
    rw [run.advances.pending, labelled.same, pending]
    rfl
  have houtput : s₂.work.output = s.work.output.append .functions (ls.map Line.draft) := by
    rw [run.advances.output, labelled.same]
  have hfunctions : s₂.work.output.functions = s.work.output.functions ++ ls.map Line.draft := by
    rw [houtput]
    rfl
  let filled := s₂.work.output.set .functions
    (s₂.work.pending.foldl (fill s₂.work.table) s₂.work.output.functions)
  refine ⟨ls, filled.encode, ?_, emit_encode filled .functions (by decide)⟩
  rw [← Layout.encode_append, ← houtput, ← hfunctions, ← hpending]
  exact foldlM_patch fun p hp => hfunctions ▸ Line.isIn_of_mem_pending (hpending ▸ hp)

end Emission

end SpirvKernel
