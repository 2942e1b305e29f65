import SpirvKernel.Proofs.Emission.Method

/-!
# References that may look ahead

The incoming values of a phi, labels and callees may be defined after the instruction that refers to
them. In the final output each of them is the name of a value or block of the method, or a function of
the program.
-/

namespace SpirvKernel

open Instruction

theorem Opcode.format_computation {op : Opcode} (h : op.format false = .computation) (wide : Bool) :
    op.format wide = .computation := by
  cases op <;> first | exact h | cases h

namespace Emission

/-- The word stands for a value, a block or a function. -/
inductive Refers (t : Task) (T : IdTable) (w : Word) : Prop
  | value {v : ValueId} (h : T.value? v = some w)
  | label {b : BlockId} (h : T.label? b = some w)
  | function {m : MethodId} {f : Id} (h : t.frame.functions.get? m = some f) (hw : f.word = w)

/-- All that an instruction refers to ahead stands for something. -/
def Resolves (t : Task) (T : IdTable) (i : Instruction) (wide : Bool) : Prop :=
  ∀ w ∈ i.mentions wide, Refers t T w

variable {t : Task} {d : Dictionary} {T : IdTable}

theorem resolves_of_quiet {i : Instruction} {wide : Bool} (h : i.mentions wide = []) :
    Resolves t T i wide := by
  intro w hw
  rw [h] at hw
  cases hw

theorem resolves_computation {op : Opcode} (h : op.format false = .computation) {type id : Word}
    {ws : List Word} {wide : Bool} : Resolves t T (.of op (type :: id :: ws)) wide :=
  resolves_of_quiet (mentions_computation (op.format_computation h wide))

/-! ## Values -/

theorem mentions_functionCall (type id f : Word) (xs : List Word) (wide : Bool) :
    (Instruction.of .functionCall (type :: id :: f :: xs)).mentions wide = [f] := by
  simp [mentions, inSlot_of, Opcode.format, Format.read, -List.filterMap_map, filterMap_slot_map]

theorem mentions_extInst (type id set n : Word) (xs : List Word) (wide : Bool) :
    (Instruction.of .extInst (type :: id :: set :: n :: xs)).mentions wide = [] := by
  simp [mentions, inSlot_of, Opcode.format, Format.read, -List.filterMap_map, filterMap_slot_map]

theorem mentions_phi (type id : Word) (ws : List Word) (wide : Bool) :
    (Instruction.of .phi (type :: id :: ws)).mentions wide = ws := by
  simp [mentions, inSlot_of, Opcode.format, Format.read, -List.filterMap_map, filterMap_slot_map]

theorem Computes.resolves {type : Ty} {kind : ValueKind} {op : Opcode} {ws : List Word}
    {before : List Instruction} (h : Computes t d T type kind op ws before) {p id : Word}
    {wide : Bool} : Resolves t T (.of op (p :: id :: ws)) wide := by
  cases h with
  | binary select => exact resolves_computation (Opcode.OfOperator.binary select).computation
  | unary select => exact resolves_computation (Opcode.OfOperator.unary select).computation
  | compare _ select => exact resolves_computation (Opcode.OfOperator.compare select).computation
  | convert _ select => exact resolves_computation (Conversion.computation_of_between? select rfl)
  | toBool _ select => exact resolves_computation (Conversion.computation_of_between? select rfl)
  | callCore _ select => exact resolves_computation (Opcode.OfOperator.intrinsic select).computation
  | fromBool | select | elementAddress | fieldAddress | narrowGridIndex =>
    exact resolves_computation rfl
  | undef | load | extractField | gridIndex => exact resolves_of_quiet rfl
  | callExtended => exact resolves_of_quiet (mentions_extInst ..)
  | callMethod hf =>
    intro w hw
    rw [mentions_functionCall, List.mem_singleton] at hw
    exact .function hf hw.symm
  | phi hv hl =>
    intro w hw
    rw [mentions_phi, List.mem_flatMap] at hw
    obtain ⟨⟨v, b⟩, hvb, hw⟩ := hw
    obtain ⟨hv', hb'⟩ := List.of_mem_zip hvb
    simp only [List.mem_cons, List.not_mem_nil, or_false] at hw
    rcases hw with rfl | rfl
    · obtain ⟨x, -, hx⟩ := mem_of_mapM hv w hv'
      exact .value hx
    · obtain ⟨x, -, hx⟩ := mem_of_mapM hl w hb'
      exact .label hx

theorem Computes.quiet {type : Ty} {kind : ValueKind} {op : Opcode} {ws : List Word}
    {before : List Instruction} (h : Computes t d T type kind op ws before) : Quiet before := by
  cases h with
  | gridIndex => exact quiet_singleton fun _ => rfl
  | narrowGridIndex =>
    exact (quiet_singleton fun _ => rfl).append (quiet_singleton fun _ => rfl)
  | _ => exact quiet_nil

theorem Lowers.resolves {v : Value} {is : List Instruction} (h : Lowers t d T v is) :
    ∀ i ∈ is, ∀ wide, Resolves t T i wide := by
  intro i hi wide
  cases h with
  | constant | alloca => cases hi
  | store | barrier =>
    rw [List.mem_singleton.mp hi]
    exact resolves_of_quiet rfl
  | computed how =>
    rcases List.mem_append.mp hi with hi | hi
    · exact resolves_of_quiet (how.quiet i hi wide)
    · rw [List.mem_singleton.mp hi]
      exact how.resolves

/-! ## Terminators -/

theorem cycle_again (slot : Slot) (slots : List Slot) (ws : List Word) :
    Format.cycle (slot :: slots) [] ws = Format.cycle (slot :: slots) (slot :: slots) ws := by
  cases ws <;> rfl

theorem mentions_cases (width : IntWidth) (cases : List ((UInt64 × BlockId) × Word)) :
    (Format.cycle (Opcode.switch.format (width = .i64)).trailing
      (Opcode.switch.format (width = .i64)).trailing
      (cases.flatMap fun (c, target) => Word.ofCase width c.1 target)).filterMap
        (fun (s, w) => if s = .mention then some w else none) = cases.map Prod.snd := by
  induction cases with
  | nil => simp
  | cons c cases ih =>
    by_cases hw : width = .i64 <;>
      simpa [Word.ofCase, Word.ofLiteral, Opcode.format, hw, Format.cycle, cycle_again] using ih

theorem mentions_switch (x l : Word) (width : IntWidth) (cases : List ((UInt64 × BlockId) × Word)) :
    (Instruction.of .switch
      (x :: l :: cases.flatMap fun (c, target) => Word.ofCase width c.1 target)).mentions
        (width = .i64) = l :: cases.map Prod.snd := by
  have hread : ∀ ws, (Opcode.switch.format (width = .i64)).read (x :: l :: ws) = (.use, x) ::
      (.mention, l) :: Format.cycle (Opcode.switch.format (width = .i64)).trailing
        (Opcode.switch.format (width = .i64)).trailing ws := fun _ => rfl
  rw [mentions, inSlot_of, hread, List.filterMap_cons_none (by simp),
    List.filterMap_cons_some (b := l) (by simp), mentions_cases]

end Emission

def Terminator.selector? : Terminator → Option ValueId
  | .switch selector _ _ => some selector
  | _ => none

namespace Method

/-- The width for which the literals of a switch are written. -/
def switchWidth? (m : Method) : Terminator → Option IntWidth
  | .switch selector _ _ => (m.typeOf? selector).bind fun type =>
    match type.scalarClass with
    | .int width => some width
    | _ => none
  | _ => none

theorem switchWidth?_switch {m : Method} {selector : ValueId} {type : Ty} {width : IntWidth}
    (ht : m.typeOf? selector = some type) (hw : type.scalarClass = .int width)
    (cases : List (UInt64 × BlockId)) (default : BlockId) :
    m.switchWidth? (.switch selector cases default) = some width := by
  simp [switchWidth?, ht, hw]

theorem decide_switchWidth?_switch {m : Method} {selector : ValueId} {type : Ty} {width : IntWidth}
    (ht : m.typeOf? selector = some type) (hw : type.scalarClass = .int width)
    (cases : List (UInt64 × BlockId)) (default : BlockId) :
    decide (m.switchWidth? (.switch selector cases default) = some .i64) = decide (width = .i64) := by
  rw [switchWidth?_switch ht hw]
  simp

end Method

namespace Emission

structure Selects (t : Task) (T : IdTable) (x : Terminator) (selector : ValueId) (i : Instruction) :
    Prop where
  selected : x.selector? = some selector
  operand : ∃ u ws, T.value? selector = some u ∧ i = .of .switch (u :: ws)
  resolves : Resolves t T i (t.method.switchWidth? x = some .i64)

theorem LowersTerminator.resolves {x : Terminator} {i : Instruction} (h : LowersTerminator t T x i) :
    (∀ wide, Resolves t T i wide) ∨ ∃ selector, Selects t T x selector i := by
  cases h with
  | ret | retValue | unreachable => exact .inl fun _ => resolves_of_quiet rfl
  | @branch b l hl =>
    refine .inl fun wide w hw => ?_
    have hmentions : (Instruction.of .branch [l]).mentions wide = [l] := rfl
    rw [hmentions, List.mem_singleton] at hw
    exact .label (hw ▸ hl)
  | @condBranch cond thenBlock elseBlock c l m hc hl hm =>
    refine .inl fun wide w hw => ?_
    have hmentions : (Instruction.of .branchConditional [c, l, m]).mentions wide = [l, m] := rfl
    rw [hmentions, List.mem_cons, List.mem_singleton] at hw
    rcases hw with rfl | rfl
    · exact .label hl
    · exact .label hm
  | @switch selector cases default type width x l targets ht hw hx hl hc =>
    refine .inr ⟨selector, rfl, ⟨x, _, hx, rfl⟩, fun w hmem => ?_⟩
    rw [Method.decide_switchWidth?_switch ht hw, mentions_switch, List.mem_cons, List.mem_map] at hmem
    rcases hmem with rfl | ⟨⟨c, target⟩, hcase, rfl⟩
    · exact .label hl
    · obtain ⟨c', -, hlabel⟩ := mem_of_mapM hc target (List.of_mem_zip hcase).2
      exact .label hlabel

/-! ## The output of a method -/

/-- References ahead resolve if literals are read for the width they were written for. -/
theorem Text.Of.resolves {r : IdRange} {w : Work} {x : Text} (h : Text.Of t d r w x)
    {i : Instruction} (hi : i ∈ x.functions) :
    (∀ wide, Resolves t w.table i wide) ∨ ∃ b c selector, (b, c) ∈ t.method.blocks.zip x.codes ∧
      i = c.last ∧ Selects t w.table b.terminator selector i := by
  simp only [Text.functions, List.mem_append, List.mem_singleton, List.mem_flatMap] at hi
  rcases hi with hi | ⟨c, hc, hi⟩ | rfl
  · exact .inl fun wide => resolves_of_quiet (h.quiet i hi wide)
  · obtain ⟨b, hbc, code⟩ := exists_zip_of_forall₂ h.codes hc
    simp only [Code.toList, Code.inner, List.mem_cons, List.mem_append, List.not_mem_nil, or_false,
      List.mem_flatten] at hi
    rcases hi with rfl | (hi | ⟨is, his, hi⟩) | rfl
    · exact .inl fun _ => resolves_of_quiet rfl
    · exact .inl fun wide => resolves_of_quiet (code.first i hi wide)
    · obtain ⟨v, -, lowers⟩ := exists_left_of_forall₂ code.values his
      exact .inl (lowers.resolves i hi)
    · rcases code.last.resolves with hall | ⟨selector, selects⟩
      · exact .inl hall
      · exact .inr ⟨b, c, selector, hbc, rfl, selects⟩
  · exact .inl fun _ => resolves_of_quiet rfl

end Emission

end SpirvKernel
