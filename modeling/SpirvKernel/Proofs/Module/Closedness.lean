import SpirvKernel.Proofs.Emission.Memory

/-!
# Closed modules

Every identifier that an instruction of a module refers to is a result of the module. For the targets
of a switch this depends on how its literals are read. They are written for the type that the method
gives the selector, and read for the type under which the module defines it.
-/

namespace SpirvKernel

open Instruction Emission

/-! ## Reading the width of a switch -/

namespace Instruction

def isWideInt (i : Instruction) : Bool := i.code = Opcode.typeInt.code && i.operands[1]? = some 64

/-- Whether the module gives the first operand of an instruction an integer type of 64 bits. -/
def selectsWide (is : List Instruction) (i : Instruction) : Bool :=
  match i.operands with
  | selector :: _ =>
    match (definition? is selector).bind typed? with
    | some (type, _) => (definition? is type).any isWideInt
    | none => false
  | [] => false

theorem selectsWide_of {is : List Instruction} {op : Opcode} {u w w' : Word} {ws : List Word}
    {j k : Instruction} (hj : definition? is u = some j) (hjtyped : j.typed? = some (w, w'))
    (hk : definition? is w = some k) : selectsWide is (of op (u :: ws)) = k.isWideInt := by
  simp [selectsWide, of, hj, hjtyped, hk]

/-- The instruction stands in the block `b` of the method `m`, in the module of the program. -/
def StandsIn (p : Program) (is : List Instruction) (m : Method) (b : Block) (i : Instruction) : Prop :=
  ∃ f label code, (m, f) ∈ p.methods.zip (splitAtFunctions is).2 ∧
    (b, label, code) ∈ m.blocks.zip (splitAtLabels f).2 ∧ i ∈ code

end Instruction

/-- The literals of the switch are written for 64 bits exactly if its selector is not defined so. -/
def Method.MistypesSwitch (m : Method) (b : Block) : Prop :=
  ∃ x ∈ m.typings, b.terminator.selector? = some x.1 ∧
    (m.switchWidth? b.terminator = some .i64 ↔ x.2 ≠ .i64)

instance (m : Method) (b : Block) : Decidable (m.MistypesSwitch b) :=
  inferInstanceAs (Decidable (∃ x ∈ m.typings, _ ∧ _))

theorem Declaration.isWideInt_of_instruction? {look : Declaration → Option Id} {id : Id} {type : Ty}
    {k : Instruction} (h : (Declaration.ofType type).instruction? look id = some k) :
    k.isWideInt = decide (type = .i64) := by
  cases type with
  | void | bool | float => cases h; rfl
  | int w => cases h; cases w <;> rfl
  | vector | struct | pointer =>
    obtain ⟨_, -, h⟩ := Option.bind_eq_some_iff.mp h
    cases h; rfl
  | array =>
    obtain ⟨_, -, h⟩ := Option.bind_eq_some_iff.mp h
    obtain ⟨_, -, h⟩ := Option.bind_eq_some_iff.mp h
    cases h; rfl

/-! ## Blocks of a module -/

namespace Emission

variable {t : Task} {d : Dictionary}

theorem Text.Of.codes_in_pieces {r : IdRange} {w : Work} {x : Text} (h : Text.Of t d r w x) :
    List.Forall₂ (fun c q => ∀ i ∈ c.inner ++ [c.last], i ∈ q.2) x.codes
      (splitAtLabels x.functions).2 := by
  have pieces {bs : List Block} {cs : List Code} (codes : List.Forall₂ (Code.Of t d w.table) bs cs) :
      List.Forall₂ (fun c (q : Word × List Instruction) => ∀ i ∈ c.inner ++ [c.last], i ∈ q.2) cs
        (Instruction.splitAtLabels (cs.flatMap Code.toList ++ [.of .functionEnd []])).2 := by
    induction codes with
    | nil => exact .nil
    | cons code _ ih =>
      rw [List.flatMap_cons, List.append_assoc, code.splitAtLabels]
      exact .cons (fun i hi => List.mem_append_left _ hi) ih
  rw [Text.functions, Instruction.splitAtLabels, splitAtMarks_append h.label?_head]
  exact pieces h.codes

end Emission

namespace Parts

variable {p : Program} {entry : EntryPoint} {c : Parts}

theorem Of.standsIn (h : c.Of p entry) {m : Method} {x : Product} (hx : (m, x) ∈ p.methods.zip c.products)
    (hof : x.Of c.frame c.dictionary m) {b : Block} {code : Code}
    (hb : (b, code) ∈ m.blocks.zip x.text.codes) : StandsIn p (c.instructions entry) m b code.last := by
  obtain ⟨⟨label, piece⟩, hpiece, hcode⟩ := exists_zip_trans hof.text.codes_in_pieces hb
  refine ⟨x.text.functions, label, piece, ?_, hpiece, hcode _ (by simp)⟩
  rw [h.splitAtFunctions, List.zip_map_right]
  exact List.mem_map_of_mem (f := Prod.map id fun x => x.text.functions) hx

/-! ## What switches select by -/

/-- Literals of a switch are read for the type under which the method defines the selector. -/
theorem Of.selectsWide_eq (h : c.Of p entry) (nodup : (results (c.instructions entry)).Nodup) {m : Method}
    {x : Product} (hx : x ∈ c.products) (hof : x.Of c.frame c.dictionary m) {i : Instruction}
    {selector : ValueId} {u : Word} {ws : List Word} (hu : x.job.work.table.value? selector = some u)
    (hi : i = .of .switch (u :: ws)) :
    ∃ type, (selector, type) ∈ m.typings ∧
      selectsWide (c.instructions entry) i = decide (type = .i64) := by
  obtain ⟨g, sound⟩ := hof.sound
  obtain ⟨id, hid, rfl⟩ := Option.map_eq_some_iff.mp hu
  -- The selector is the result of `j`, whose type is that of one of its definitions.
  obtain ⟨type, q, htyping, hq, j, hj, hjtyped⟩ := sound.values selector id hid
  refine ⟨type, ?_, ?_⟩
  · rw [← hof.method]
    rcases List.mem_append.mp htyping with htyping | htyping
    · exact htyping
    · rw [hof.storage] at htyping
      exact Storage.typings_ofMethod htyping
  · obtain ⟨k, hk, hmade⟩ := h.sound.filed _ q hq
    have selected : definition? (c.instructions entry) id.word = some j := by
      refine definition?_eq_some nodup ?_ (result?_of_typed? hjtyped)
      rw [instructions_eq]
      rw [hof.text.output] at hj
      rcases List.mem_append.mp hj with hj | hj
      · exact List.mem_append_right _ (List.mem_append_left _ hj)
      · exact List.mem_append_right _ (List.mem_append_right _ (List.mem_flatMap.mpr ⟨x, hx, hj⟩))
    have declared : definition? (c.instructions entry) q.word = some k := by
      refine definition?_eq_some nodup ?_ (Declaration.instruction?_operands hmade).1
      rw [instructions_eq]
      exact List.mem_append_right _ (List.mem_append_left _ hk)
    rw [hi, selectsWide_of selected hjtyped declared, Declaration.isWideInt_of_instruction? hmade]

theorem Of.mentions_resolve (h : c.Of p entry) (distinct : (p.methods.map (·.id)).Nodup)
    (named : '\x00' ∉ entry.name.toList) {i : Instruction} (hi : i ∈ c.instructions entry) :
    (∀ w ∈ i.mentions (selectsWide (c.instructions entry) i), w ∈ results (c.instructions entry)) ∨
    ∃ m b, StandsIn p (c.instructions entry) m b i ∧ m.MistypesSwitch b ∧
      ∀ w ∈ i.mentions (!selectsWide (c.instructions entry) i), w ∈ results (c.instructions entry) := by
  -- The targets of a mistyped switch are found if its literals are read for the other width.
  rw [instructions_eq] at hi
  rcases List.mem_append.mp hi with hi | hi
  · exact .inl fun w hw => h.mentions_front named hi _ w hw
  rcases List.mem_append.mp hi with hi | hi
  · refine .inl fun w hw => ?_
    rw [h.sound.mentions i hi] at hw
    cases hw
  obtain ⟨x, hx, hi⟩ := List.mem_flatMap.mp hi
  obtain ⟨m, hmx, hof⟩ := exists_zip_of_forall₂ h.products hx
  -- References other than those of a switch do not depend on how literals are read.
  rcases hof.text.resolves hi with hall | ⟨b, code, selector, hb, rfl, selects⟩
  · exact .inl fun w hw => h.mem_of_refers hx (hall _ w hw)
  obtain ⟨u, ws, hu, hswitch⟩ := selects.operand
  obtain ⟨type, htyping, hread⟩ := h.selectsWide_eq (h.nodup_results distinct) hx hof hu hswitch
  have hwritten := selects.resolves
  rw [hof.method] at hb hwritten
  rw [hread]
  by_cases hsame : m.switchWidth? b.terminator = some .i64 ↔ type = .i64
  · exact .inl fun w hw => h.mem_of_refers hx (hwritten w (by rwa [decide_eq_decide.mpr hsame]))
  · have hother : m.switchWidth? b.terminator = some .i64 ↔ type ≠ .i64 := by tauto
    refine .inr ⟨m, b, h.standsIn hmx hof hb, ⟨_, htyping, selects.selected, hother⟩, fun w hw => ?_⟩
    exact h.mem_of_refers hx (hwritten w (by rwa [decide_eq_decide.mpr hother, decide_not]))

end Parts

/-- Every use is defined before it and every reference ahead is defined, but for mistyped switches. -/
theorem compile_references_defined {o : Options} {p : Program} {entry : EntryPoint} {m : Module}
    (distinct : (p.methods.map (·.id)).Nodup) (named : '\x00' ∉ entry.name.toList)
    (h : compile o p entry = .ok m) :
    ∃ is, decodeAll (m.words.drop Layout.headerSize) = (is, []) ∧
      ∀ before i after, is = before ++ i :: after →
        (∀ w ∈ i.uses, w ∈ results before) ∧
        ((∀ w ∈ i.mentions (selectsWide is i), w ∈ results is) ∨
          ∃ m b, StandsIn p is m b i ∧ m.MistypesSwitch b ∧
            ∀ w ∈ i.mentions (!selectsWide is i), w ∈ results is) := by
  obtain ⟨c, hof, hwords, -⟩ := compile_ok h
  refine ⟨c.instructions entry, ?_, fun before i after hsplit => ⟨fun w hw => ?_, ?_⟩⟩
  · rw [hwords]
    exact decodeAll_encodeAll _ hof.fits
  · have ordered := hof.ordered
    rw [hsplit] at ordered
    exact (ordered.uses_defined w hw).resolve_left List.not_mem_nil
  · refine hof.mentions_resolve distinct named ?_
    rw [hsplit]
    exact List.mem_append_right _ List.mem_cons_self

/-- A kernel that switches on a constant of 32 bits to which it gives a type of 64 bits. -/
def mismatch : Program where
  methods := [
    { id := ⟨0⟩, name := "pick", params := [], returnType := .void
      blocks := [
        { id := ⟨0⟩
          body := [⟨⟨0⟩, .i64, .constant (.ofWord 5)⟩]
          terminator := .switch ⟨0⟩ [(7, ⟨1⟩)] ⟨1⟩ },
        { id := ⟨1⟩, body := [], terminator := .ret none }] }]

def mismatchEntry : EntryPoint := { method := ⟨0⟩, name := "pick", rank := .one, groupSize := none }

theorem mismatch_target_undefined :
    (mismatch.methods.map (·.id)).Nodup ∧ '\x00' ∉ mismatchEntry.name.toList ∧
      ∃ m, compile {} mismatch mismatchEntry = .ok m ∧
        ∃ is, decodeAll (m.words.drop Layout.headerSize) = (is, []) ∧
          ∃ i ∈ is, (∃ w ∈ i.mentions (selectsWide is i), w ∉ results is) ∧
            ∃ m b, StandsIn mismatch is m b i ∧ m.MistypesSwitch b ∧
              ∀ w ∈ i.mentions (!selectsWide is i), w ∈ results is := by
  have distinct : (mismatch.methods.map (·.id)).Nodup := by decide
  have named : '\x00' ∉ mismatchEntry.name.toList := by decide
  obtain ⟨m, h, hm⟩ : ∃ m, compile {} mismatch mismatchEntry = .ok m ∧
      decide (∃ i ∈ (decodeAll (m.words.drop Layout.headerSize)).1,
        ∃ w ∈ i.mentions (selectsWide (decodeAll (m.words.drop Layout.headerSize)).1 i),
          w ∉ results (decodeAll (m.words.drop Layout.headerSize)).1) = true :=
    exists_ok_of_any (by decide +kernel)
  obtain ⟨is, hdecode, hall⟩ := compile_references_defined distinct named h
  obtain ⟨i, hi, w, hw, hundefined⟩ := of_decide_eq_true hm
  rw [hdecode] at hi hw hundefined
  obtain ⟨before, after, hsplit⟩ := List.append_of_mem hi
  refine ⟨distinct, named, m, h, is, hdecode, i, hi, ⟨w, hw, hundefined⟩, ?_⟩
  exact (hall before i after hsplit).2.resolve_left fun hdefined => hundefined (hdefined w hw)

end SpirvKernel
