import SpirvKernel.Proofs.Dictionary.Growth

/-!
# What a dictionary has declared

The results of the declarations ascend in the order of the declarations, below the next identifier of
the supply. Whatever is known, decorated or part of the interface is declared, and a declaration
uses only what was declared before it.
-/

namespace SpirvKernel

open Instruction

/-! ## The instruction of a key -/

namespace Declaration

variable {look : Declaration → Option Id} {id : Id} {key : Declaration} {i : Instruction}

/-- The instruction of a key uses nothing but identifiers of other keys. -/
theorem instruction?_operands (h : key.instruction? look id = some i) :
    i.result? = some id.word ∧ (∀ w ∈ i.uses, ∃ k x, look k = some x ∧ x.word = w) ∧
      ∀ wide, i.mentions wide = [] := by
  cases key with
  | type t =>
    cases t with
    | void | bool | int | float =>
      cases h
      simp [result?, uses, mentions, inSlot_of, Opcode.format, Format.read]
    | vector elem count =>
      simp only [instruction?, Option.bind_eq_bind, Option.bind_eq_some_iff, Option.pure_def,
        Option.some.injEq] at h
      obtain ⟨e, he, rfl⟩ := h
      simp only [result?, uses, mentions, inSlot_of, Opcode.format, Format.read]
      simpa using ⟨_, e, he, rfl⟩
    | array elem length =>
      simp only [instruction?, Option.bind_eq_bind, Option.bind_eq_some_iff, Option.pure_def,
        Option.some.injEq] at h
      obtain ⟨e, he, n, hn, rfl⟩ := h
      simp only [result?, uses, mentions, inSlot_of, Opcode.format, Format.read]
      simpa using ⟨⟨_, e, he, rfl⟩, ⟨_, n, hn, rfl⟩⟩
    | struct fields =>
      simp only [instruction?, Option.bind_eq_bind, Option.bind_eq_some_iff, Option.pure_def,
        Option.some.injEq] at h
      obtain ⟨ids, hids, rfl⟩ := h
      have hmem := mem_of_mapM hids
      simp only [result?, uses, mentions, inSlot_of, Opcode.format, Format.read]
      simp only [List.zip_cons_cons, List.length_cons, List.drop_succ_cons, Format.cycle_one]
      simp [List.filterMap_map, Function.comp_def]
      intro x hx
      obtain ⟨t, -, ht⟩ := hmem x hx
      exact ⟨_, x, ht, rfl⟩
    | pointer => cases h
  | pointer pointee storage =>
    simp only [instruction?, Option.bind_eq_bind, Option.bind_eq_some_iff, Option.pure_def,
      Option.some.injEq] at h
    obtain ⟨p, hp, rfl⟩ := h
    simp only [result?, uses, mentions, inSlot_of, Opcode.format, Format.read]
    simpa using ⟨_, p, hp, rfl⟩
  | constant c =>
    simp only [instruction?, Option.bind_eq_bind, Option.bind_eq_some_iff, Option.pure_def,
      Option.some.injEq] at h
    obtain ⟨t, ht, rfl⟩ := h
    cases c with
    | bool b =>
      cases b <;> simp only [Constant.opcode, Constant.literal, result?, uses, mentions, inSlot_of,
        Opcode.format, Format.read] <;> simpa using ⟨_, t, ht, rfl⟩
    | int w bits | float w bits =>
      simp only [Constant.opcode, Constant.literal, result?, uses, mentions, inSlot_of,
        Opcode.format, Format.read]
      simpa [List.filterMap_map, Function.comp_def] using ⟨_, t, ht, rfl⟩
    | null type =>
      simp only [Constant.opcode, Constant.literal, result?, uses, mentions, inSlot_of,
        Opcode.format, Format.read]
      simpa using ⟨_, t, ht, rfl⟩
  | signature result params =>
    simp only [instruction?, Option.bind_eq_bind, Option.bind_eq_some_iff, Option.pure_def,
      Option.some.injEq] at h
    obtain ⟨ids, hids, rfl⟩ := h
    have hmem := mem_of_mapM hids
    simp only [result?, uses, mentions, inSlot_of, Opcode.format, Format.read]
    simp [List.filterMap_map, Function.comp_def]
    intro x hx
    obtain ⟨t, -, ht⟩ := hmem x hx
    exact ⟨_, x, ht, rfl⟩
  | builtin b =>
    simp only [instruction?, Option.bind_eq_bind, Option.bind_eq_some_iff, Option.pure_def,
      Option.some.injEq] at h
    obtain ⟨p, hp, rfl⟩ := h
    simp only [result?, uses, mentions, inSlot_of, Opcode.format, Format.read]
    simpa using ⟨_, p, hp, rfl⟩

theorem instruction?_opcode (h : key.instruction? look id = some i) :
    ∃ op, i.opcode? = some op ∧ op.isDeclaration = true := by
  cases key with
  | type t =>
    cases t with
    | void | bool | int | float => cases h; exact ⟨_, opcode?_of _ _, rfl⟩
    | vector | struct =>
      obtain ⟨_, -, h⟩ := Option.bind_eq_some_iff.mp h
      cases h
      exact ⟨_, opcode?_of _ _, rfl⟩
    | array =>
      obtain ⟨_, -, h⟩ := Option.bind_eq_some_iff.mp h
      obtain ⟨_, -, h⟩ := Option.bind_eq_some_iff.mp h
      cases h
      exact ⟨_, opcode?_of _ _, rfl⟩
    | pointer => cases h
  | pointer | signature | builtin =>
    obtain ⟨_, -, h⟩ := Option.bind_eq_some_iff.mp h
    cases h
    exact ⟨_, opcode?_of _ _, rfl⟩
  | constant c =>
    obtain ⟨_, -, h⟩ := Option.bind_eq_some_iff.mp h
    cases h
    refine ⟨c.opcode, opcode?_of _ _, ?_⟩
    cases c with
    | bool b => cases b <;> rfl
    | int | float | null => rfl

theorem instruction?_mono {look' : Declaration → Option Id}
    (hl : ∀ k x, look k = some x → look' k = some x) (h : key.instruction? look id = some i) :
    key.instruction? look' id = some i := by
  have hall : ∀ (ts : List Ty) ids, (ts.mapM fun t => look (ofType t)) = some ids →
      (ts.mapM fun t => look' (ofType t)) = some ids :=
    fun ts ids => mapM_mono fun t x => hl (ofType t) x
  cases key with
  | type t =>
    cases t with
    | void | bool | int | float | pointer => exact h
    | vector elem count =>
      obtain ⟨e, he, h⟩ := Option.bind_eq_some_iff.mp h
      exact Option.bind_eq_some_iff.mpr ⟨e, hl _ e he, h⟩
    | array elem length =>
      obtain ⟨e, he, h⟩ := Option.bind_eq_some_iff.mp h
      obtain ⟨n, hn, h⟩ := Option.bind_eq_some_iff.mp h
      exact Option.bind_eq_some_iff.mpr ⟨e, hl _ e he, Option.bind_eq_some_iff.mpr ⟨n, hl _ n hn, h⟩⟩
    | struct fields =>
      obtain ⟨ids, hids, h⟩ := Option.bind_eq_some_iff.mp h
      exact Option.bind_eq_some_iff.mpr ⟨ids, hall fields ids hids, h⟩
  | signature result params =>
    obtain ⟨ids, hids, h⟩ := Option.bind_eq_some_iff.mp h
    exact Option.bind_eq_some_iff.mpr ⟨ids, hall (result :: params) ids hids, h⟩
  | pointer | constant | builtin =>
    obtain ⟨x, hx, h⟩ := Option.bind_eq_some_iff.mp h
    exact Option.bind_eq_some_iff.mpr ⟨x, hl _ x hx, h⟩

end Declaration

namespace Dictionary

variable {d d₁ d₂ : Dictionary} {i : Instruction} {is : List Instruction}

def Has (d : Dictionary) (w : Word) : Prop :=
  w ∈ results d.declarations ∨ ∃ k id, d.get? k = some id ∧ id.word = w

theorem result_mem_of_getLast? {x : Word} (h : d.declarations.getLast? = some i)
    (hi : i.result? = some x) : x ∈ results d.declarations :=
  mem_results.mpr ⟨i, List.mem_of_getLast? h, hi⟩

theorem Unnamed.operands (h : d.Unnamed i) : i.result? = some d.nextId.word ∧
    (∀ w ∈ i.uses, d.Has w) ∧ (∀ wide, i.mentions wide = []) ∧ i.Fits := by
  cases h with
  | array he hl =>
    have hlength := result_mem_of_getLast? hl rfl
    refine ⟨rfl, ?_, fun _ => rfl, fits_of _ (by simp [maxSize])⟩
    simp only [uses, inSlot_of, Opcode.format, Format.read]
    simpa using ⟨.inr ⟨_, _, he, rfl⟩, .inl hlength⟩
  | pointer ha =>
    have harray := result_mem_of_getLast? ha rfl
    refine ⟨rfl, ?_, fun _ => rfl, fits_of _ (by simp [maxSize])⟩
    simp only [uses, inSlot_of, Opcode.format, Format.read]
    simpa using .inl harray
  | @groupVariable pointer hp =>
    refine ⟨rfl, ?_, fun _ => rfl, fits_of _ (by simp [maxSize])⟩
    have hpointer : d.Has pointer.word := by
      rcases hp with ⟨pointee, hp⟩ | ⟨a, hp⟩
      · exact .inr ⟨_, _, hp, rfl⟩
      · exact .inl (result_mem_of_getLast? hp rfl)
    simp only [uses, inSlot_of, Opcode.format, Format.read]
    simpa using hpointer

structure AddsDeclarations (d d₁ : Dictionary) (is : List Instruction) : Prop where
  declarations : d₁.declarations = d.declarations ++ is
  ids : is = [] ∧ d.supply.next ≤ d₁.supply.next ∨
    ∃ i, is = [i] ∧ i.result? = some d.nextId.word ∧ d₁.supply.next = d.supply.next + 1
  limit : d.supply.next ≤ Supply.limit → d₁.supply.next ≤ Supply.limit
  fits : ∀ i ∈ is, i.Fits
  uses : ∀ i ∈ is, ∀ w ∈ i.uses, d.Has w
  mentions : ∀ i ∈ is, ∀ wide, i.mentions wide = []
  known : ∀ k id, d₁.get? k = some id →
    d.get? k = some id ∨ ∃ i ∈ is, k.instruction? d.get? id = some i
  annotations : ∀ i ∈ d₁.annotations, i ∈ d.annotations ∨
    ∃ w ∈ results is, ∃ a b, i = .of .decorate [w, a, b]
  interface : ∀ id ∈ d₁.interface, id ∈ d.interface ∨ id.word ∈ results is

theorem Step.addsDeclarations (h : Step d d₁) : ∃ is, AddsDeclarations d d₁ is := by
  cases h with
  | need c =>
    refine ⟨[], by simp, .inl ⟨rfl, Nat.le_refl _⟩, id, by simp, by simp, by simp, ?_, ?_, ?_⟩
    · intro k id hk; exact .inl hk
    · intro i hi; exact .inl hi
    · intro id hid; exact .inl hid
  | reserve n room =>
    refine ⟨[], by simp, .inl ⟨rfl, Nat.le_add_right _ _⟩, fun _ => room, by simp, by simp, by simp,
      ?_, ?_, ?_⟩
    · intro k id hk; exact .inl hk
    · intro i hi; exact .inl hi
    · intro id hid; exact .inl hid
  | @record key i new made fits room =>
    -- One declaration under its key. Only builtins are decorated and join the interface.
    obtain ⟨hr, hu, hm⟩ := Declaration.instruction?_operands made
    have hres : d.nextId.word ∈ results [i] := by simp [hr]
    refine ⟨[i], rfl, .inr ⟨i, rfl, hr, rfl⟩, fun _ => room, ?_, ?_, ?_, ?_, ?_, ?_⟩
    · simpa using fits
    · simpa using fun w hw => .inr (hu w hw)
    · simpa using hm
    · intro k id hk
      rw [get?_record] at hk
      by_cases hkey : k = key
      · rw [if_pos hkey] at hk
        cases hk
        exact .inr ⟨i, List.mem_singleton.mpr rfl, hkey ▸ made⟩
      · rw [if_neg hkey] at hk
        exact .inl hk
    · intro j hj
      rcases List.mem_append.mp hj with hj | hj
      · exact .inl hj
      · cases key with
        | builtin b =>
          rw [Declaration.notes, List.mem_singleton] at hj
          exact .inr ⟨_, hres, _, _, hj⟩
        | type | pointer | constant | signature => cases hj
    · intro id hid
      rcases List.mem_append.mp hid with hid | hid
      · exact .inl hid
      · cases key with
        | builtin b =>
          rw [Declaration.interface, List.mem_singleton] at hid
          rw [hid]; exact .inr hres
        | type | pointer | constant | signature => cases hid
  | @length word hword room =>
    refine ⟨[.of .specConstant [word.word, d.nextId.word, 1]], rfl, .inr ⟨_, rfl, rfl, rfl⟩,
      fun _ => room, ?_, ?_, ?_, ?_, ?_, ?_⟩
    · simpa using fits_of _ (by simp [maxSize])
    · simp only [List.mem_singleton, forall_eq, uses, inSlot_of, Opcode.format, Format.read]
      simpa using .inr ⟨_, _, hword, rfl⟩
    · simp only [List.mem_singleton, forall_eq]
      exact fun _ => rfl
    · intro k id hk; exact .inl hk
    · intro i hi
      rcases List.mem_append.mp hi with hi | hi
      · exact .inl hi
      · exact .inr ⟨_, List.mem_singleton.mpr rfl, _, _, List.mem_singleton.mp hi⟩
    · intro id hid; exact .inl hid
  | @unnamed i made room =>
    obtain ⟨hr, hu, hm, hf⟩ := made.operands
    refine ⟨[i], rfl, .inr ⟨i, rfl, hr, rfl⟩, fun _ => room, ?_, ?_, ?_, ?_, ?_, ?_⟩
    · simpa using hf
    · simpa using hu
    · simpa using hm
    · intro k id hk; exact .inl hk
    · intro i hi; exact .inl hi
    · intro id hid; exact .inl hid

/-! ## Identifiers in ascending order -/

/-- The declarations from `d` to `d₁` have the ascending identifiers `ids`, drawn in between. -/
structure Ascends (d d₁ : Dictionary) (is : List Instruction) (ids : List Id) : Prop where
  declarations : d₁.declarations = d.declarations ++ is
  results : results is = ids.map Id.word
  ordered : ids.Pairwise (·.number < ·.number)
  drawn : ∀ id ∈ ids, d.supply.next ≤ id.number ∧ id.number < d₁.supply.next
  supply : d.supply.next ≤ d₁.supply.next
  limit : d.supply.next ≤ Supply.limit → d₁.supply.next ≤ Supply.limit
  fits : ∀ i ∈ is, i.Fits

theorem Ascends.trans {js : List Instruction} {ids jds : List Id} (h : Ascends d d₁ is ids)
    (h₁ : Ascends d₁ d₂ js jds) : Ascends d d₂ (is ++ js) (ids ++ jds) where
  declarations := by rw [h₁.declarations, h.declarations, List.append_assoc]
  results := by rw [results_append, h.results, h₁.results, List.map_append]
  ordered := by
    rw [List.pairwise_append]
    refine ⟨h.ordered, h₁.ordered, fun a ha b hb => ?_⟩
    have := h.drawn a ha
    have := h₁.drawn b hb
    omega
  drawn := by
    intro id hid
    have := h.supply
    have := h₁.supply
    rcases List.mem_append.mp hid with hid | hid
    · have := h.drawn id hid; omega
    · have := h₁.drawn id hid; omega
  supply := Nat.le_trans h.supply h₁.supply
  limit hl := h₁.limit (h.limit hl)
  fits := by
    intro i hi
    rcases List.mem_append.mp hi with hi | hi
    · exact h.fits i hi
    · exact h₁.fits i hi

theorem AddsDeclarations.ascends (h : AddsDeclarations d d₁ is) : ∃ ids, Ascends d d₁ is ids := by
  rcases h.ids with ⟨rfl, hs⟩ | ⟨i, rfl, hi, hs⟩
  · exact ⟨[], h.declarations, rfl, .nil, by simp, hs, h.limit, by simp⟩
  · refine ⟨[d.nextId], h.declarations, by simp [hi], by simp, ?_, by omega, h.limit, h.fits⟩
    simp only [List.mem_singleton, forall_eq, nextId]
    omega

theorem Steps.ascends (h : Steps d d₁) : ∃ is ids, Ascends d d₁ is ids := by
  induction h with
  | refl => exact ⟨[], [], by simp, rfl, .nil, by simp, Nat.le_refl _, id, by simp⟩
  | tail _ hs ih =>
    obtain ⟨is, ids, ha⟩ := ih
    obtain ⟨js, hadds⟩ := hs.addsDeclarations
    obtain ⟨jds, hb⟩ := hadds.ascends
    exact ⟨is ++ js, ids ++ jds, ha.trans hb⟩

theorem Steps.results_subset (h : Steps d d₁) {w : Word} (hw : w ∈ results d.declarations) :
    w ∈ results d₁.declarations := by
  obtain ⟨is, ids, ha⟩ := h.ascends
  rw [ha.declarations, results_append]
  exact List.mem_append_left _ hw

/-! ## Everything is declared -/

structure Sound (d : Dictionary) : Prop where
  /-- What is known is declared by the instruction of its key. -/
  filed : ∀ k id, d.get? k = some id → ∃ i ∈ d.declarations, k.instruction? d.get? id = some i
  ordered : Scoped [] d.declarations
  mentions : ∀ i ∈ d.declarations, ∀ wide, i.mentions wide = []
  annotations : ∀ i ∈ d.annotations, ∃ w ∈ results d.declarations, ∃ a b,
    i = .of .decorate [w, a, b]
  interface : ∀ id ∈ d.interface, id.word ∈ results d.declarations

theorem sound_new (supply : Supply) : Sound (.new supply) := by
  refine ⟨?_, trivial, ?_, ?_, ?_⟩ <;> simp [new, get?]

theorem Sound.known (h : Sound d) {k : Declaration} {id : Id} (hk : d.get? k = some id) :
    id.word ∈ results d.declarations := by
  obtain ⟨i, hi, hmade⟩ := h.filed k id hk
  exact mem_results.mpr ⟨i, hi, (Declaration.instruction?_operands hmade).1⟩

theorem Sound.mem_of_has (h : Sound d) {w : Word} (hw : d.Has w) : w ∈ results d.declarations := by
  rcases hw with hw | ⟨k, id, hk, rfl⟩
  · exact hw
  · exact h.known hk

theorem AddsDeclarations.sound (h : AddsDeclarations d d₁ is) (hsteps : Steps d d₁) (hd : Sound d) :
    Sound d₁ := by
  have hold : ∀ w ∈ results d.declarations, w ∈ results d₁.declarations := by
    intro w hw
    rw [h.declarations, results_append]
    exact List.mem_append_left _ hw
  have hnew : ∀ w ∈ results is, w ∈ results d₁.declarations := by
    intro w hw
    rw [h.declarations, results_append]
    exact List.mem_append_right _ hw
  refine ⟨?_, ?_, ?_, ?_, ?_⟩
  · intro k id hk
    have hmono : ∀ k' x, d.get? k' = some x → d₁.get? k' = some x := fun _ _ => hsteps.get?
    rw [h.declarations]
    rcases h.known k id hk with hk | ⟨i, hi, hmade⟩
    · obtain ⟨i, hi, hmade⟩ := hd.filed k id hk
      exact ⟨i, List.mem_append_left _ hi, Declaration.instruction?_mono hmono hmade⟩
    · exact ⟨i, List.mem_append_right _ hi, Declaration.instruction?_mono hmono hmade⟩
  · rw [h.declarations, scoped_append]
    refine ⟨hd.ordered, ?_⟩
    have huses : ∀ i ∈ is, ∀ w ∈ i.uses, w ∈ [] ++ results d.declarations := by
      intro i hi w hw
      exact hd.mem_of_has (h.uses i hi w hw)
    rcases h.ids with ⟨rfl, -⟩ | ⟨i, rfl, -, -⟩
    · trivial
    · exact ⟨huses i List.mem_cons_self, trivial⟩
  · intro i hi
    rw [h.declarations] at hi
    rcases List.mem_append.mp hi with hi | hi
    · exact hd.mentions i hi
    · exact h.mentions i hi
  · intro i hi
    rcases h.annotations i hi with hi | ⟨w, hw, a, b, rfl⟩
    · obtain ⟨w, hw, a, b, rfl⟩ := hd.annotations i hi
      exact ⟨w, hold w hw, a, b, rfl⟩
    · exact ⟨w, hnew w hw, a, b, rfl⟩
  · intro id hid
    rcases h.interface id hid with hid | hid
    · exact hold _ (hd.interface id hid)
    · exact hnew _ hid

theorem Steps.sound (h : Steps d d₁) (hd : Sound d) : Sound d₁ := by
  induction h with
  | refl => exact hd
  | tail _ hs ih =>
    obtain ⟨is, hadds⟩ := hs.addsDeclarations
    exact hadds.sound hs.steps ih

end Dictionary

end SpirvKernel
