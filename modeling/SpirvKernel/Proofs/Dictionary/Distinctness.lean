import Mathlib.Data.List.Nodup
import SpirvKernel.Proofs.Dictionary.Filing
import SpirvKernel.Proofs.Dictionary.Reading

/-!
# Nothing is declared twice

No two types or constants of a dictionary are written alike, apart from their identifiers. A request
that was answered before is answered again without any change, and the size of the dictionary is the
number of declarations that were made under a key.
-/

namespace SpirvKernel

open Instruction

/-! ## Instructions apart from their results -/

/-- The opcodes of types and constants. -/
def Opcode.isShared : Opcode → Bool
  | .typeVoid | .typeBool | .typeInt | .typeFloat | .typeVector | .typeArray | .typeStruct
  | .typePointer | .typeFunction | .constantTrue | .constantFalse | .constant | .constantNull => true
  | _ => false

namespace Instruction

def isShared (i : Instruction) : Bool := i.opcode?.any Opcode.isShared

@[simp] theorem isShared_of (op : Opcode) (ws : List Word) :
    (of op ws).isShared = op.isShared := by
  simp [isShared]

/-- The instruction without the operand that is its result. -/
def nameless (i : Instruction) : Instruction :=
  match i.opcode? with
  | some op => { i with operands := i.operands.eraseIdx ((op.format false).leading.idxOf .result) }
  | none => i

/-- The same instruction with another result. -/
inductive Renamed : Instruction → Instruction → Prop
  | first {op : Opcode} {slots : List Slot} (hop : op.isShared)
      (hl : (op.format false).leading = .result :: slots) (a b : Word) (ws : List Word) :
      Renamed (.of op (a :: ws)) (.of op (b :: ws))
  | second {op : Opcode} (hop : op.isShared) (hl : (op.format false).leading = [.use, .result])
      (a b t : Word) (ws : List Word) : Renamed (.of op (t :: a :: ws)) (.of op (t :: b :: ws))

variable {i j : Instruction}

theorem format_of_isShared {op : Opcode} (h : op.isShared) : (op.format false).text = false ∧
    ((∃ slots, (op.format false).leading = .result :: slots) ∨
      (op.format false).leading = [.use, .result]) := by
  unfold Opcode.isShared at h
  split at h
  case h_14 => cases h
  all_goals first | exact ⟨rfl, .inl ⟨_, rfl⟩⟩ | exact ⟨rfl, .inr rfl⟩

theorem exists_of_isShared (h : i.isShared) : ∃ op ws, op.isShared ∧ i = .of op ws := by
  obtain ⟨op, hop, hs⟩ := (Option.any_eq_true _ _).mp h
  unfold opcode? Opcode.ofCode? at hop
  have hcode : op.code = i.code := by simpa using List.find?_some hop
  exact ⟨op, i.operands, hs, by rw [of, hcode]⟩

theorem nameless_of (op : Opcode) (ws : List Word) :
    (of op ws).nameless = .of op (ws.eraseIdx ((op.format false).leading.idxOf .result)) := by
  rw [nameless, opcode?_of]
  rfl

theorem code_nameless (i : Instruction) : i.nameless.code = i.code := by
  unfold nameless
  split <;> rfl

theorem renamed_of_nameless {a b : Word} (hs : i.isShared) (hi : i.result? = some a)
    (hj : j.result? = some b) (h : i.nameless = j.nameless) : Renamed i j := by
  obtain ⟨op, ws, hop, rfl⟩ := exists_of_isShared hs
  have hcode : j.code = op.code := by rw [← code_nameless j, ← h, code_nameless]; rfl
  obtain ⟨vs, rfl⟩ : ∃ vs, j = .of op vs := ⟨j.operands, by rw [of, ← hcode]⟩
  rw [nameless_of, nameless_of] at h
  obtain ⟨ht, ⟨slots, hl⟩ | hl⟩ := format_of_isShared hop <;>
    simp only [result?, inSlot_of, Format.read, hl, ht] at hi hj <;> rw [hl] at h
  · obtain _ | ⟨a', ws⟩ := ws
    · simp at hi
    obtain _ | ⟨b', vs⟩ := vs
    · simp at hj
    obtain rfl : ws = vs := by simpa [of] using h
    exact .first hop hl a' b' ws
  · obtain _ | ⟨t, _ | ⟨a', ws⟩⟩ := ws
    · simp at hi
    · simp at hi
    obtain _ | ⟨u, _ | ⟨b', vs⟩⟩ := vs
    · simp at hj
    · simp at hj
    obtain ⟨rfl, rfl⟩ : t = u ∧ ws = vs := by simpa [of, List.idxOf_cons] using h
    exact .second hop hl a' b' t ws

theorem Renamed.isShared (h : Renamed i j) : j.isShared := by
  cases h with
  | first hop | second hop => simpa [Instruction.isShared] using hop

theorem Renamed.uses (h : Renamed i j) : i.uses = j.uses := by
  cases h with
  | first hop hl a b ws => simp [Instruction.uses, inSlot_of, Format.read, hl]
  | second hop hl a b t ws => simp [Instruction.uses, inSlot_of, Format.read, hl]

theorem Renamed.meaning (h : Renamed i j) (see : Word → Option Meaning) :
    Meaning.ofInstruction? see i = Meaning.ofInstruction? see j := by
  cases h with
  | @first op slots hop hl a b ws =>
    simp only [Meaning.ofInstruction?, of, Opcode.ofCode?_code]
    unfold Opcode.isShared at hop
    split at hop
    case h_14 => cases hop
    all_goals first | cases hl; done |
      rcases ws with _ | ⟨x, _ | ⟨y, _ | ⟨z, ws⟩⟩⟩ <;>
        first | rfl | by_cases hy : y = 0 <;> simp [hy]
  | @second op hop hl a b t ws =>
    simp only [Meaning.ofInstruction?, of, Opcode.ofCode?_code]
    unfold Opcode.isShared at hop
    split at hop
    case h_14 => cases hop
    all_goals first | cases hl; done | rcases ws with _ | ⟨x, ws⟩ <;> rfl

theorem Scoped.mem_of_uses {known : List Word} {is : List Instruction} (h : Scoped known is) :
    ∀ i ∈ is, ∀ w ∈ i.uses, w ∈ known ++ results is := by
  induction is generalizing known with
  | nil => nofun
  | cons j is ih =>
    obtain ⟨hj, hrest⟩ := h
    intro i hi w hw
    rw [results_cons, ← List.append_assoc]
    rcases List.mem_cons.mp hi with rfl | hi
    · exact List.mem_append_left _ (List.mem_append_left _ (hj w hw))
    · exact ih hrest i hi w hw

end Instruction

/-! ## Keys apart -/

namespace Declaration

variable {k k' : Declaration} {i j : Instruction} {id id' : Id}

theorem meaning?_inj {x : Meaning} (hk : k.Regular) (hk' : k'.Regular) (h : k.meaning? = some x)
    (h' : k'.meaning? = some x) : k = k' := by
  rw [← h'] at h
  cases k with
  | constant b =>
    cases k' with
    | constant c =>
      simp only [meaning?, Option.some.injEq, Meaning.constant.injEq] at h
      rw [Regular] at hk hk'
      obtain ⟨htype, hspelled⟩ := h
      rw [← hk, ← hk', Constant.spelled?_truncate, Constant.spelled?_truncate] at hspelled
      rw [← hk, ← hk', Constant.truncate_eq_of htype hspelled]
    | type | pointer | signature | builtin => simp [meaning?] at h
  | type | pointer | signature => cases k' <;> first | (cases h; rfl) | cases h
  | builtin => rw [← h] at h'; cases h'

theorem isShared_of_meaning? {look : Declaration → Option Id}
    (h : k.instruction? look id = some i) (hs : i.isShared) : ∃ x, k.meaning? = some x := by
  cases k with
  | builtin b =>
    obtain ⟨p, -, h⟩ := Option.bind_eq_some_iff.mp h
    cases h
    cases hs
  | type | pointer | constant | signature => exact ⟨_, rfl⟩

end Declaration

namespace Dictionary

variable {d d₁ : Dictionary} {i j : Instruction} {key k k' : Declaration} {id id' : Id} {w : Word}

/-- Of two keys, each is written in its own way. -/
theorem key_eq_of_nameless (hd : d.Readable) (hk : k.Regular) (hk' : k'.Regular)
    (hi : k.instruction? d.get? id = some i) (hj : k'.instruction? d.get? id' = some j)
    (hs : i.isShared) (h : i.nameless = j.nameless) : k = k' := by
  have renamed := renamed_of_nameless hs (Declaration.instruction?_operands hi).1
    (Declaration.instruction?_operands hj).1 h
  obtain ⟨x, hx⟩ := Declaration.isShared_of_meaning? hi hs
  obtain ⟨y, hy⟩ := Declaration.isShared_of_meaning? hj renamed.isShared
  have hread := Declaration.ofInstruction?_of hd.known hi hx
  rw [renamed.meaning, Declaration.ofInstruction?_of hd.known hj hy] at hread
  cases hread
  exact Declaration.meaning?_inj hk hk' hx hy

/-! ## Dictionaries in order -/

theorem Step.extends (h : Step d d₁) : d₁.declarations = d.declarations ∨
    ∃ i, d₁.declarations = d.declarations ++ [i] ∧ i.result? = some d.nextId.word ∧
      d.supply.next + 1 ≤ Supply.limit := by
  cases h with
  | need | reserve => exact .inl rfl
  | record _ made _ room =>
    exact .inr ⟨_, rfl, (Declaration.instruction?_operands made).1, room⟩
  | length _ room => exact .inr ⟨_, rfl, rfl, room⟩
  | unnamed made room => exact .inr ⟨_, rfl, made.operands.1, room⟩

theorem Step.files (h : Step d d₁) : d₁.known = d.known ∨
    ∃ key, d₁.known = (key, d.nextId) :: d.known ∧ d.get? key = none ∧
      d.supply.next + 1 ≤ Supply.limit := by
  cases h with
  | need | reserve | length | unnamed => exact .inl rfl
  | record new _ _ room => exact .inr ⟨_, rfl, new, room⟩

theorem Readable.nextId_not_mem (hd : d.Readable) (room : d.supply.next + 1 ≤ Supply.limit) :
    d.nextId.word ∉ results d.declarations := by
  intro h
  have := hd.below _ h
  rw [toNat_nextId room] at this
  omega

/-- No identifier is given twice and no key is filed twice. -/
structure Orderly (d : Dictionary) : Prop where
  sound : d.Sound
  readable : d.Readable
  named : ∀ i ∈ d.declarations, ∃ w, i.result? = some w
  distinct : (results d.declarations).Nodup
  keys : (d.known.map Prod.fst).Nodup
  ids : (d.known.map (·.2.word)).Nodup

theorem mem_known_iff (hd : (d.known.map Prod.fst).Nodup) :
    (k, id) ∈ d.known ↔ d.get? k = some id := by
  have mem_of_get? : ∀ {x}, d.get? k = some x → (k, x) ∈ d.known := by
    intro x hx
    obtain ⟨l, r, h, -⟩ := List.lookup_eq_some_iff.mp hx
    rw [h]
    exact List.mem_append_right _ List.mem_cons_self
  refine ⟨fun h => ?_, mem_of_get?⟩
  have hsome : (d.get? k).isSome := List.lookup_isSome_iff.mpr ⟨_, h, beq_self_eq_true k⟩
  obtain ⟨x, hx⟩ := Option.isSome_iff_exists.mp hsome
  cases List.inj_on_of_nodup_map hd h (mem_of_get? hx) rfl
  exact hx

theorem orderly_new (supply : Supply) : (new supply).Orderly :=
  ⟨sound_new supply, readable_new supply, nofun, .nil, .nil, .nil⟩

theorem Step.orderly (h : Step d d₁) (hd : d.Orderly) : d₁.Orderly := by
  refine ⟨h.steps.sound hd.sound, h.readable hd.readable, ?_, ?_, ?_, ?_⟩
  · rcases h.extends with hsame | ⟨i, hnew, hi, -⟩
    · rw [hsame]; exact hd.named
    · rw [hnew]
      intro j hj
      rcases List.mem_append.mp hj with hj | hj
      · exact hd.named j hj
      · exact ⟨_, List.mem_singleton.mp hj ▸ hi⟩
  · rcases h.extends with hsame | ⟨i, hnew, hi, room⟩
    · rw [hsame]; exact hd.distinct
    · rw [hnew, results_append, List.nodup_append]
      refine ⟨hd.distinct, by simp [hi], fun a ha b hb => ?_⟩
      obtain rfl : b = d.nextId.word := by simpa [hi] using hb
      rintro rfl
      exact hd.readable.nextId_not_mem room ha
  · rcases h.files with hsame | ⟨key, hnew, new, -⟩
    · rw [hsame]; exact hd.keys
    · rw [hnew, List.map_cons, List.nodup_cons]
      refine ⟨fun hmem => ?_, hd.keys⟩
      obtain ⟨⟨k, id⟩, hk, rfl⟩ := List.mem_map.mp hmem
      rw [(mem_known_iff hd.keys).mp hk] at new
      cases new
  · rcases h.files with hsame | ⟨key, hnew, -, room⟩
    · rw [hsame]; exact hd.ids
    · rw [hnew, List.map_cons, List.nodup_cons]
      refine ⟨fun hmem => ?_, hd.ids⟩
      obtain ⟨⟨k, id⟩, hk, hword⟩ := List.mem_map.mp hmem
      refine hd.readable.nextId_not_mem room ?_
      rw [← hword]
      exact hd.sound.known ((mem_known_iff hd.keys).mp hk)

theorem Steps.orderly (h : Steps d d₁) (hd : d.Orderly) : d₁.Orderly := by
  induction h with
  | refl => exact hd
  | tail _ hs ih => exact hs.orderly ih

/-! ## Declarations made under a key -/

/-- Whether an instruction declares a key that is known. -/
def isKeyed (d : Dictionary) (i : Instruction) : Bool :=
  d.known.any fun (key, id) => key.instruction? d.get? id = some i

theorem Orderly.isKeyed_iff (hd : d.Orderly) :
    d.isKeyed i = true ↔ ∃ k id, d.get? k = some id ∧ k.instruction? d.get? id = some i := by
  rw [isKeyed, List.any_eq_true]
  constructor
  · rintro ⟨⟨k, id⟩, hk, hi⟩
    exact ⟨k, id, (mem_known_iff hd.keys).mp hk, of_decide_eq_true hi⟩
  · rintro ⟨k, id, hk, hi⟩
    exact ⟨⟨k, id⟩, (mem_known_iff hd.keys).mpr hk, decide_eq_true hi⟩

theorem Orderly.size_eq (hd : d.Orderly) : d.size = d.declarations.countP d.isKeyed := by
  -- Each key has one declaration, so both are equally many.
  have hresults : (results (d.declarations.filter d.isKeyed)).Sublist (results d.declarations) :=
    List.Sublist.filterMap _ List.filter_sublist
  have hperm : (results (d.declarations.filter d.isKeyed)).Perm (d.known.map (·.2.word)) := by
    rw [List.perm_ext_iff_of_nodup (hd.distinct.sublist hresults) hd.ids]
    intro w
    rw [mem_results, List.mem_map]
    constructor
    · rintro ⟨i, hi, hw⟩
      obtain ⟨k, id, hk, hmade⟩ := hd.isKeyed_iff.mp (List.mem_filter.mp hi).2
      rw [(Declaration.instruction?_operands hmade).1, Option.some.injEq] at hw
      exact ⟨⟨k, id⟩, (mem_known_iff hd.keys).mpr hk, hw⟩
    · rintro ⟨⟨k, id⟩, hk, rfl⟩
      have hget := (mem_known_iff hd.keys).mp hk
      obtain ⟨i, hi, hmade⟩ := hd.sound.filed k id hget
      exact ⟨i, List.mem_filter.mpr ⟨hi, hd.isKeyed_iff.mpr ⟨k, id, hget, hmade⟩⟩,
        (Declaration.instruction?_operands hmade).1⟩
  have hall : (results (d.declarations.filter d.isKeyed)).length =
      (d.declarations.filter d.isKeyed).length := by
    refine List.filterMap_length_eq_length.mpr fun i hi => ?_
    obtain ⟨k, id, -, hmade⟩ := hd.isKeyed_iff.mp (List.mem_filter.mp hi).2
    rw [(Declaration.instruction?_operands hmade).1]
    rfl
  rw [List.countP_eq_length_filter, ← hall, hperm.length_eq, List.length_map, size]

/-! ## No two alike -/

/-- A word that is declared without a key. -/
structure Loose (d : Dictionary) (w : Word) : Prop where
  declared : w ∈ results d.declarations
  unkeyed : ∀ k id, d.get? k = some id → id.word ≠ w

theorem Steps.next_le (h : Steps d d₁) : d.supply.next ≤ d₁.supply.next := by
  obtain ⟨is, ids, ascends⟩ := h.ascends
  exact ascends.supply

theorem Steps.le_toNat (h : Steps d d₁) (new : d.get? k = none) (hk : d₁.get? k = some id) :
    d.supply.next ≤ id.word.toNat := by
  induction h with
  | refl =>
    rw [new] at hk
    cases hk
  | @tail d₁ d₂ before step ih =>
    cases step with
    | need | reserve | length | unnamed => exact ih hk
    | record _ _ _ room =>
      rw [get?_record] at hk
      split at hk
      · cases hk
        rw [toNat_nextId room]
        exact Steps.next_le before
      · exact ih hk

theorem Loose.steps {w : Word} (h : d.Loose w) (hd : d.Orderly) (steps : Steps d d₁) : d₁.Loose w where
  declared := steps.results_subset h.declared
  unkeyed k id hk := by
    cases hold : d.get? k with
    | some id' =>
      rw [steps.get? hold] at hk
      cases hk
      exact h.unkeyed k id hold
    | none =>
      -- The key is new, and so is its identifier.
      have below := hd.readable.below w h.declared
      have above := steps.le_toNat hold hk
      rintro rfl
      omega

structure Distinct (d : Dictionary) : Prop where
  orderly : d.Orderly
  regular : ∀ k id, d.get? k = some id → k.Regular
  /-- A type or constant has a key, or rests on something that has none. -/
  origin : ∀ i ∈ d.declarations, i.isShared → d.isKeyed i ∨ ∃ w ∈ i.uses, d.Loose w
  unique : ((d.declarations.filter isShared).map nameless).Nodup

theorem distinct_new (supply : Supply) : (new supply).Distinct :=
  ⟨orderly_new supply, nofun, nofun, .nil⟩

theorem get?_eq_of_known (h : d₁.known = d.known) : d₁.get? = d.get? := by
  funext k
  rw [get?, h, get?]

theorem isKeyed_eq_of_known (h : d₁.known = d.known) : d₁.isKeyed = d.isKeyed := by
  funext i
  rw [isKeyed, h, get?_eq_of_known h, isKeyed]

theorem Distinct.of_same (hd : d.Distinct) (hd₁ : d₁.Orderly) (hknown : d₁.known = d.known)
    (hdecl : d₁.declarations = d.declarations) : d₁.Distinct := by
  have hget := get?_eq_of_known hknown
  refine ⟨hd₁, hget ▸ hd.regular, fun i hi hs => ?_, hdecl ▸ hd.unique⟩
  rw [isKeyed_eq_of_known hknown]
  refine (hd.origin i (hdecl ▸ hi) hs).imp_right ?_
  rintro ⟨w, hw, loose⟩
  exact ⟨w, hw, hdecl ▸ loose.declared, hget ▸ loose.unkeyed⟩

theorem nodup_nameless_concat {is : List Instruction}
    (h : ((is.filter isShared).map nameless).Nodup)
    (hi : i.isShared → ∀ j ∈ is, j.isShared → j.nameless ≠ i.nameless) :
    (((is ++ [i]).filter isShared).map nameless).Nodup := by
  rw [List.filter_append, List.map_append, List.nodup_append]
  refine ⟨h, ?_, ?_⟩
  · by_cases hs : i.isShared <;> simp [hs]
  · rintro a ha b hb rfl
    obtain ⟨j, hj, rfl⟩ := List.mem_map.mp ha
    obtain ⟨i', hi', heq⟩ := List.mem_map.mp hb
    obtain ⟨hmem, hs⟩ := List.mem_filter.mp hi'
    rw [List.mem_singleton.mp hmem] at heq hs
    exact hi hs j (List.mem_filter.mp hj).1 (List.mem_filter.mp hj).2 heq.symm

theorem Distinct.append (hd : d.Distinct) (hd₁ : d₁.Orderly) (hknown : d₁.known = d.known)
    (hdecl : d₁.declarations = d.declarations ++ [i])
    (hi : i.isShared → ∃ w ∈ i.uses, d.Loose w ∧ ∀ j ∈ d.declarations, w ∉ j.uses) :
    d₁.Distinct := by
  have hget := get?_eq_of_known hknown
  have keep : ∀ w, d.Loose w → d₁.Loose w := by
    intro w loose
    refine ⟨?_, hget ▸ loose.unkeyed⟩
    rw [hdecl, results_append]
    exact List.mem_append_left _ loose.declared
  refine ⟨hd₁, hget ▸ hd.regular, fun j hj hs => ?_, ?_⟩
  · rw [isKeyed_eq_of_known hknown]
    rw [hdecl] at hj
    rcases List.mem_append.mp hj with hj | hj
    · refine (hd.origin j hj hs).imp_right ?_
      rintro ⟨w, hw, loose⟩
      exact ⟨w, hw, keep w loose⟩
    · rw [List.mem_singleton.mp hj] at hs ⊢
      obtain ⟨w, hw, loose, -⟩ := hi hs
      exact .inr ⟨w, hw, keep w loose⟩
  · rw [hdecl]
    refine nodup_nameless_concat hd.unique fun hs j hj hsj h => ?_
    obtain ⟨w, hw, -, unused⟩ := hi hs
    obtain ⟨a, ha⟩ := hd.orderly.named j hj
    obtain ⟨b, hb⟩ := hd₁.named i (by simp [hdecl])
    exact unused j hj ((renamed_of_nameless hsj ha hb h).uses ▸ hw)

theorem loose_append (hd : d.Orderly) (hd₁ : d₁.Orderly) (room : d.supply.next + 1 ≤ Supply.limit)
    (hknown : d₁.known = d.known) (hdecl : d₁.declarations = d.declarations ++ [i])
    (hi : i.result? = some d.nextId.word) :
    d₁.Loose d.nextId.word ∧ ∀ j ∈ d₁.declarations, d.nextId.word ∉ j.uses := by
  have hnew := hd.readable.nextId_not_mem room
  refine ⟨⟨?_, fun k id hk hword => ?_⟩, fun j hj huse => hnew ?_⟩
  · rw [hdecl]
    exact mem_results.mpr ⟨i, by simp, hi⟩
  · rw [get?_eq_of_known hknown] at hk
    exact hnew (hword ▸ hd.sound.known hk)
  · have hordered := hd₁.sound.ordered
    rw [hdecl] at hordered hj
    obtain ⟨before, last⟩ := scoped_append.mp hordered
    rcases List.mem_append.mp hj with hj | hj
    · exact before.mem_of_uses j hj _ huse
    · rw [List.mem_singleton.mp hj] at huse
      exact last.1 _ huse

theorem FileStep.distinct {n : Nat} (h : FileStep n d d₁) (hd : d.Distinct) : d₁.Distinct := by
  have hd₁ := h.step.orderly hd.orderly
  cases h with
  | need c => exact hd.of_same hd₁ rfl rfl
  | @record key parts light regular able new known fits room =>
    have made : key.instruction? d.get? d.nextId = some (key.instruction d.nextId parts) := by
      rw [Declaration.instruction?_eq regular, known]
      rfl
    have steps := (FileStep.record light regular able new known fits room).step.steps
    have hget : ∀ k id, d.get? k = some id →
        (d.record key (key.instruction d.nextId parts)).get? k = some id := fun _ _ => steps.get?
    refine ⟨hd₁, fun k id hk => ?_, fun j hj hs => ?_, ?_⟩
    · rw [get?_record] at hk
      by_cases h : k = key
      · exact h ▸ regular
      · rw [if_neg h] at hk
        exact hd.regular k id hk
    · rw [hd₁.isKeyed_iff]
      rcases List.mem_append.mp hj with hj | hj
      · rcases hd.origin j hj hs with hkeyed | ⟨w, hw, loose⟩
        · obtain ⟨k, id, hk, hj⟩ := hd.orderly.isKeyed_iff.mp hkeyed
          exact .inl ⟨k, id, hget k id hk, Declaration.instruction?_mono hget hj⟩
        · exact .inr ⟨w, hw, loose.steps hd.orderly steps⟩
      · rw [List.mem_singleton.mp hj]
        refine .inl ⟨key, d.nextId, ?_, Declaration.instruction?_mono hget made⟩
        rw [get?_record, if_pos rfl]
    · -- Nothing like the new declaration was there: a key like it would be the key, which is new.
      refine nodup_nameless_concat hd.unique fun hs j hj hsj h => ?_
      obtain ⟨hr, huses, -⟩ := Declaration.instruction?_operands made
      rcases hd.origin j hj hsj with hkeyed | ⟨w, hw, loose⟩
      · obtain ⟨k, id, hk, hmade⟩ := hd.orderly.isKeyed_iff.mp hkeyed
        have heq := key_eq_of_nameless hd.orderly.readable (hd.regular k id hk) regular hmade made hsj h
        rw [heq, new] at hk
        cases hk
      · -- The other uses a loose word, and the parts of a key are not loose.
        obtain ⟨a, ha⟩ := hd.orderly.named j hj
        rw [(renamed_of_nameless hsj ha hr h).uses] at hw
        obtain ⟨k, x, hk, hx⟩ := huses w hw
        exact loose.unkeyed k x hk hx

theorem Files.distinct {n : Nat} (h : Files n d d₁) (hd : d.Distinct) : d₁.Distinct := by
  induction h with
  | refl => exact hd
  | tail _ hs ih => exact hs.distinct ih

/-! ## Runs of requests -/

/-- However `x` ends, no two declarations are alike, and if it succeeds `Q` holds. -/
structure Leaves {α : Type} (x : Declare α) (d : Dictionary) (Q : α → Dictionary → Prop) : Prop where
  distinct : (x d).2.Distinct
  post : ∀ a, (x d).1 = .ok a → Q a (x d).2

theorem Leaves.bind {α β : Type} {x : Declare α} {f : α → Declare β} {P : α → Dictionary → Prop}
    {Q : β → Dictionary → Prop} (hx : Leaves x d P)
    (hf : ∀ a d₁, d₁.Distinct → P a d₁ → Leaves (f a) d₁ Q) : Leaves (x >>= f) d Q := by
  obtain ⟨distinct, post⟩ := hx
  have run : ((x >>= f) d).2.Distinct ∧ ∀ b, ((x >>= f) d).1 = .ok b → Q b ((x >>= f) d).2 := by
    rw [Attempt.bind_apply]
    rcases h : x d with ⟨e | a, d₁⟩ <;> rw [h] at distinct post
    · exact ⟨distinct, nofun⟩
    · have := hf a d₁ distinct (post a rfl)
      exact ⟨this.distinct, this.post⟩
  exact ⟨run.1, run.2⟩

theorem Leaves.mono {α : Type} {x : Declare α} {P Q : α → Dictionary → Prop} (hx : Leaves x d P)
    (h : ∀ a d₁, P a d₁ → Q a d₁) : Leaves x d Q :=
  ⟨hx.distinct, fun a ha => h a _ (hx.post a ha)⟩

theorem Distinct.waste (hd : d.Distinct) (room : d.supply.next + 1 ≤ Supply.limit) :
    Distinct { d with supply := ⟨d.supply.next + 1⟩ } :=
  hd.of_same ((Step.reserve 1 room).orderly hd.orderly) rfl rfl

theorem file_leaves (regular : key.Regular) (hd : d.Distinct) :
    Leaves (file key) d fun id d₁ => Steps d d₁ ∧ d₁.get? key = some id := by
  have ends := file_ends regular d
  constructor
  · generalize file key d = r at ends
    cases ends with
    | done files | failed files => exact files.distinct hd
    | wasted files room => exact (files.distinct hd).waste room
  · intro id hid
    generalize file key d = r at ends hid
    cases ends with
    | done files known => cases hid; exact ⟨files.steps, known⟩
    | failed | wasted => cases hid

theorem define_leaves {op : Opcode} {type : Option Id} {operands : List Word} (hd : d.Distinct)
    (hi : i = .of op ((type.map Id.word).toList ++ d.nextId.word :: operands)) (made : d.Unnamed i)
    (new : i.isShared → ∃ w ∈ i.uses, d.Loose w ∧ ∀ j ∈ d.declarations, w ∉ j.uses) :
    Leaves (define op type operands) d fun id d₁ =>
      id = d.nextId ∧ d₁ = d.extend i ∧ d.supply.next + 1 ≤ Supply.limit := by
  have fits := made.operands.2.2.2
  subst hi
  by_cases room : d.supply.next + 1 ≤ Supply.limit
  · have run := define_apply op type operands d
    simp only [if_pos room, if_pos fits] at run
    have hd₁ := (Step.unnamed made room).orderly hd.orderly
    refine ⟨by rw [run]; exact hd.append hd₁ rfl rfl new, fun id hid => ?_⟩
    rw [run] at hid ⊢
    cases hid
    exact ⟨rfl, rfl, room⟩
  · have run := define_apply op type operands d
    simp only [if_neg room] at run
    refine ⟨by rw [run]; exact hd, fun id hid => ?_⟩
    rw [run] at hid
    cases hid

theorem hostNumber_leaves {word : Id} (hd : d.Distinct) (hw : d.get? (.type .i32) = some word) :
    Leaves (hostNumber word) d fun id d₁ =>
      id = d.nextId ∧ d₁ = d.recordLength word ∧ d.supply.next + 1 ≤ Supply.limit := by
  have fits : (Instruction.of .specConstant [word.word, d.nextId.word, 1]).Fits :=
    fits_of _ (by simp [maxSize])
  have run := define_apply .specConstant (some word) [1] d
  by_cases room : d.supply.next + 1 ≤ Supply.limit
  · have run : hostNumber word d = (.ok d.nextId, d.recordLength word) := by
      rw [hostNumber, Attempt.bind_apply, run]
      simp only [if_pos room]
      rw [if_pos (by exact fits)]
      rfl
    have hd₁ := (Step.length hw room).orderly hd.orderly
    refine ⟨by rw [run]; exact hd.append hd₁ rfl rfl (by simp [Opcode.isShared]), fun id hid => ?_⟩
    rw [run] at hid ⊢
    cases hid
    exact ⟨rfl, rfl, room⟩
  · have run : hostNumber word d = (.error .spaceExhausted, d) := by
      rw [hostNumber, Attempt.bind_apply, run]
      simp only [if_neg room]
    refine ⟨by rw [run]; exact hd, fun id hid => ?_⟩
    rw [run] at hid
    cases hid

theorem dynamicArrayPointer_leaves (elem : Ty) (hd : d.Distinct) :
    Leaves (dynamicArrayPointer elem) d fun id d₁ => ∃ a, d₁.declarations.getLast? =
      some (.of .typePointer [id.word, StorageClass.workgroup.number, a]) := by
  -- The array rests on a number of its own and the pointer on an array of its own.
  rw [dynamicArrayPointer, typeId_eq_file, typeId_eq_file]
  refine (file_leaves (Declaration.regular_ofType _) hd).bind fun word d₁ hd₁ ⟨_, hword⟩ => ?_
  refine (file_leaves (Declaration.regular_ofType _) hd₁).bind fun e d₂ hd₂ ⟨steps, helem⟩ => ?_
  have hw := steps.get? hword
  refine (hostNumber_leaves hd₂ hw).bind ?_
  rintro length d₃ hd₃ ⟨rfl, rfl, room⟩
  have hlast : (d₂.recordLength word).declarations.getLast? =
      some (.of .specConstant [word.word, d₂.nextId.word, 1]) := by
    simp [recordLength, extend]
  have hknown : (d₂.recordLength word).get? (.ofType elem) = some e := helem
  have number := loose_append hd₂.orderly hd₃.orderly room rfl rfl rfl
  refine (define_leaves hd₃ rfl (.array hknown hlast) fun _ => ⟨_, ?_, number⟩).bind ?_
  · simp [Instruction.uses, inSlot_of, Opcode.format, Format.read]
  rintro array d₄ hd₄ ⟨rfl, rfl, room⟩
  have array := loose_append hd₃.orderly hd₄.orderly room rfl rfl rfl
  refine (define_leaves hd₄ rfl (.pointer (getLast?_extend _ _)) fun _ => ⟨_, ?_, array⟩).mono ?_
  · simp [Instruction.uses, inSlot_of, Opcode.format, Format.read]
  rintro pointer d₅ ⟨rfl, rfl, -⟩
  exact ⟨_, getLast?_extend _ _⟩

theorem groupVariable_distinct (elem : Ty) (extent : Extent) (hd : d.Distinct) :
    (groupVariable elem extent d).2.Distinct := by
  have last : ∀ (pointer : Id) (d₁ : Dictionary), d₁.Distinct →
      ((∃ pointee, d₁.get? (.pointer pointee .workgroup) = some pointer) ∨
        ∃ a, d₁.declarations.getLast? =
          some (.of .typePointer [pointer.word, StorageClass.workgroup.number, a])) →
      Leaves (define .variable (some pointer) [StorageClass.workgroup.number]) d₁
        fun _ _ => True := by
    intro pointer d₁ hd₁ known
    exact (define_leaves hd₁ rfl (.groupVariable known) (by simp [Opcode.isShared])).mono fun _ _ _ => trivial
  refine Leaves.distinct (Q := fun _ _ => True) ?_
  cases extent with
  | single =>
    change Leaves (pointerId elem .workgroup >>= _) d _
    rw [pointerId_eq_file]
    refine (file_leaves (Declaration.regular_pointer _ _) hd).bind fun p d₁ hd₁ known => ?_
    exact last p d₁ hd₁ (.inl ⟨_, known.2⟩)
  | fixed n =>
    change Leaves (pointerId (.array elem n) .workgroup >>= _) d _
    rw [pointerId_eq_file]
    refine (file_leaves (Declaration.regular_pointer _ _) hd).bind fun p d₁ hd₁ known => ?_
    exact last p d₁ hd₁ (.inl ⟨_, known.2⟩)
  | dynamic =>
    change Leaves (dynamicArrayPointer elem >>= _) d _
    refine (dynamicArrayPointer_leaves elem hd).bind fun p d₁ hd₁ known => ?_
    exact last p d₁ hd₁ (.inr known)

theorem regular_of_key? {r : Request} (h : r.key? = some key) : key.Regular := by
  cases r with
  | type t => cases h; exact Declaration.regular_ofType t
  | constant c => cases h; exact Constant.truncate_truncate c
  | word n => cases h; exact Constant.truncate_truncate _
  | pointer | signature | builtin => cases h; trivial
  | groupVariable => cases h

theorem perform_distinct (r : Request) (hd : d.Distinct) : (perform r d).2.Distinct := by
  cases hk : r.key? with
  | some key =>
    rw [perform_eq_file hk]
    exact (file_leaves (regular_of_key? hk) hd).distinct
  | none =>
    cases r with
    | groupVariable elem extent => exact groupVariable_distinct elem extent hd
    | type | pointer | signature | constant | word | builtin => cases hk

theorem performAll_distinct (requests : List Request) (hd : d.Distinct) :
    (performAll requests d).2.Distinct := by
  induction requests generalizing d with
  | nil => exact hd
  | cons r rs ih => exact ih (perform_distinct r hd)

theorem perform_again {r r' : Request} (hk : r.key? = some key) (hr : r'.key? = r.key?)
    (known : d.get? key = some id) : perform r' d = (.ok id, d) := by
  rw [perform_eq_file (hr.trans hk), file_eq]
  exact once_known known

/-- No type or constant is declared twice, whatever fails in between. -/
theorem requests_declare_once (first : Nat) (requests : List Request) :
    let run := performAll requests (new (.startingAt first))
    ((run.2.declarations.filter isShared).map nameless).Nodup ∧
      (∀ r r' id, (r, .ok id) ∈ run.1 → r.key? ≠ none → r'.key? = r.key? →
        perform r' run.2 = (.ok id, run.2)) ∧
      (run.2.known.map Prod.fst).Nodup ∧ run.2.size = run.2.declarations.countP run.2.isKeyed := by
  intro run
  have hd : run.2.Distinct := performAll_distinct requests (distinct_new _)
  refine ⟨hd.unique, fun r r' id hr hkey hsame => ?_, hd.orderly.keys, hd.orderly.size_eq⟩
  obtain ⟨key, hk⟩ := Option.ne_none_iff_exists'.mp hkey
  exact perform_again hk hsame (performAll_known hr hk)

/-- The supply ends in the middle of the last request, which leaves a part of its type declared. -/
def sharedRequests : List Request :=
  [.type (.pointer (.array .i32 1) .shared), .groupVariable .i32 .dynamic,
    .groupVariable .i32 (.fixed 1), .constant (.int .i8 0x1FF), .groupVariable .i32 .dynamic,
    .type (.struct [.array .i64 2, .i32])]

theorem sharedRequests_declare_once :
    let run := performAll sharedRequests (new (.startingAt (Supply.limit - 16)))
    ((.constant (.int .i8 0x1FF), .ok ⟨4194297⟩) ∈ run.1 ∧
        perform (.constant (.int .i8 0xFF)) run.2 = (.ok ⟨4194297⟩, run.2)) ∧
      ((.type (.pointer (.array .i32 1) .shared), .ok ⟨4194290⟩) ∈ run.1 ∧
        perform (.pointer (.array .i32 1) .workgroup) run.2 = (.ok ⟨4194290⟩, run.2)) ∧
      (.type (.struct [.array .i64 2, .i32]), .error .spaceExhausted) ∈ run.1 := by
  intro run
  have mark : (.constant (.int .i8 0x1FF), .ok ⟨4194297⟩) ∈ run.1 := by decide +kernel
  have rows : (.type (.pointer (.array .i32 1) .shared), .ok ⟨4194290⟩) ∈ run.1 := by
    decide +kernel
  have full : (.type (.struct [.array .i64 2, .i32]), .error .spaceExhausted) ∈ run.1 := by
    decide +kernel
  obtain ⟨-, again, -⟩ := requests_declare_once (Supply.limit - 16) sharedRequests
  exact ⟨⟨mark, again _ _ _ mark nofun rfl⟩, ⟨rows, again _ _ _ rows nofun rfl⟩, full⟩

end Dictionary

end SpirvKernel
