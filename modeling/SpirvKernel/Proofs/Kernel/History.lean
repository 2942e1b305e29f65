import SpirvKernel.Proofs.Kernel.Numbering

/-!
# What a draft keeps of its edits

The history of a draft lists what its edits left behind, each with the block that was current then. A
finished method is its history sorted by blocks: a block holds the values that were made while it was
current, in the order of their making, and ends as it was closed.
-/

namespace SpirvKernel.Draft

namespace Event

def definition? : Event → Option (ValueId × Ty)
  | .param p => some (p.value, p.type)
  | .value v => some (v.id, v.type)
  | .looked | .moved _ | .opened | .closed _ => none

def destination? : Event → Option BlockId
  | .moved b => some b
  | _ => none

def param? : Event → Option Param
  | .param p => some p
  | _ => none

def value? : Event → Option Value
  | .value v => some v
  | _ => none

def terminator? : Event → Option Terminator
  | .closed t => some t
  | _ => none

end Event

/-- What happens by the edits, each with the block that is current at the time. -/
def history (d : Draft) : List Edit → List (BlockId × Event)
  | [] => []
  | e :: edits => (event? d e).toList.map (d.currentBlock, ·) ++ history (perform e d).2 edits

/-- What happened while a block was current. -/
def during (b : BlockId) (log : List (BlockId × Event)) : List Event :=
  (log.filter (·.1 = b)).map (·.2)

theorem during_append (b : BlockId) (log log' : List (BlockId × Event)) :
    during b (log ++ log') = during b log ++ during b log' := by
  simp [during]

theorem during_pair (b c : BlockId) (event : Event) :
    during b [(c, event)] = if c = b then [event] else [] := by
  by_cases h : c = b <;> simp [during, h]

theorem mem_during {b : BlockId} {log : List (BlockId × Event)} {event : Event} :
    event ∈ during b log ↔ (b, event) ∈ log := by
  simp [during]

/-! ## The draft and its history -/

/-- The block holds the values of some events, and the one terminator among them if there is one. -/
structure BuiltFrom (b : OpenBlock) (events : List Event) : Prop where
  body : b.body = events.filterMap Event.value?
  terminator : b.terminator.toList = events.filterMap Event.terminator?

structure Records (d : Draft) (log : List (BlockId × Event)) : Prop where
  places : ∀ x ∈ log, x.1.number < d.blocks.length
  defined : (log.map (·.2)).filterMap Event.definition? =
    d.types.mapIdx fun i type => (ValueId.mk i, type)
  params : d.params = (log.map (·.2)).filterMap Event.param?
  blocks : ∀ i b, d.blocks[i]? = some b → BuiltFrom b (during ⟨i⟩ log)

variable {d d₁ : Draft} {log : List (BlockId × Event)} {event : Event}

theorem records_new (id : MethodId) (name : String) (returnType : Ty) :
    (new id name returnType).Records [] where
  places := by simp
  defined := rfl
  params := rfl
  blocks i b h := by
    cases i with
    | zero =>
      obtain rfl := Option.some.inj h
      exact ⟨rfl, rfl⟩
    | succ i => cases h

theorem filterMap_concat {α : Type} (f : Event → Option α) (b : BlockId) :
    ((log ++ [(b, event)]).map (·.2)).filterMap f = (log.map (·.2)).filterMap f ++ (f event).toList := by
  cases h : f event <;> simp [h]

/-- An event that happens in the current block. -/
theorem Records.push (h : d.Records log) (grown : d.blocks.length ≤ d₁.blocks.length)
    (types : d₁.types = d.types ++ (event.definition?.map (·.2)).toList)
    (names : ∀ x ∈ event.definition?, x.1 = ⟨d.types.length⟩)
    (params : d₁.params = d.params ++ event.param?.toList)
    (blocks : ∀ i b, d₁.blocks[i]? = some b →
      BuiltFrom b (during ⟨i⟩ (log ++ [(d.currentBlock, event)]))) :
    d₁.Records (log ++ [(d.currentBlock, event)]) where
  places x hx := by
    rcases List.mem_append.mp hx with hx | hx
    · exact Nat.lt_of_lt_of_le (h.places x hx) grown
    · obtain rfl := List.mem_singleton.mp hx
      exact Nat.lt_of_lt_of_le d.current_lt grown
  defined := by
    rw [filterMap_concat, h.defined, types]
    cases hdef : event.definition? with
    | none => simp
    | some x =>
      have hname := names x hdef
      simp [List.mapIdx_append, ← hname]
  params := by rw [filterMap_concat, params, h.params]
  blocks := blocks

theorem Records.blocks_modify (h : d.Records log) {f : OpenBlock → OpenBlock}
    (hf : ∀ b events, d.blocks[d.current]? = some b → BuiltFrom b events →
      BuiltFrom (f b) (events ++ [event]))
    (i : Nat) (b : OpenBlock) (hb : (d.blocks.modify d.current f)[i]? = some b) :
    BuiltFrom b (during ⟨i⟩ (log ++ [(d.currentBlock, event)])) := by
  rw [during_append, during_pair]
  by_cases hi : d.current = i
  · subst hi
    rw [List.getElem?_modify_eq, Option.map_eq_map, Option.map_eq_some_iff] at hb
    obtain ⟨a, ha, rfl⟩ := hb
    rw [currentBlock, if_pos rfl]
    exact hf a _ ha (h.blocks _ a ha)
  · have hother : d.currentBlock ≠ ⟨i⟩ := fun heq => hi (BlockId.mk.inj heq)
    rw [if_neg hother, List.append_nil]
    rw [List.getElem?_modify_ne _ _ hi] at hb
    exact h.blocks i b hb

theorem Records.blocks_of_quiet (h : d.Records log) (hvalue : event.value? = none)
    (hterminator : event.terminator? = none) (i : Nat) (b : OpenBlock) (hb : d.blocks[i]? = some b) :
    BuiltFrom b (during ⟨i⟩ (log ++ [(d.currentBlock, event)])) := by
  have hold := h.blocks i b hb
  rw [during_append, during_pair]
  split
  · exact ⟨by simp [hold.body, hvalue], by simp [hold.terminator, hterminator]⟩
  · rwa [List.append_nil]

theorem terminator_of_isTerminated_eq_false (h : d.isTerminated = false) {b : OpenBlock}
    (hb : d.blocks[d.current]? = some b) : b.terminator = none := by
  unfold isTerminated at h
  rw [List.getElem?_eq_getElem d.current_lt, Option.some.injEq] at hb
  simpa [hb] using h

theorem Records.during_length (h : d.Records log) : during ⟨d.blocks.length⟩ log = [] := by
  rw [during, List.map_eq_nil_iff, List.filter_eq_nil_iff]
  intro x hx heq
  have := h.places x hx
  rw [of_decide_eq_true heq] at this
  exact Nat.lt_irrefl _ this

theorem Change.records (hchange : Change d event d₁) (h : d.Records log) :
    d₁.Records (log ++ [(d.currentBlock, event)]) := by
  cases hchange with
  | looked | moved =>
    exact h.push (Nat.le_refl _) (List.append_nil _).symm (by rintro _ ⟨⟩) (List.append_nil _).symm
      (h.blocks_of_quiet rfl rfl)
  | opened =>
    refine h.push (by simp [newBlock]) (List.append_nil _).symm (by rintro _ ⟨⟩)
      (List.append_nil _).symm ?_
    intro i b hb
    change (d.blocks ++ [_])[i]? = some b at hb
    by_cases hi : i < d.blocks.length
    · rw [List.getElem?_append_left hi] at hb
      exact h.blocks_of_quiet rfl rfl i b hb
    · -- The new block is empty, and nothing has happened in it.
      obtain ⟨hlt, -⟩ := List.getElem?_eq_some_iff.mp hb
      obtain rfl : i = d.blocks.length := by
        rw [List.length_append, List.length_singleton] at hlt
        omega
      rw [List.getElem?_concat_length, Option.some.injEq] at hb
      have hother : d.currentBlock ≠ ⟨d.blocks.length⟩ := fun heq => hi (BlockId.mk.inj heq ▸ d.current_lt)
      rw [during_append, h.during_length, during_pair, if_neg hother, ← hb]
      exact ⟨rfl, rfl⟩
  | param type =>
    refine h.push (Nat.le_refl _) rfl ?_ rfl (h.blocks_of_quiet rfl rfl)
    rintro _ ⟨⟩
    rfl
  | value type kind =>
    refine h.push (by simp [add, changeCurrent]) rfl ?_ (List.append_nil _).symm
      (h.blocks_modify fun b events _ hb => ?_)
    · rintro _ ⟨⟩
      rfl
    · exact ⟨by simp [hb.body, Event.value?], by simp [hb.terminator, Event.terminator?]⟩
  | closed t ht =>
    refine h.push (by simp [changeCurrent]) (List.append_nil _).symm (by rintro _ ⟨⟩)
      (List.append_nil _).symm (h.blocks_modify fun b events hcurrent hb => ?_)
    -- The block was open, so no terminator is among its events yet.
    have hopen := terminator_of_isTerminated_eq_false ht hcurrent
    have hnone := hb.terminator
    rw [hopen] at hnone
    exact ⟨by simp [hb.body, Event.value?], by simp [← hnone, Event.terminator?]⟩

theorem Records.performAll (h : d.Records log) (edits : List Edit) :
    (d.performAll edits).Records (log ++ history d edits) := by
  induction edits generalizing d log with
  | nil =>
    rw [history, List.append_nil]
    exact h
  | cons e edits ih =>
    rw [history, performAll, List.foldl_cons, ← performAll, ← List.append_assoc]
    obtain ⟨error, run, hevent⟩ | ⟨out, d', event, run, hevent, change⟩ := perform_cases e d
    · rw [run, hevent, Option.toList_none, List.map_nil, List.append_nil]
      exact ih h
    · rw [run, hevent]
      exact ih (change.records h)

/-! ## What edits count -/

namespace Edit

/-- The block that an edit moves to. -/
def destination? : Edit → Option BlockId
  | .positionAt b => some b
  | _ => none

/-- Whether an edit makes a parameter or a value. -/
def isDefinition : Edit → Bool
  | .newBlock | .positionAt _ | .typeOf _ | .terminate _ => false
  | _ => true

end Edit

theorem event?_agrees {e : Edit} (h : event? d e = some event) :
    event.destination? = e.destination? ∧ event.definition?.isSome = e.isDefinition ∧
      (event = .opened ↔ e = .newBlock) := by
  cases e with
  | newBlock | param | add | constant | compare | convert | alloca | store | call | phi | gridIndex
  | barrier =>
    cases h
    exact ⟨rfl, rfl, by simp⟩
  | positionAt | terminate =>
    obtain ⟨-, h⟩ | ⟨-, h⟩ := ite_eq_iff.mp h <;> cases h
    exact ⟨rfl, rfl, by simp⟩
  | typeOf | binary | unary | select | load | elementAddress | fieldAddress | extractField =>
    obtain ⟨_, -, rfl⟩ := Option.map_eq_some_iff.mp h
    exact ⟨rfl, rfl, by simp⟩

theorem Change.currentBlock (h : Change d event d₁) :
    d₁.currentBlock = event.destination?.getD d.currentBlock := by
  cases h <;> rfl

theorem Change.length_types (h : Change d event d₁) :
    d₁.types.length = d.types.length + event.definition?.isSome.toNat := by
  cases h <;> simp [newBlock, Draft.param, add, changeCurrent, Event.definition?]

theorem Change.length_blocks (h : Change d event d₁) :
    d₁.blocks.length = d.blocks.length + if event = .opened then 1 else 0 := by
  cases h <;> simp [newBlock, Draft.param, add, changeCurrent]

theorem currentBlock_performAll (d : Draft) (edits : List Edit) :
    (d.performAll edits).currentBlock =
      ((accepted d edits).filterMap Edit.destination?).getLastD d.currentBlock := by
  refine performAll_induction
    (P := fun done d' => d'.currentBlock = (done.filterMap Edit.destination?).getLastD d.currentBlock)
    (fun done d' e event d₁ hevent change h => ?_) rfl edits
  rw [change.currentBlock, (event?_agrees hevent).1, List.filterMap_append, h]
  cases hmove : e.destination? <;> simp [hmove]

theorem length_types_performAll (d : Draft) (edits : List Edit) :
    (d.performAll edits).types.length =
      d.types.length + (accepted d edits).countP Edit.isDefinition := by
  refine performAll_induction
    (P := fun done d' => d'.types.length = d.types.length + done.countP Edit.isDefinition)
    (fun done d' e event d₁ hevent change h => ?_) rfl edits
  rw [change.length_types, (event?_agrees hevent).2.1, List.countP_append, h]
  cases hdef : e.isDefinition <;> simp [hdef, Nat.add_assoc]

theorem length_blocks_performAll (d : Draft) (edits : List Edit) :
    (d.performAll edits).blocks.length = d.blocks.length + (accepted d edits).count .newBlock := by
  refine performAll_induction
    (P := fun done d' => d'.blocks.length = d.blocks.length + done.count .newBlock)
    (fun done d' e event d₁ hevent change h => ?_) rfl edits
  rw [change.length_blocks, List.count_append, h]
  simp only [(event?_agrees hevent).2.2, List.count_singleton, beq_iff_eq, Nat.add_assoc]

theorem count_newBlock_accepted (d : Draft) (edits : List Edit) :
    (accepted d edits).count .newBlock = edits.count .newBlock := by
  -- Opening a block is never refused.
  induction edits generalizing d with
  | nil => rfl
  | cons e edits ih =>
    rw [accepted, List.count_append, ih, List.count_cons, Nat.add_comm]
    by_cases he : e = .newBlock
    · subst he
      rfl
    · split <;> simp [he]

/-! ## The finished method -/

theorem mem_blocks_finish {b : Block} : b ∈ d.finish.blocks ↔
    ∃ i o, d.blocks[i]? = some o ∧ b = ⟨⟨i⟩, o.body, o.terminator.getD .unreachable⟩ := by
  simp only [finish, List.mem_mapIdx, List.getElem?_eq_some_iff]
  constructor
  · rintro ⟨i, hi, rfl⟩
    exact ⟨i, _, ⟨hi, rfl⟩, rfl⟩
  · rintro ⟨i, _, ⟨hi, rfl⟩, rfl⟩
    exact ⟨i, hi, rfl⟩

theorem Event.value?_eq_some_iff {event : Event} {v : Value} :
    event.value? = some v ↔ event = .value v := by
  cases event <;> simp [value?]

theorem Event.param?_eq_some_iff {event : Event} {p : Param} :
    event.param? = some p ↔ event = .param p := by
  cases event <;> simp [param?]

theorem Records.mem_values_iff (h : d.Records log) (v : Value) :
    v ∈ d.finish.values ↔ .value v ∈ log.map (·.2) := by
  rw [values_finish, values, List.mem_flatMap]
  constructor
  · rintro ⟨o, ho, hv⟩
    obtain ⟨i, hi⟩ := List.mem_iff_getElem?.mp ho
    rw [(h.blocks i o hi).body, List.mem_filterMap] at hv
    obtain ⟨event, hevent, hv⟩ := hv
    rw [Event.value?_eq_some_iff.mp hv, mem_during] at hevent
    exact List.mem_map_of_mem hevent
  · intro hv
    obtain ⟨⟨b, event⟩, hx, rfl⟩ := List.mem_map.mp hv
    have hlt := h.places _ hx
    have ho := List.getElem?_eq_getElem hlt
    refine ⟨_, List.getElem_mem hlt, ?_⟩
    rw [(h.blocks b.number _ ho).body, List.mem_filterMap]
    exact ⟨_, mem_during.mpr hx, rfl⟩

theorem Records.mem_definitions_iff (h : d.Records log) (x : ValueId × Ty) :
    x ∈ d.finish.definitions ↔ x ∈ (log.map (·.2)).filterMap Event.definition? := by
  rw [Method.definitions, List.mem_append, List.mem_map, List.mem_map, List.mem_filterMap]
  change (∃ p ∈ d.params, _) ∨ _ ↔ _
  simp only [h.params, h.mem_values_iff, List.mem_filterMap, Event.param?_eq_some_iff, exists_eq_right]
  constructor
  · rintro (⟨p, hp, rfl⟩ | ⟨v, hv, rfl⟩)
    · exact ⟨_, hp, rfl⟩
    · exact ⟨_, hv, rfl⟩
  · rintro ⟨event, hevent, hx⟩
    cases event with
    | param p => exact .inl ⟨p, hevent, Option.some.inj hx⟩
    | value v => exact .inr ⟨v, hevent, Option.some.inj hx⟩
    | looked | moved | opened | closed => cases hx

theorem Records.typeOf_iff (h : d.Records log) (v : ValueId) (type : Ty) :
    typeOf v d = (.ok type, d) ↔ (v, type) ∈ d.finish.definitions := by
  rw [h.mem_definitions_iff, h.defined, typeOf_apply, Attempt.require_ok_iff, and_iff_left rfl,
    List.mem_mapIdx, List.getElem?_eq_some_iff]
  constructor
  · rintro ⟨hv, rfl⟩
    exact ⟨v.number, hv, rfl⟩
  · rintro ⟨i, hi, heq⟩
    obtain ⟨rfl, rfl⟩ := Prod.mk.inj heq
    exact ⟨hi, rfl⟩

theorem ids_sublist (events : List Event) :
    ((events.filterMap Event.value?).map (·.id)).Sublist
      ((events.filterMap Event.definition?).map (·.1)) := by
  induction events with
  | nil => exact .slnil
  | cons event events ih =>
    cases event with
    | looked | moved | opened | closed => exact ih
    | param p => exact ih.cons _
    | value v => exact ih.cons_cons _

theorem Records.ascending (h : d.Records log) (b : BlockId) :
    (((during b log).filterMap Event.value?).map (·.id.number)).Pairwise (· < ·) := by
  have hnames : (d.types.mapIdx fun i type => (ValueId.mk i, type)).map (·.1.number) =
      List.range d.types.length := List.ext_getElem (by simp) (by simp)
  have hduring : (during b log).Sublist (log.map (·.2)) := List.filter_sublist.map _
  have hsub := ((ids_sublist _).trans ((hduring.filterMap _).map _)).map ValueId.number
  rw [h.defined, List.map_map, List.map_map] at hsub
  exact List.Pairwise.sublist (hnames ▸ hsub) List.pairwise_lt_range

/-- A finished method is what its accepted edits make of the draft, block by block. -/
theorem finish_in_order (id : MethodId) (name : String) (returnType : Ty) (edits : List Edit) :
    let start := new id name returnType
    let d := start.performAll edits
    let log := history start edits
    d.currentBlock = ((accepted start edits).filterMap Edit.destination?).getLastD ⟨0⟩ ∧
    d.finish.blocks.map (·.id) = (List.range (edits.count .newBlock + 1)).map BlockId.mk ∧
    (d.finish.params.map (·.value) ++ d.finish.values.map (·.id)).Perm
      ((List.range ((accepted start edits).countP Edit.isDefinition)).map ValueId.mk) ∧
    (∀ v type, typeOf v d = (.ok type, d) ↔ (v, type) ∈ d.finish.definitions) ∧
    (∀ b ∈ d.finish.blocks,
      (b.body.map (·.id.number)).Pairwise (· < ·) ∧
      b.body = (during b.id log).filterMap Event.value? ∧
      ((during b.id log).filterMap Event.terminator? = [] ∧ b.terminator = .unreachable ∨
        (during b.id log).filterMap Event.terminator? = [b.terminator])) ∧
    ∀ before e after error, edits = before ++ e :: after →
      (perform e (start.performAll before)).1 = .error error →
        start.performAll (before ++ [e]) = start.performAll before := by
  intro start d log
  have h : d.Records log := by
    simpa using (records_new id name returnType).performAll edits
  have hblocks : d.blocks.length = edits.count .newBlock + 1 := by
    rw [length_blocks_performAll, count_newBlock_accepted, Nat.add_comm]
    rfl
  have htypes : d.types.length = (accepted start edits).countP Edit.isDefinition := by
    rw [length_types_performAll]
    exact Nat.zero_add _
  refine ⟨currentBlock_performAll start edits, ?_, ?_, h.typeOf_iff, fun b hb => ?_, ?_⟩
  · rw [blockIds_finish, hblocks]
  · rw [values_finish, ← htypes]
    exact (numbered_new id name returnType).performAll edits
  · -- One block: what happened while it was current.
    obtain ⟨i, o, ho, rfl⟩ := mem_blocks_finish.mp hb
    obtain ⟨hbody, hterminator⟩ := h.blocks i o ho
    refine ⟨hbody ▸ h.ascending ⟨i⟩, hbody, ?_⟩
    rw [← hterminator]
    cases o.terminator with
    | none => exact .inl ⟨rfl, rfl⟩
    | some t => exact .inr rfl
  · -- A refused edit goes without a trace.
    intro before e after error _ hrefused
    rw [performAll, List.foldl_append, ← performAll]
    exact perform_refused (Prod.ext hrefused rfl)

-- The load of a truth value and the second terminator are refused.
example :
    history (new ⟨0⟩ "f" .void) [.newBlock, .param .bool, .positionAt ⟨1⟩, .barrier, .load ⟨0⟩,
      .positionAt ⟨0⟩, .terminate (.branch ⟨1⟩), .terminate (.ret none)] =
    [(⟨0⟩, .opened), (⟨0⟩, .param ⟨⟨0⟩, .bool⟩), (⟨0⟩, .moved ⟨1⟩),
      (⟨1⟩, .value ⟨⟨1⟩, .void, .barrier⟩), (⟨1⟩, .moved ⟨0⟩), (⟨0⟩, .closed (.branch ⟨1⟩))] := by
  decide +kernel

end SpirvKernel.Draft
