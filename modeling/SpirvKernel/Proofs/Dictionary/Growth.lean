import Mathlib.Logic.Relation
import SpirvKernel.Dictionary
import SpirvKernel.Proofs.Operand
import SpirvKernel.Proofs.Run

/-!
# How a dictionary grows

A dictionary changes by small steps: a capability is noted, identifiers are set aside, a declaration
is made under a key, or one that has no key. Every request is a row of such steps, whether it
succeeds or fails, and one that succeeds gives back the identifier that its key is known under.
-/

namespace SpirvKernel

/-! ## Keys -/

namespace Declaration

def ofType : Ty → Declaration
  | .pointer pointee space => .pointer pointee space.storage
  | t => .type t

/-- The instruction that declares a key as `id`, if all that it rests on is known. -/
def instruction? (look : Declaration → Option Id) (id : Id) : Declaration → Option Instruction
  | .type .void => some (.of .typeVoid [id.word])
  | .type .bool => some (.of .typeBool [id.word])
  | .type (.int w) => some (.of .typeInt [id.word, UInt32.ofNat w.bits, 0])
  | .type (.float w) => some (.of .typeFloat [id.word, UInt32.ofNat w.bits])
  | .type (.vector elem count) => do
    let e ← look (ofType elem)
    pure (.of .typeVector [id.word, e.word, count])
  | .type (.array elem length) => do
    let e ← look (ofType elem)
    let n ← look (.constant (Constant.ofWord length).truncate)
    pure (.of .typeArray [id.word, e.word, n.word])
  | .type (.struct fields) => do
    let ids ← fields.mapM fun t => look (ofType t)
    pure (.of .typeStruct (id.word :: ids.map Id.word))
  | .type (.pointer _ _) => none
  | .pointer pointee storage => do
    let p ← look (ofType pointee)
    pure (.of .typePointer [id.word, storage.number, p.word])
  | .constant c => do
    let t ← look (ofType c.type)
    pure (.of c.opcode (t.word :: id.word :: c.literal))
  | .signature result params => do
    let ids ← (result :: params).mapM fun t => look (ofType t)
    pure (.of .typeFunction (id.word :: ids.map Id.word))
  | .builtin _ => do
    let p ← look (.pointer BuiltIn.type .input)
    pure (.of .variable [p.word, id.word, StorageClass.input.number])

def notes (id : Id) : Declaration → List Instruction
  | .builtin b => [.of .decorate [id.word, Decoration.builtIn.number, b.number]]
  | _ => []

def interface (id : Id) : Declaration → List Id
  | .builtin _ => [id]
  | _ => []

end Declaration

mutual

def Ty.weight : Ty → Nat
  | .void | .bool | .int _ | .float _ => 1
  | .vector elem _ => elem.weight + 1
  -- The length is a constant, which weighs 2.
  | .array elem _ => elem.weight + 2
  | .struct fields => Ty.weights fields + 1
  | .pointer pointee _ => pointee.weight + 1

def Ty.weights : List Ty → Nat
  | [] => 0
  | t :: ts => t.weight + Ty.weights ts

end

/-- A declaration weighs more than all that it rests on. -/
def Declaration.weight : Declaration → Nat
  | .type t => t.weight
  | .pointer pointee _ => pointee.weight + 1
  | .constant c => c.type.weight + 1
  | .signature result params => Ty.weights (result :: params) + 1
  | .builtin _ => BuiltIn.type.weight + 2

namespace Declaration

@[simp] theorem ofType_vector (elem : Ty) (n : UInt32) :
    ofType (.vector elem n) = type (.vector elem n) := rfl

@[simp] theorem ofType_array (elem : Ty) (n : UInt32) :
    ofType (.array elem n) = type (.array elem n) := rfl

@[simp] theorem ofType_struct (fields : List Ty) :
    ofType (.struct fields) = type (.struct fields) := rfl

@[simp] theorem weight_ofType (t : Ty) : (ofType t).weight = t.weight := by
  cases t <;> rfl

@[simp] theorem weight_type (t : Ty) : (type t).weight = t.weight := rfl

@[simp] theorem weight_pointer (pointee : Ty) (storage : StorageClass) :
    (pointer pointee storage).weight = pointee.weight + 1 := rfl

@[simp] theorem weight_constant (c : Constant) : (constant c).weight = c.type.weight + 1 := rfl

@[simp] theorem weight_signature (result : Ty) (params : List Ty) :
    (signature result params).weight = Ty.weights (result :: params) + 1 := rfl

end Declaration

@[simp] theorem Constant.type_ofWord (n : Word) : (Constant.ofWord n).type = .int .i32 := rfl

theorem Ty.one_le_weight (t : Ty) : 1 ≤ t.weight := by
  cases t <;> simp [Ty.weight]

theorem Ty.length_le_weights (ts : List Ty) : ts.length ≤ Ty.weights ts := by
  induction ts with
  | nil => exact Nat.le_refl _
  | cons t ts ih =>
    have := t.one_le_weight
    simp only [List.length_cons, Ty.weights]
    omega

namespace Dictionary

/-! ## Steps -/

def nextId (d : Dictionary) : Id := ⟨d.supply.next⟩

def extend (d : Dictionary) (i : Instruction) : Dictionary :=
  { d with supply := ⟨d.supply.next + 1⟩, declarations := d.declarations ++ [i] }

def record (d : Dictionary) (key : Declaration) (i : Instruction) : Dictionary :=
  { d.extend i with
    known := (key, d.nextId) :: d.known
    annotations := d.annotations ++ key.notes d.nextId
    interface := d.interface ++ key.interface d.nextId }

def recordLength (d : Dictionary) (word : Id) : Dictionary :=
  { d.extend (.of .specConstant [word.word, d.nextId.word, 1]) with
    annotations := d.annotations ++ [.of .decorate
      [d.nextId.word, Decoration.specId.number, UInt32.ofNat d.specIds.length]]
    specIds := d.specIds ++ [UInt32.ofNat d.specIds.length] }

/-- The declarations that have no key. Each rests on the one right before it or on a key. -/
inductive Unnamed (d : Dictionary) : Instruction → Prop
  | array {elem : Ty} {e length : Id} {w : Word} (he : d.get? (.ofType elem) = some e)
      (hl : d.declarations.getLast? = some (.of .specConstant [w, length.word, 1])) :
      Unnamed d (.of .typeArray [d.nextId.word, e.word, length.word])
  | pointer {array : Id} {e n : Word}
      (ha : d.declarations.getLast? = some (.of .typeArray [array.word, e, n])) :
      Unnamed d (.of .typePointer [d.nextId.word, StorageClass.workgroup.number, array.word])
  | groupVariable {pointer : Id}
      (hp : (∃ pointee, d.get? (.pointer pointee .workgroup) = some pointer) ∨
        ∃ a, d.declarations.getLast? =
          some (.of .typePointer [pointer.word, StorageClass.workgroup.number, a])) :
      Unnamed d (.of .variable [pointer.word, d.nextId.word, StorageClass.workgroup.number])

inductive Step (d : Dictionary) : Dictionary → Prop
  | need (c : Capability) : Step d { d with capabilities := d.capabilities.insert c }
  | reserve (n : Nat) (room : d.supply.next + n ≤ Supply.limit) :
    Step d { d with supply := ⟨d.supply.next + n⟩ }
  | record {key : Declaration} {i : Instruction} (new : d.get? key = none)
      (made : key.instruction? d.get? d.nextId = some i) (fits : i.Fits)
      (room : d.supply.next + 1 ≤ Supply.limit) : Step d (d.record key i)
  | length {word : Id} (known : d.get? (.type .i32) = some word)
      (room : d.supply.next + 1 ≤ Supply.limit) : Step d (d.recordLength word)
  | unnamed {i : Instruction} (made : d.Unnamed i) (room : d.supply.next + 1 ≤ Supply.limit) :
    Step d (d.extend i)

def Steps : Dictionary → Dictionary → Prop := Relation.ReflTransGen Step

variable {d d₁ d₂ : Dictionary} {key k : Declaration} {id : Id}

theorem Steps.refl (d : Dictionary) : Steps d d := Relation.ReflTransGen.refl

theorem Steps.trans (h₁ : Steps d d₁) (h₂ : Steps d₁ d₂) : Steps d d₂ :=
  Relation.ReflTransGen.trans h₁ h₂

theorem Step.steps (h : Step d d₁) : Steps d d₁ := Relation.ReflTransGen.single h

theorem get?_record (d : Dictionary) (key k : Declaration) (i : Instruction) :
    (d.record key i).get? k = if k = key then some d.nextId else d.get? k := by
  rw [get?, record, List.lookup_cons, get?]
  by_cases h : k = key
  · simp [h]
  · simp [h, beq_eq_false_iff_ne.mpr h]

theorem Steps.get? (h : Steps d d₁) (hk : d.get? k = some id) : d₁.get? k = some id := by
  induction h with
  | refl => exact hk
  | tail _ hs ih =>
    cases hs with
    | need | reserve | length | unnamed => exact ih
    | @record key i new =>
      rw [get?_record]
      by_cases h : k = key
      · rw [h, new] at ih; cases ih
      · rw [if_neg h]; exact ih

theorem Step.capabilities (h : Step d d₁) {c : Capability} (hc : c ∈ d.capabilities) :
    c ∈ d₁.capabilities := by
  cases h with
  | need c' => exact CapabilitySet.mem_insert.mpr (.inr hc)
  | reserve | record | length | unnamed => exact hc

theorem Steps.capabilities (h : Steps d d₁) {c : Capability} (hc : c ∈ d.capabilities) :
    c ∈ d₁.capabilities := by
  induction h with
  | refl => exact hc
  | tail _ hs ih => exact hs.capabilities ih

/-- Growth by declarations that weigh at most `n`. -/
structure Below (n : Nat) (d d₁ : Dictionary) : Prop where
  steps : Steps d d₁
  get? : ∀ k, n < k.weight → d₁.get? k = d.get? k

theorem Below.refl (n : Nat) (d : Dictionary) : Below n d d := ⟨.refl d, fun _ _ => rfl⟩

theorem Below.trans {m n : Nat} (h₁ : Below m d d₁) (h₂ : Below n d₁ d₂) :
    Below (max m n) d d₂ where
  steps := h₁.steps.trans h₂.steps
  get? k hk := by rw [h₂.get? k (by omega), h₁.get? k (by omega)]

theorem Below.mono {m n : Nat} (h : Below m d d₁) (hmn : m ≤ n) : Below n d d₁ :=
  ⟨h.steps, fun k hk => h.get? k (by omega)⟩

theorem need_apply (c : Option Capability) (d : Dictionary) :
    ∃ d₁, need c d = (.ok (), d₁) ∧ Below 0 d d₁ := by
  cases c with
  | none => exact ⟨d, rfl, .refl 0 d⟩
  | some c => exact ⟨_, rfl, (Step.need c).steps, fun _ _ => rfl⟩

theorem define_apply (op : Opcode) (type : Option Id) (operands : List Word) (d : Dictionary) :
    define op type operands d =
      let i := Instruction.of op ((type.map Id.word).toList ++ d.nextId.word :: operands)
      if d.supply.next + 1 ≤ Supply.limit then
        if i.Fits then (.ok d.nextId, d.extend i)
        else (.error (.oversized op), { d with supply := ⟨d.supply.next + 1⟩ })
      else (.error .spaceExhausted, d) := by
  simp only [define, Attempt.bind_apply, onSupply, Attempt.onPart_apply, Supply.draw_apply]
  by_cases room : d.supply.next + 1 ≤ Supply.limit
  · simp only [if_pos room, emit]
    by_cases fits : (Instruction.of op ((type.map Id.word).toList ++ d.nextId.word :: operands)).Fits
    · rw [if_pos fits]; exact if_pos fits ▸ rfl
    · rw [if_neg fits]; exact if_neg fits ▸ rfl
  · simp only [if_neg room]

/-! ## Declarations under a key -/

/-- The request adds what weighs no more than `key`, which is known if it succeeds. -/
structure Declares (key : Declaration) (x : Declare Id) : Prop where
  below : ∀ d, Below key.weight d (x d).2
  known : ∀ d id, (x d).1 = .ok id → (x d).2.get? key = some id

structure DeclaresAll (ts : List Ty) (x : Declare (List Id)) : Prop where
  below : ∀ d, Below (Ty.weights ts) d (x d).2
  known : ∀ d ids, (x d).1 = .ok ids → (ts.mapM fun t => (x d).2.get? (.ofType t)) = some ids

/-- A first request fails, or the key's own instruction takes the next identifier. -/
inductive Makes (key : Declaration) (d : Dictionary) : Except Fault Id × Dictionary → Prop
  | failed {n : Nat} {e : Fault} {d₁ : Dictionary} (light : n < key.weight) (below : Below n d d₁) :
    Makes key d (.error e, d₁)
  | made {n : Nat} {d₁ d₂ : Dictionary} {i : Instruction} (light : n < key.weight)
      (below : Below n d d₁) (made : key.instruction? d₁.get? d₁.nextId = some i) (fits : i.Fits)
      (room : d₁.supply.next + 1 ≤ Supply.limit)
      (after : { d₂ with known := (key, d₁.nextId) :: d₂.known } = d₁.record key i) :
    Makes key d (.ok d₁.nextId, d₂)

theorem once_declares {make : Declare Id} (h : ∀ d, d.get? key = none → Makes key d (make d)) :
    Declares key (once key make) := by
  have run : ∀ d, Below key.weight d (once key make d).2 ∧
      ∀ id, (once key make d).1 = .ok id → (once key make d).2.get? key = some id := by
    intro d
    simp only [once, Attempt.bind_apply, Attempt.state_apply]
    cases hk : d.get? key with
    | some id =>
      refine ⟨.refl _ d, ?_⟩
      rintro _ ⟨⟩
      exact hk
    | none =>
      have hd := h d hk
      simp only [Attempt.bind_apply, Attempt.change_apply, Attempt.pure_apply]
      generalize make d = r at hd
      cases hd with
      | failed light below =>
        refine ⟨below.mono (Nat.le_of_lt light), ?_⟩
        rintro _ ⟨⟩
      | @made n d₁ d₂ i light below made fits room after =>
        -- What the key rests on weighs less, so making it did not make the key.
        have new : d₁.get? key = none := (below.get? key light).trans hk
        dsimp only
        refine ⟨⟨?_, ?_⟩, ?_⟩
        · rw [after]
          exact below.steps.trans (Step.record new made fits room).steps
        · intro k hw
          have hne : k ≠ key := by rintro rfl; omega
          rw [after, get?_record, if_neg hne]
          exact below.get? k (by omega)
        · rintro _ ⟨⟩
          rw [after, get?_record, if_pos rfl]
  exact ⟨fun d => (run d).1, fun d => (run d).2⟩

theorem below_waste (room : d.supply.next + 1 ≤ Supply.limit) :
    Below 0 d { d with supply := ⟨d.supply.next + 1⟩ } :=
  ⟨(Step.reserve 1 room).steps, fun _ _ => rfl⟩

theorem define_makes {n : Nat} {op : Opcode} {type : Option Id} {operands : List Word}
    (light : n < key.weight) (below : Below n d d₁)
    (made : key.instruction? d₁.get? d₁.nextId =
      some (.of op ((type.map Id.word).toList ++ d₁.nextId.word :: operands)))
    (notes : key.notes d₁.nextId = []) (interface : key.interface d₁.nextId = []) :
    Makes key d (define op type operands d₁) := by
  rw [define_apply]
  dsimp only
  split
  · rename_i room
    split
    · rename_i fits
      refine .made light below made fits room ?_
      simp [record, extend, notes, interface]
    · refine .failed (n := n) light ?_
      simpa using below.trans (below_waste room)
  · exact .failed light below

theorem bind_makes {dep : Declaration} {x : Declare Id} {f : Id → Declare Id} {n : Nat}
    (hx : Declares dep x) (light : max n dep.weight < key.weight) (below : Below n d d₁)
    (hf : ∀ id d₂, Below (max n dep.weight) d d₂ → Steps d₁ d₂ → d₂.get? dep = some id →
      Makes key d (f id d₂)) :
    Makes key d ((x >>= f) d₁) := by
  have hb := hx.below d₁
  have hk := hx.known d₁
  rw [Attempt.bind_apply]
  rcases h : x d₁ with ⟨e | id, d₂⟩ <;> rw [h] at hb hk
  · exact .failed light (below.trans hb)
  · exact hf id d₂ (below.trans hb) hb.steps (hk id rfl)

theorem need_makes {c : Option Capability} {x : Declare Id}
    (hx : ∀ d₁, Below 0 d d₁ → Makes key d (x d₁)) :
    Makes key d ((need c >>= fun _ => x) d) := by
  obtain ⟨d₁, h, below⟩ := need_apply c d
  rw [Attempt.bind_apply, h]
  exact hx d₁ below

theorem intId_declares (w : IntWidth) : Declares (.type (.int w)) (intId w) := by
  refine once_declares fun d _ => need_makes fun d₁ below => ?_
  exact define_makes (by simp [Ty.weight]) below rfl rfl rfl

theorem floatId_declares (w : FloatWidth) : Declares (.type (.float w)) (floatId w) := by
  refine once_declares fun d _ => need_makes fun d₁ below => ?_
  exact define_makes (by simp [Ty.weight]) below rfl rfl rfl

theorem pointerTo_declares {pointee : Ty} {declared : Declare Id} (storage : StorageClass)
    (h : Declares (.ofType pointee) declared) :
    Declares (.pointer pointee storage) (pointerTo pointee declared storage) := by
  refine once_declares fun d _ => need_makes fun d₁ below => ?_
  refine bind_makes h (by simp) below fun id d₂ below _ known => ?_
  refine define_makes (by simp) below ?_ rfl rfl
  simp [Declaration.instruction?, known]

theorem constantOf_declares {declared : Declare Id} (c : Constant)
    (h : Declares (.ofType c.type) declared) :
    Declares (.constant c.truncate) (constantOf declared c) := by
  refine once_declares fun d _ => ?_
  refine bind_makes h (by simp) (.refl 0 d) fun id d₂ below _ known => ?_
  refine define_makes (by simp) below ?_ rfl rfl
  simp [Declaration.instruction?, known]

theorem wordId_declares (n : Word) :
    Declares (.constant (Constant.ofWord n).truncate) (wordId n) :=
  constantOf_declares (Constant.ofWord n) (intId_declares .i32)

theorem bindAll_makes {ts : List Ty} {x : Declare (List Id)} {f : List Id → Declare Id}
    (hx : DeclaresAll ts x) (light : Ty.weights ts < key.weight)
    (hf : ∀ ids d₁, Below (Ty.weights ts) d d₁ →
      (ts.mapM fun t => d₁.get? (.ofType t)) = some ids → Makes key d (f ids d₁)) :
    Makes key d ((x >>= f) d) := by
  have hb := hx.below d
  have hk := hx.known d
  rw [Attempt.bind_apply]
  rcases h : x d with ⟨e | ids, d₁⟩ <;> rw [h] at hb hk
  · exact .failed light hb
  · exact hf ids d₁ hb (hk ids rfl)

mutual

theorem typeId_declares : (t : Ty) → Declares (.ofType t) (typeId t)
  | .void => once_declares fun d _ =>
    define_makes (by simp [Declaration.ofType, Ty.weight]) (.refl 0 d) rfl rfl rfl
  | .bool => once_declares fun d _ =>
    define_makes (by simp [Declaration.ofType, Ty.weight]) (.refl 0 d) rfl rfl rfl
  | .int w => intId_declares w
  | .float w => floatId_declares w
  | .vector elem count => by
    refine once_declares fun d _ => ?_
    refine bind_makes (typeId_declares elem) (by simp [Ty.weight]) (.refl 0 d)
      fun id d₁ below _ known => ?_
    refine define_makes (by simp [Ty.weight]) below ?_ rfl rfl
    simp [Declaration.instruction?, known]
  | .array elem length => by
    refine once_declares fun d _ => ?_
    have hpos := elem.one_le_weight
    refine bind_makes (typeId_declares elem) (by simp [Ty.weight]) (.refl 0 d)
      fun id d₁ below _ known => ?_
    refine bind_makes (wordId_declares length) ?_ below fun n d₂ below steps known₂ => ?_
    · simp [Ty.weight]; omega
    refine define_makes ?_ below ?_ rfl rfl
    · simp [Ty.weight]; omega
    · simp [Declaration.instruction?, steps.get? known, known₂]
  | .struct fields => by
    refine once_declares fun d _ => ?_
    refine bindAll_makes (typeIds_declares fields) (by simp [Ty.weight]) fun ids d₁ below known => ?_
    refine define_makes (by simp [Ty.weight]) below ?_ rfl rfl
    simp [Declaration.instruction?, known]
  | .pointer pointee space => pointerTo_declares space.storage (typeId_declares pointee)

theorem typeIds_declares : (ts : List Ty) → DeclaresAll ts (typeIds ts)
  | [] => ⟨fun d => .refl _ d, by rintro d _ ⟨⟩; rfl⟩
  | t :: ts => by
    have ht := typeId_declares t
    have hts := typeIds_declares ts
    have run : ∀ d, Below (Ty.weights (t :: ts)) d (typeIds (t :: ts) d).2 ∧
        ∀ ids, (typeIds (t :: ts) d).1 = .ok ids →
          ((t :: ts).mapM fun u => (typeIds (t :: ts) d).2.get? (.ofType u)) = some ids := by
      intro d
      have hb := ht.below d
      have hk := ht.known d
      simp only [typeIds, Attempt.bind_apply]
      rcases h : typeId t d with ⟨e | id, d₁⟩ <;> rw [h] at hb hk
      · refine ⟨hb.mono (by simp [Ty.weights]), ?_⟩
        rintro _ ⟨⟩
      have hb₁ := hts.below d₁
      have hk₁ := hts.known d₁
      dsimp only at hb hk ⊢
      rcases h₁ : typeIds ts d₁ with ⟨e | ids, d₂⟩ <;> rw [h₁] at hb₁ hk₁
      · refine ⟨(hb.trans hb₁).mono (by rw [Declaration.weight_ofType, Ty.weights]; omega), ?_⟩
        rintro _ ⟨⟩
      · refine ⟨(hb.trans hb₁).mono (by rw [Declaration.weight_ofType, Ty.weights]; omega), ?_⟩
        rintro _ ⟨⟩
        simp only [Attempt.pure_apply, List.mapM_cons, hb₁.steps.get? (hk id rfl), hk₁ ids rfl]
        rfl
    exact ⟨fun d => (run d).1, fun d => (run d).2⟩

end

theorem pointerId_declares (pointee : Ty) (storage : StorageClass) :
    Declares (.pointer pointee storage) (pointerId pointee storage) :=
  pointerTo_declares storage (typeId_declares pointee)

theorem signatureId_declares (result : Ty) (params : List Ty) :
    Declares (.signature result params) (signatureId result params) := by
  refine once_declares fun d _ => ?_
  refine bindAll_makes (typeIds_declares (result :: params)) (by simp) fun ids d₁ below known => ?_
  refine define_makes (by simp) below ?_ rfl rfl
  simp [Declaration.instruction?, known]

theorem constantId_declares (c : Constant) : Declares (.constant c.truncate) (constantId c) :=
  constantOf_declares c (typeId_declares c.type)

/-! ## Declarations that are known -/

theorem once_known {make : Declare Id} (h : d.get? key = some id) :
    once key make d = (.ok id, d) := by
  simp only [once, Attempt.bind_apply, Attempt.state_apply, h, Attempt.pure_apply]

theorem typeId_known {type : Ty} (h : d.get? (.ofType type) = some id) :
    typeId type d = (.ok id, d) := by
  cases type <;> exact once_known h

theorem constantId_known {c : Constant} (h : d.get? (.constant c.truncate) = some id) :
    constantId c d = (.ok id, d) := once_known h

/-! ## Variables -/

theorem builtinId_declares (b : BuiltIn) : Declares (.builtin b) (builtinId b) := by
  refine once_declares fun d _ => ?_
  refine bind_makes (pointerId_declares BuiltIn.type .input) (by simp [Declaration.weight])
    (.refl 0 d) fun p d₁ below _ known => ?_
  have light : max 0 (Declaration.pointer BuiltIn.type .input).weight <
      (Declaration.builtin b).weight := by simp [Declaration.weight]
  have fits : (Instruction.of .variable
      (((some p).map Id.word).toList ++ d₁.nextId.word :: [StorageClass.input.number])).Fits :=
    Instruction.fits_of _ (by simp [Instruction.maxSize])
  rw [Attempt.bind_apply, define_apply]
  by_cases room : d₁.supply.next + 1 ≤ Supply.limit
  · simp only [if_pos room, if_pos fits]
    refine .made light below ?_ fits room rfl
    simp [Declaration.instruction?, known]
  · simp only [if_neg room]
    exact .failed light below

/-! ## Declarations without a key -/

theorem define_cases (op : Opcode) (type : Option Id) (operands : List Word) (d : Dictionary) :
    (∃ e d₁, define op type operands d = (.error e, d₁) ∧ Steps d d₁) ∨
      d.supply.next + 1 ≤ Supply.limit ∧ define op type operands d = (.ok d.nextId,
        d.extend (.of op ((type.map Id.word).toList ++ d.nextId.word :: operands))) := by
  rw [define_apply]
  dsimp only
  split
  · rename_i room
    split
    · exact .inr ⟨room, rfl⟩
    · exact .inl ⟨_, _, rfl, (below_waste room).steps⟩
  · exact .inl ⟨_, _, rfl, .refl d⟩

/-- A run grows the dictionary, and if it succeeds `Q` holds of what it gives back. -/
structure Runs {α : Type} (x : Declare α) (d : Dictionary) (Q : α → Dictionary → Prop) : Prop where
  steps : Steps d (x d).2
  post : ∀ a, (x d).1 = .ok a → Q a (x d).2

theorem Runs.bind {α β : Type} {x : Declare α} {f : α → Declare β} {P : α → Dictionary → Prop}
    {Q : β → Dictionary → Prop} (hx : Runs x d P)
    (hf : ∀ a d₁, Steps d d₁ → P a d₁ → Runs (f a) d₁ Q) : Runs (x >>= f) d Q := by
  obtain ⟨steps, post⟩ := hx
  have run : Steps d ((x >>= f) d).2 ∧ ∀ b, ((x >>= f) d).1 = .ok b → Q b ((x >>= f) d).2 := by
    rw [Attempt.bind_apply]
    rcases h : x d with ⟨e | a, d₁⟩ <;> rw [h] at steps post
    · exact ⟨steps, by rintro _ ⟨⟩⟩
    · have := hf a d₁ steps (post a rfl)
      exact ⟨steps.trans this.steps, this.post⟩
  exact ⟨run.1, run.2⟩

theorem Declares.runs {x : Declare Id} (h : Declares key x) (d : Dictionary) :
    Runs x d fun id d₁ => d₁.get? key = some id :=
  ⟨(h.below d).steps, h.known d⟩

theorem getLast?_extend (d : Dictionary) (i : Instruction) :
    (d.extend i).declarations.getLast? = some i := by
  simp [extend]

theorem define_runs {op : Opcode} {type : Option Id} {operands : List Word} {i : Instruction}
    (hi : i = .of op ((type.map Id.word).toList ++ d.nextId.word :: operands))
    (made : d.Unnamed i) :
    Runs (define op type operands) d fun id d₁ => d₁ = d.extend i ∧ id = d.nextId := by
  subst hi
  obtain ⟨e, d₁, h, hs⟩ | ⟨room, h⟩ := define_cases op type operands d
  · refine ⟨by rw [h]; exact hs, ?_⟩
    rw [h]; rintro _ ⟨⟩
  · refine ⟨by rw [h]; exact (Step.unnamed made room).steps, ?_⟩
    rw [h]; rintro _ ⟨⟩
    exact ⟨rfl, rfl⟩

theorem hostNumber_runs {word : Id} (hw : d.get? (.type .i32) = some word) :
    Runs (hostNumber word) d fun id d₁ => d₁ = d.recordLength word ∧ id = d.nextId := by
  -- The number, its decoration and its place among the numbers are one step.
  obtain ⟨e, d₁, h, hs⟩ | ⟨room, h⟩ := define_cases .specConstant (some word) [1] d
  · have run : hostNumber word d = (.error e, d₁) := by rw [hostNumber, Attempt.bind_apply, h]
    refine ⟨by rw [run]; exact hs, ?_⟩
    rw [run]; rintro _ ⟨⟩
  · have run : hostNumber word d = (.ok d.nextId, d.recordLength word) := by
      rw [hostNumber, Attempt.bind_apply, h]; rfl
    refine ⟨by rw [run]; exact (Step.length hw room).steps, ?_⟩
    rw [run]; rintro _ ⟨⟩
    exact ⟨rfl, rfl⟩

theorem dynamicArrayPointer_runs (elem : Ty) (d : Dictionary) :
    Runs (dynamicArrayPointer elem) d fun id d₁ => ∃ a, d₁.declarations.getLast? =
      some (.of .typePointer [id.word, StorageClass.workgroup.number, a]) := by
  refine ((typeId_declares .i32).runs d).bind fun word d₁ _ hword => ?_
  refine ((typeId_declares elem).runs d₁).bind fun e d₂ steps helem => ?_
  refine (hostNumber_runs (steps.get? hword)).bind ?_
  rintro length d₃ - ⟨rfl, rfl⟩
  have hlast : (d₂.recordLength word).declarations.getLast? =
      some (.of .specConstant [word.word, d₂.nextId.word, 1]) := by
    simp [recordLength, extend]
  have hknown : (d₂.recordLength word).get? (.ofType elem) = some e := helem
  refine (define_runs rfl (.array hknown hlast)).bind ?_
  rintro array d₄ - ⟨rfl, rfl⟩
  refine ⟨(define_runs rfl (.pointer (getLast?_extend _ _))).steps, ?_⟩
  intro id hid
  obtain ⟨h, rfl⟩ := (define_runs rfl (.pointer (getLast?_extend _ _))).post id hid
  rw [h]
  exact ⟨_, getLast?_extend _ _⟩

theorem groupVariable_runs (elem : Ty) (extent : Extent) (d : Dictionary) :
    Runs (groupVariable elem extent) d fun id d₁ => ∃ p : Id,
      d₁.declarations.getLast? =
        some (.of .variable [p.word, id.word, StorageClass.workgroup.number]) ∧
      (extent = .single → d₁.get? (.pointer elem .workgroup) = some p) := by
  have last : ∀ (pointer : Id) (d₁ : Dictionary), d₁.Unnamed
      (.of .variable [pointer.word, d₁.nextId.word, StorageClass.workgroup.number]) →
      (extent = .single → d₁.get? (.pointer elem .workgroup) = some pointer) →
      Runs (define .variable (some pointer) [StorageClass.workgroup.number]) d₁ fun id d₂ =>
        ∃ p : Id, d₂.declarations.getLast? =
          some (.of .variable [p.word, id.word, StorageClass.workgroup.number]) ∧
          (extent = .single → d₂.get? (.pointer elem .workgroup) = some p) := by
    intro pointer d₁ made known
    have run : Runs (define .variable (some pointer) [StorageClass.workgroup.number]) d₁
        fun id d₂ => d₂ = d₁.extend _ ∧ id = d₁.nextId := define_runs rfl made
    refine ⟨run.steps, fun id hid => ?_⟩
    obtain ⟨h, rfl⟩ := run.post id hid
    rw [h]
    exact ⟨pointer, getLast?_extend _ _, known⟩
  cases extent with
  | single =>
    refine ((pointerId_declares elem .workgroup).runs d).bind fun p d₁ _ known => ?_
    exact last p d₁ (.groupVariable (.inl ⟨elem, known⟩)) fun _ => known
  | fixed n =>
    refine ((pointerId_declares (.array elem n) .workgroup).runs d).bind fun p d₁ _ known => ?_
    exact last p d₁ (.groupVariable (.inl ⟨.array elem n, known⟩)) nofun
  | dynamic =>
    refine (dynamicArrayPointer_runs elem d).bind fun p d₁ _ known => ?_
    exact last p d₁ (.groupVariable (.inr known)) nofun

end Dictionary

end SpirvKernel
