import SpirvKernel.Proofs.Dictionary.Requests
import SpirvKernel.Proofs.Dictionary.Soundness

/-!
# One rule for all declarations

The requests for types, pointers, signatures, constants and builtins are one rule, `file`: a key that
is not known has its parts filed and is then declared from their identifiers. What holds of every
request is shown by one induction over this rule.
-/

namespace SpirvKernel

namespace Declaration

/-! ## Parts -/

/-- What a declaration rests on, in the order in which it is asked for. -/
def parts : Declaration → List Declaration
  | .type (.vector elem _) => [ofType elem]
  | .type (.array elem length) => [ofType elem, .constant (Constant.ofWord length).truncate]
  | .type (.struct fields) => fields.map ofType
  | .type _ => []
  | .pointer pointee _ => [ofType pointee]
  | .constant c => [ofType c.type]
  | .signature result params => (result :: params).map ofType
  | .builtin _ => [.pointer BuiltIn.type .input]

def capability? : Declaration → Option Capability
  | .type (.int w) => w.capability?
  | .type (.float w) => w.capability?
  | .pointer _ storage => if storage = .generic then some .genericPointer else none
  | _ => none

def opcode : Declaration → Opcode
  | .type .bool => .typeBool
  | .type (.int _) => .typeInt
  | .type (.float _) => .typeFloat
  | .type (.vector ..) => .typeVector
  | .type (.array ..) => .typeArray
  | .type (.struct _) => .typeStruct
  | .type _ => .typeVoid
  | .pointer .. => .typePointer
  | .constant c => c.opcode
  | .signature .. => .typeFunction
  | .builtin _ => .variable

/-- The operands of a declaration as `id`, given the words of its parts. -/
def operands (id : Id) (parts : List Word) : Declaration → List Word
  | .type (.int w) => [id.word, UInt32.ofNat w.bits, 0]
  | .type (.float w) => [id.word, UInt32.ofNat w.bits]
  | .type (.vector _ count) => id.word :: (parts ++ [count])
  | .type _ => id.word :: parts
  | .pointer _ storage => id.word :: storage.number :: parts
  | .constant c => parts ++ id.word :: c.literal
  | .signature .. => id.word :: parts
  | .builtin _ => parts ++ [id.word, StorageClass.input.number]

def instruction (key : Declaration) (id : Id) (parts : List Id) : Instruction :=
  .of key.opcode (key.operands id (parts.map Id.word))

/-- The keys that are filed: a pointer type has a key of its own, and a constant is cut to its width. -/
def Regular : Declaration → Prop
  | .type (.pointer ..) => False
  | .constant c => c.truncate = c
  | _ => True

variable {key part : Declaration} {look : Declaration → Option Id} {id : Id} {i : Instruction}

theorem instruction?_eq (h : key.Regular) :
    key.instruction? look id = (key.parts.mapM look).map (key.instruction id) := by
  cases key with
  | type t =>
    cases t with
    | void | bool | int | float => rfl
    | vector elem =>
      simp only [instruction?, parts, List.mapM_cons, List.mapM_nil]
      cases look (ofType elem) <;> rfl
    | array elem length =>
      simp only [instruction?, parts, List.mapM_cons, List.mapM_nil]
      cases look (ofType elem) with
      | none => rfl
      | some e => cases look (.constant (Constant.ofWord length).truncate) <;> rfl
    | struct fields =>
      simp only [instruction?, parts, List.mapM_map, Function.comp_def]
      cases fields.mapM fun t => look (ofType t) <;> rfl
    | pointer => cases h
  | pointer pointee storage =>
    simp only [instruction?, parts, List.mapM_cons, List.mapM_nil]
    cases look (ofType pointee) <;> rfl
  | constant c =>
    simp only [instruction?, parts, List.mapM_cons, List.mapM_nil]
    cases look (ofType c.type) <;> rfl
  | signature result params =>
    simp only [instruction?, parts, List.mapM_map, Function.comp_def]
    cases (result :: params).mapM fun t => look (ofType t) <;> rfl
  | builtin b =>
    simp only [instruction?, parts, List.mapM_cons, List.mapM_nil]
    cases look (.pointer BuiltIn.type .input) <;> rfl

theorem length_operands (key : Declaration) (a b : Id) {ps qs : List Word}
    (h : ps.length = qs.length) :
    (key.operands a ps).length = (key.operands b qs).length := by
  cases key with
  | type t => cases t <;> simp [operands, h]
  | pointer | constant | signature | builtin => simp [operands, h]

theorem fits_instruction {a b : Id} {ps qs : List Id} (h : ps.length = qs.length)
    (hf : (key.instruction a ps).Fits) : (key.instruction b qs).Fits := by
  have hwords : (ps.map Id.word).length = (qs.map Id.word).length := by simpa using h
  have hl := length_operands key a b hwords
  unfold Instruction.Fits Instruction.size instruction Instruction.of at hf ⊢
  rwa [← hl]

end Declaration

theorem Ty.weight_le_weights {t : Ty} {ts : List Ty} (h : t ∈ ts) : t.weight ≤ Ty.weights ts := by
  induction ts with
  | nil => cases h
  | cons u ts ih =>
    rw [Ty.weights]
    rcases List.mem_cons.mp h with rfl | h
    · omega
    · have := ih h
      omega

theorem Constant.truncate_truncate (c : Constant) : c.truncate.truncate = c.truncate := by
  cases c <;> simp [Constant.truncate, UInt64.and_assoc]

namespace Declaration

variable {key part : Declaration}

theorem weight_of_mem_parts (h : part ∈ key.parts) : part.weight < key.weight := by
  have hall : ∀ ts : List Ty, part ∈ ts.map ofType → part.weight ≤ Ty.weights ts := by
    intro ts hmem
    obtain ⟨t, ht, rfl⟩ := List.mem_map.mp hmem
    exact weight_ofType t ▸ Ty.weight_le_weights ht
  cases key with
  | type t =>
    cases t with
    | void | bool | int | float | pointer => cases h
    | vector elem count =>
      rw [List.mem_singleton.mp h]
      simp [Ty.weight]
    | array elem length =>
      have := elem.one_le_weight
      rcases List.mem_cons.mp h with rfl | h
      · simp [Ty.weight]
      · rw [List.mem_singleton.mp h]
        simp [Ty.weight]
        omega
    | struct fields => exact Nat.lt_succ_of_le (hall fields h)
  | pointer | constant =>
    rw [List.mem_singleton.mp h]
    simp
  | signature result params => exact Nat.lt_succ_of_le (hall (result :: params) h)
  | builtin b =>
    rw [List.mem_singleton.mp h]
    simp [weight]

theorem one_le_weight (key : Declaration) : 1 ≤ key.weight := by
  cases key with
  | type t => exact t.one_le_weight
  | pointer | constant | signature | builtin => exact Nat.le_add_left 1 _

theorem regular_ofType (t : Ty) : (ofType t).Regular := by
  cases t <;> trivial

theorem regular_pointer (pointee : Ty) (storage : StorageClass) :
    (pointer pointee storage).Regular := trivial

theorem regular_of_mem_parts (h : part ∈ key.parts) : part.Regular := by
  have hall : ∀ ts : List Ty, part ∈ ts.map ofType → part.Regular := by
    intro ts hmem
    obtain ⟨t, -, rfl⟩ := List.mem_map.mp hmem
    exact regular_ofType t
  cases key with
  | type t =>
    cases t with
    | void | bool | int | float | pointer => cases h
    | vector elem count => exact hall [elem] h
    | array elem length =>
      rcases List.mem_cons.mp h with rfl | h
      · exact regular_ofType elem
      · rw [List.mem_singleton.mp h]
        exact Constant.truncate_truncate _
    | struct fields => exact hall fields h
  | pointer pointee => exact hall [pointee] h
  | constant c => exact hall [c.type] h
  | signature result params => exact hall (result :: params) h
  | builtin b =>
    rw [List.mem_singleton.mp h]
    trivial

end Declaration

namespace Dictionary

/-! ## The rule -/

/-- Declares `key` as the next identifier, given the identifiers of its parts. -/
def make (key : Declaration) (parts : List Id) : Declare Id := fun d =>
  let i := key.instruction d.nextId parts
  if d.supply.next + 1 ≤ Supply.limit then
    if i.Fits then
      (.ok d.nextId, { d.extend i with
        annotations := d.annotations ++ key.notes d.nextId
        interface := d.interface ++ key.interface d.nextId })
    else (.error (.oversized key.opcode), { d with supply := ⟨d.supply.next + 1⟩ })
  else (.error .spaceExhausted, d)

def file (key : Declaration) : Declare Id :=
  once key do
    need key.capability?
    let parts ← key.parts.attach.mapM fun part => file part.1
    make key parts
termination_by key.weight
decreasing_by exact Declaration.weight_of_mem_parts part.2

theorem file_eq (key : Declaration) :
    file key = once key (do
      need key.capability?
      let parts ← key.parts.mapM file
      make key parts) := by
  have hparts : (key.parts.attach.mapM fun part => file part.1) = key.parts.mapM file := by
    have := List.mapM_map (l := key.parts.attach) (f := Subtype.val) (g := file)
    rw [List.attach_map_subtype_val] at this
    exact this.symm
  rw [file, hparts]

theorem file_known {key : Declaration} {d : Dictionary} {id : Id} (h : d.get? key = some id) :
    file key d = (.ok id, d) := by
  rw [file_eq, once_known h]

theorem file_unknown {key : Declaration} {d : Dictionary} (h : d.get? key = none) :
    file key d = (do
      need key.capability?
      let parts ← key.parts.mapM file
      let id ← make key parts
      Attempt.change fun d => { d with known := (key, id) :: d.known }
      pure id : Declare Id) d := by
  simp only [file_eq, once, Attempt.bind_apply Attempt.state, Attempt.state_apply, h, bind_assoc]

/-! ## Every request is the rule -/

theorem define_eq_make {key : Declaration} {op : Opcode} {type : Option Id} {operands : List Word}
    {parts : List Id} (hop : key.opcode = op)
    (hwords : ∀ id : Id, key.operands id (parts.map Id.word) =
      (type.map Id.word).toList ++ id.word :: operands)
    (hnotes : ∀ id, key.notes id = []) (hinterface : ∀ id, key.interface id = []) :
    define op type operands = make key parts := by
  funext d
  rw [define_apply, make, Declaration.instruction, hwords, hop, hnotes, hinterface]
  simp only [List.append_nil]
  rfl

theorem intId_eq_file (w : IntWidth) : intId w = file (.type (.int w)) := by
  have hmake : define .typeInt none [UInt32.ofNat w.bits, 0] = make (.type (.int w)) [] :=
    define_eq_make rfl (fun _ => rfl) (fun _ => rfl) fun _ => rfl
  rw [file_eq, intId, hmake]
  simp [Declaration.parts, Declaration.capability?]

theorem floatId_eq_file (w : FloatWidth) : floatId w = file (.type (.float w)) := by
  have hmake : define .typeFloat none [UInt32.ofNat w.bits] = make (.type (.float w)) [] :=
    define_eq_make rfl (fun _ => rfl) (fun _ => rfl) fun _ => rfl
  rw [file_eq, floatId, hmake]
  simp [Declaration.parts, Declaration.capability?]

theorem pointerTo_eq_file {pointee : Ty} {declared : Declare Id} (storage : StorageClass)
    (h : declared = file (.ofType pointee)) :
    pointerTo pointee declared storage = file (.pointer pointee storage) := by
  have hmake : ∀ id : Id, define .typePointer none [storage.number, id.word] =
      make (.pointer pointee storage) [id] :=
    fun _ => define_eq_make rfl (fun _ => rfl) (fun _ => rfl) fun _ => rfl
  rw [file_eq, pointerTo, h]
  simp [Declaration.parts, Declaration.capability?, hmake]

theorem constantOf_eq_file {declared : Declare Id} (c : Constant)
    (h : declared = file (.ofType c.type)) :
    constantOf declared c = file (.constant c.truncate) := by
  have hmake : ∀ id : Id, define c.truncate.opcode (some id) c.truncate.literal =
      make (.constant c.truncate) [id] :=
    fun _ => define_eq_make rfl (fun _ => rfl) (fun _ => rfl) fun _ => rfl
  rw [file_eq, constantOf, h]
  simp [Declaration.parts, Declaration.capability?, hmake, need]

theorem wordId_eq_file (n : Word) : wordId n = file (.constant (Constant.ofWord n).truncate) :=
  constantOf_eq_file _ (intId_eq_file .i32)

mutual

theorem typeId_eq_file : (t : Ty) → typeId t = file (.ofType t)
  | .void => by
    have hmake : define .typeVoid none [] = make (.type .void) [] :=
      define_eq_make rfl (fun _ => rfl) (fun _ => rfl) fun _ => rfl
    rw [file_eq, typeId, hmake]
    rfl
  | .bool => by
    have hmake : define .typeBool none [] = make (.type .bool) [] :=
      define_eq_make rfl (fun _ => rfl) (fun _ => rfl) fun _ => rfl
    rw [file_eq, typeId, hmake]
    rfl
  | .int w => intId_eq_file w
  | .float w => floatId_eq_file w
  | .vector elem count => by
    have hmake : ∀ id : Id, define .typeVector none [id.word, count] =
        make (.type (.vector elem count)) [id] :=
      fun _ => define_eq_make rfl (fun _ => rfl) (fun _ => rfl) fun _ => rfl
    rw [file_eq, typeId, typeId_eq_file elem]
    simp [Declaration.parts, Declaration.capability?, hmake, need]
  | .array elem length => by
    have hmake : ∀ e n : Id, define .typeArray none [e.word, n.word] =
        make (.type (.array elem length)) [e, n] :=
      fun _ _ => define_eq_make rfl (fun _ => rfl) (fun _ => rfl) fun _ => rfl
    rw [file_eq, typeId, typeId_eq_file elem, wordId_eq_file]
    simp [Declaration.parts, Declaration.capability?, hmake, need]
  | .struct fields => by
    have hmake : ∀ ids : List Id, define .typeStruct none (ids.map Id.word) =
        make (.type (.struct fields)) ids :=
      fun _ => define_eq_make rfl (fun _ => rfl) (fun _ => rfl) fun _ => rfl
    rw [file_eq, typeId, typeIds_eq_file fields]
    simp [Declaration.parts, Declaration.capability?, hmake, need]
  | .pointer pointee space => pointerTo_eq_file space.storage (typeId_eq_file pointee)

theorem typeIds_eq_file : (ts : List Ty) → typeIds ts = (ts.map Declaration.ofType).mapM file
  | [] => rfl
  | t :: ts => by
    rw [typeIds, typeId_eq_file t, typeIds_eq_file ts, List.map_cons, List.mapM_cons]

end

theorem pointerId_eq_file (pointee : Ty) (storage : StorageClass) :
    pointerId pointee storage = file (.pointer pointee storage) :=
  pointerTo_eq_file storage (typeId_eq_file pointee)

theorem signatureId_eq_file (result : Ty) (params : List Ty) :
    signatureId result params = file (.signature result params) := by
  have hmake : ∀ ids : List Id, define .typeFunction none (ids.map Id.word) =
      make (.signature result params) ids :=
    fun _ => define_eq_make rfl (fun _ => rfl) (fun _ => rfl) fun _ => rfl
  rw [file_eq, signatureId, typeIds_eq_file]
  simp only [hmake]
  rfl

theorem constantId_eq_file (c : Constant) : constantId c = file (.constant c.truncate) :=
  constantOf_eq_file c (typeId_eq_file c.type)

theorem builtinId_eq_file (b : BuiltIn) : builtinId b = file (.builtin b) := by
  rw [file_eq, builtinId, pointerId_eq_file]
  simp only [Declaration.parts, Declaration.capability?, need, List.mapM_cons, List.mapM_nil,
    bind_assoc, pure_bind]
  congr 2
  funext p d
  have fits : (Instruction.of .variable [p.word, d.nextId.word, StorageClass.input.number]).Fits :=
    Instruction.fits_of _ (by simp [Instruction.maxSize])
  have hmake : make (.builtin b) [p] d =
      if d.supply.next + 1 ≤ Supply.limit then
        (.ok d.nextId, { d.extend (.of .variable [p.word, d.nextId.word, StorageClass.input.number]) with
          annotations := d.annotations ++ (Declaration.builtin b).notes d.nextId
          interface := d.interface ++ (Declaration.builtin b).interface d.nextId })
      else (.error .spaceExhausted, d) := by
    rw [make]
    exact if_congr Iff.rfl (if_pos fits) rfl
  rw [hmake, Attempt.bind_apply, define_apply]
  by_cases room : d.supply.next + 1 ≤ Supply.limit
  · simp only [if_pos room]
    rw [if_pos (by exact fits)]
    rfl
  · simp only [if_neg room]

theorem perform_eq_file {r : Request} {key : Declaration} (h : r.key? = some key) :
    perform r = file key := by
  cases r with
  | groupVariable => cases h
  | type t => cases h; exact typeId_eq_file t
  | pointer pointee storage => cases h; exact pointerId_eq_file pointee storage
  | signature result params => cases h; exact signatureId_eq_file result params
  | constant c => cases h; exact constantId_eq_file c
  | word n => cases h; exact wordId_eq_file n
  | builtin b => cases h; exact builtinId_eq_file b

/-! ## The steps of the rule -/

/-- A capability is noted, or a key of weight at most `n` is declared after its parts. -/
inductive FileStep (n : Nat) (d : Dictionary) : Dictionary → Prop
  | need (c : Capability) : FileStep n d { d with capabilities := d.capabilities.insert c }
  | record {key : Declaration} {parts : List Id} (light : key.weight ≤ n) (regular : key.Regular)
      (able : ∀ c, key.capability? = some c → c ∈ d.capabilities) (new : d.get? key = none)
      (known : key.parts.mapM d.get? = some parts) (fits : (key.instruction d.nextId parts).Fits)
      (room : d.supply.next + 1 ≤ Supply.limit) :
      FileStep n d (d.record key (key.instruction d.nextId parts))

def Files (n : Nat) : Dictionary → Dictionary → Prop := Relation.ReflTransGen (FileStep n)

variable {d d₁ d₂ : Dictionary} {key k : Declaration} {id : Id} {m n : Nat}

theorem Files.refl (n : Nat) (d : Dictionary) : Files n d d := Relation.ReflTransGen.refl

theorem Files.trans (h₁ : Files n d d₁) (h₂ : Files n d₁ d₂) : Files n d d₂ :=
  Relation.ReflTransGen.trans h₁ h₂

theorem Files.mono (hmn : m ≤ n) (h : Files m d d₁) : Files n d d₁ := by
  refine Relation.ReflTransGen.mono (fun a b hab => ?_) d d₁ h
  cases hab with
  | need c => exact .need c
  | record light regular able new known fits room =>
    exact .record (Nat.le_trans light hmn) regular able new known fits room

theorem FileStep.step (h : FileStep n d d₁) : Step d d₁ := by
  cases h with
  | need c => exact .need c
  | record light regular able new known fits room =>
    refine .record new ?_ fits room
    rw [Declaration.instruction?_eq regular, known]
    rfl

theorem Files.steps (h : Files n d d₁) : Steps d d₁ :=
  Relation.ReflTransGen.mono (fun _ _ hs => FileStep.step hs) d d₁ h

theorem Files.get?_of_lt (h : Files n d d₁) (hk : n < k.weight) : d₁.get? k = d.get? k := by
  induction h with
  | refl => rfl
  | tail _ hs ih =>
    cases hs with
    | need => exact ih
    | @record key parts light =>
      have hne : k ≠ key := by rintro rfl; omega
      rw [get?_record, if_neg hne]
      exact ih

/-- How filing up to weight `n` ends. If it fails, it may have drawn one identifier in vain. -/
inductive FilingEnds {α : Type} (n : Nat) (d : Dictionary) (Q : α → Dictionary → Prop) :
    Except Fault α × Dictionary → Prop
  | done {a : α} {d₁ : Dictionary} (files : Files n d d₁) (post : Q a d₁) : FilingEnds n d Q (.ok a, d₁)
  | failed {e : Fault} {d₁ : Dictionary} (files : Files n d d₁) : FilingEnds n d Q (.error e, d₁)
  | wasted {e : Fault} {d₁ : Dictionary} (files : Files n d d₁)
      (room : d₁.supply.next + 1 ≤ Supply.limit) :
      FilingEnds n d Q (.error e, { d₁ with supply := ⟨d₁.supply.next + 1⟩ })

section

variable {α β : Type} {P : α → Dictionary → Prop} {Q : β → Dictionary → Prop}

theorem FilingEnds.after {r : Except Fault α × Dictionary} (hd : Files n d d₁)
    (h : FilingEnds n d₁ P r) : FilingEnds n d P r := by
  cases h with
  | done files post => exact .done (hd.trans files) post
  | failed files => exact .failed (hd.trans files)
  | wasted files room => exact .wasted (hd.trans files) room

theorem FilingEnds.mono {r : Except Fault α × Dictionary} (hmn : m ≤ n) (h : FilingEnds m d P r) :
    FilingEnds n d P r := by
  cases h with
  | done files post => exact .done (files.mono hmn) post
  | failed files => exact .failed (files.mono hmn)
  | wasted files room => exact .wasted (files.mono hmn) room

theorem FilingEnds.steps {r : Except Fault α × Dictionary} (h : FilingEnds n d P r) : Steps d r.2 := by
  cases h with
  | done files | failed files => exact files.steps
  | wasted files room => exact files.steps.trans (Step.reserve 1 room).steps

theorem FilingEnds.get?_of_lt {r : Except Fault α × Dictionary} (h : FilingEnds n d P r)
    (hk : n < k.weight) : r.2.get? k = d.get? k := by
  cases h with
  | done files | failed files | wasted files => exact files.get?_of_lt hk

theorem FilingEnds.bind {x : Declare α} {f : α → Declare β} (hx : FilingEnds n d P (x d))
    (hf : ∀ a d₁, Files n d d₁ → P a d₁ → FilingEnds n d₁ Q (f a d₁)) :
    FilingEnds n d Q ((x >>= f) d) := by
  rw [Attempt.bind_apply]
  generalize x d = r at hx
  cases hx with
  | @done a d₁ files post => exact .after files (hf a d₁ files post)
  | failed files => exact .failed files
  | wasted files room => exact .wasted files room

end

theorem mapM_file_ends {keys : List Declaration}
    (h : ∀ key ∈ keys, ∀ d, FilingEnds n d (fun id d₁ => d₁.get? key = some id) (file key d))
    (d : Dictionary) :
    FilingEnds n d (fun ids d₁ => keys.mapM d₁.get? = some ids) (keys.mapM file d) := by
  induction keys generalizing d with
  | nil => exact .done (.refl n d) rfl
  | cons key keys ih =>
    rw [List.mapM_cons]
    refine (h key List.mem_cons_self d).bind fun id d₁ _ known => ?_
    refine (ih (fun k hk => h k (List.mem_cons_of_mem key hk)) d₁).bind fun ids d₂ files rest => ?_
    exact .done (.refl n d₂) (mapM_cons_some_iff.mpr ⟨id, ids, files.steps.get? known, rest, rfl⟩)

theorem make_ends {parts : List Id} (hd : Files n d₁ d) (light : key.weight ≤ n)
    (regular : key.Regular) (able : ∀ c, key.capability? = some c → c ∈ d.capabilities)
    (new : d.get? key = none) (known : key.parts.mapM d.get? = some parts) :
    FilingEnds n d₁ (fun id d₂ => d₂.get? key = some id) ((do
      let id ← make key parts
      Attempt.change fun d => { d with known := (key, id) :: d.known }
      pure id) d) := by
  rw [Attempt.bind_apply, make]
  dsimp only
  by_cases room : d.supply.next + 1 ≤ Supply.limit
  · rw [if_pos room]
    by_cases fits : (key.instruction d.nextId parts).Fits
    · rw [if_pos fits]
      have step : FileStep n d (d.record key (key.instruction d.nextId parts)) :=
        .record light regular able new known fits room
      refine .done (hd.trans (Relation.ReflTransGen.single step)) ?_
      exact (get?_record d key key _).trans (if_pos rfl)
    · rw [if_neg fits]
      exact .wasted hd room
  · rw [if_neg room]
    exact .failed hd

theorem need_files (n : Nat) (c? : Option Capability) (d : Dictionary) :
    ∃ d₁, need c? d = (.ok (), d₁) ∧ Files n d d₁ ∧ ∀ c, c? = some c → c ∈ d₁.capabilities := by
  cases c? with
  | none => exact ⟨d, rfl, .refl _ d, nofun⟩
  | some c =>
    refine ⟨_, rfl, Relation.ReflTransGen.single (.need c), ?_⟩
    rintro _ ⟨⟩
    exact CapabilitySet.mem_insert.mpr (.inl rfl)

/-- A request for a key takes steps of the rule only, and if it succeeds the key is known. -/
theorem file_ends (regular : key.Regular) (d : Dictionary) :
    FilingEnds key.weight d (fun id d₁ => d₁.get? key = some id) (file key d) := by
  induction hw : key.weight using Nat.strongRecOn generalizing key d with
  | _ n ih =>
    subst hw
    rw [file_eq, once, Attempt.bind_apply, Attempt.state_apply]
    dsimp only
    cases hk : d.get? key with
    | some id => exact .done (.refl _ d) hk
    | none =>
      have hpos := key.one_le_weight
      obtain ⟨d₁, hneed, files, able⟩ := need_files (key.weight - 1) key.capability? d
      have hparts : FilingEnds (key.weight - 1) d₁ (fun ids d₂ => key.parts.mapM d₂.get? = some ids)
          (key.parts.mapM file d₁) := by
        refine mapM_file_ends (fun part hp d => ?_) d₁
        have hlt := Declaration.weight_of_mem_parts hp
        exact (ih part.weight hlt (Declaration.regular_of_mem_parts hp) d rfl).mono (by omega)
      simp only [bind_assoc]
      rw [Attempt.bind_apply, hneed]
      dsimp only
      rw [Attempt.bind_apply]
      generalize key.parts.mapM file d₁ = r at hparts
      have hle : key.weight - 1 ≤ key.weight := Nat.sub_le _ 1
      cases hparts with
      | @done ids d₂ files₂ known =>
        -- The parts weigh less, so filing them did not file the key.
        have new : d₂.get? key = none :=
          ((files.trans files₂).get?_of_lt (by omega)).trans hk
        refine make_ends ((files.trans files₂).mono hle) (Nat.le_refl _) regular ?_ new known
        exact fun c hc => files₂.steps.capabilities (able c hc)
      | failed files₂ => exact .failed ((files.trans files₂).mono hle)
      | wasted files₂ room => exact .wasted ((files.trans files₂).mono hle) room

theorem parts_ends {keys : List Declaration} (sub : keys ⊆ key.parts) (d : Dictionary) :
    FilingEnds (key.weight - 1) d (fun ids d₁ => keys.mapM d₁.get? = some ids) (keys.mapM file d) := by
  refine mapM_file_ends (fun part hp d => ?_) d
  have hlt := Declaration.weight_of_mem_parts (sub hp)
  exact (file_ends (Declaration.regular_of_mem_parts (sub hp)) d).mono (by omega)

theorem files_parts {ids : List Id} (h : key.parts.mapM file d = (.ok ids, d₁)) :
    Files (key.weight - 1) d d₁ ∧ key.parts.mapM d₁.get? = some ids := by
  have ends := parts_ends (List.Subset.refl key.parts) d
  rw [h] at ends
  cases ends with
  | done files known => exact ⟨files, known⟩

/-! ## What filing keeps -/

/-- How many identifiers were drawn for anything but a key. -/
def surplus (d : Dictionary) : Int := d.supply.next - d.size

theorem Files.surplus (h : Files n d d₁) : d₁.surplus = d.surplus := by
  induction h with
  | refl => rfl
  | tail _ hs ih =>
    rw [← ih]
    cases hs with
    | need => rfl
    | record =>
      simp only [Dictionary.surplus, record, extend, size, List.length_cons]
      omega

theorem Files.specIds (h : Files n d d₁) : d₁.specIds = d.specIds := by
  induction h with
  | refl => rfl
  | tail _ hs ih => cases hs <;> exact ih

section

variable {q : Instruction → Bool} (other : ∀ {key : Declaration} {look : Declaration → Option Id}
  {id : Id} {i : Instruction}, key.instruction? look id = some i → q i = false)
include other

theorem Files.filter_declarations (h : Files n d d₁) :
    d₁.declarations.filter q = d.declarations.filter q := by
  induction h with
  | refl => rfl
  | @tail d₂ _ _ hs ih =>
    rw [← ih]
    cases hs with
    | need => rfl
    | @record key parts _ regular _ _ known =>
      have made : key.instruction? d₂.get? d₂.nextId = some (key.instruction d₂.nextId parts) := by
        rw [Declaration.instruction?_eq regular, known]
        rfl
      simp [record, extend, other made]

theorem file_filter_declarations (regular : key.Regular) (d : Dictionary) :
    (file key d).2.declarations.filter q = d.declarations.filter q := by
  have ends := file_ends regular d
  generalize file key d = r at ends
  cases ends with
  | done files | failed files | wasted files =>
    have same := files.filter_declarations other
    exact same

end

/-- Whatever is known has its capability noted. -/
def CapabilitiesNoted (d : Dictionary) : Prop :=
  ∀ k id c, d.get? k = some id → k.capability? = some c → c ∈ d.capabilities

theorem Files.noted (h : Files n d d₁) (hd : d.CapabilitiesNoted) : d₁.CapabilitiesNoted := by
  induction h with
  | refl => exact hd
  | tail _ hs ih =>
    cases hs with
    | need c' =>
      intro k id c hk hc
      exact CapabilitySet.mem_insert.mpr (.inr (ih k id c hk hc))
    | @record key parts _ _ able =>
      intro k id c hk hc
      rw [get?_record] at hk
      by_cases h : k = key
      · exact able c (h ▸ hc)
      · rw [if_neg h] at hk
        exact ih k id c hk hc

end Dictionary

end SpirvKernel
