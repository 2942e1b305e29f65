import SpirvKernel.Proofs.Emission.Effect
import SpirvKernel.Proofs.Selection.Conversion

/-!
# What values become

The instructions that a value stands for, given the final names of the method and the final
dictionary. Emission of a value is a run that writes them.
-/

namespace SpirvKernel

open Instruction Attempt

/-! ## Opcodes that are chosen -/

/-- The opcodes that operators and intrinsics become. -/
inductive Opcode.OfOperator : Opcode → Prop
  | binary {op : BinaryOp} {cls : ScalarClass} {flags : ArithmeticFlags} {code : Opcode}
      (select : op.opcode? cls flags = some code) : OfOperator code
  | unary {op : UnaryOp} {cls : ScalarClass} {code : Opcode} (select : op.opcode? cls = some code) :
      OfOperator code
  | compare {op : CompareOp} {cls : ScalarClass} {flags : ArithmeticFlags} {code : Opcode}
      (select : op.opcode? cls flags = some code) : OfOperator code
  | intrinsic {f : Intrinsic} {cls : ScalarClass} {flags : ArithmeticFlags} {code : Opcode}
      (select : f.form? cls flags = some (.core code)) : OfOperator code

theorem Opcode.OfOperator.computation {code : Opcode} (h : code.OfOperator) :
    code.format false = .computation := by
  rcases h with @⟨op, cls, _, _, h⟩ | @⟨op, cls, _, h⟩ | @⟨op, cls, _, _, h⟩ | @⟨op, cls, _, _, h⟩ <;>
    cases cls <;> cases op <;>
    simp only [BinaryOp.opcode?, UnaryOp.opcode?, CompareOp.opcode?, Intrinsic.form?, Option.some.injEq,
      IntrinsicForm.core.injEq, reduceCtorEq] at h <;>
    subst h <;> first | rfl | (split <;> rfl)

def Conversion.opcode? : Conversion → Option Opcode
  | .direct op | .toBool op => some op
  | .fromBool => none

theorem Conversion.computation_of_between? {source target : Ty} {flags : ConvertFlags}
    {c : Conversion} {code : Opcode} (h : between? source target flags = some c)
    (hc : c.opcode? = some code) : code.format false = .computation := by
  unfold between? at h
  split at h
  · cases h; cases hc; rfl
  · split at h
    all_goals try (cases h <;> cases hc <;> first | rfl | (split <;> rfl))
    -- What is left are two pointers.
    obtain ⟨a, ha, h⟩ := Option.bind_eq_some_iff.mp h
    obtain ⟨b, hb, h⟩ := Option.bind_eq_some_iff.mp h
    obtain ⟨op, hop, h⟩ := Option.bind_eq_some_iff.mp h
    cases h; cases hc
    unfold ofSpaces? at hop
    split at hop
    · cases hop; rfl
    · split at hop
      · cases hop; rfl
      · split at hop <;> cases hop; rfl

/-! ## Choices that succeed -/

theorem Operator.demand_ok_iff {α : Type} {op : Operator} {cls : ScalarClass} {o : Option α} {a : α} :
    op.demand cls o = .ok a ↔ o = some a := by
  cases o <;> simp [demand]

theorem FunctionTable.get_ok_iff {table : FunctionTable} {m : MethodId} {id : Id} :
    table.get m = .ok id ↔ table.get? m = some id := by
  unfold get
  split <;> simp_all

theorem Ty.unit_ok_iff {type : Ty} {one : Bool} {c : Constant} :
    type.unit one = .ok c ↔ type.unit? one = some c := by
  unfold unit
  split <;> simp_all

namespace Emission

/-! ## The instructions of a value -/

/-- A value of the type and kind is computed by `op` from `ws`, after the instructions `prelude`. -/
inductive Computes (t : Task) (d : Dictionary) (T : IdTable) (type : Ty) :
    ValueKind → Opcode → List Word → List Instruction → Prop
  | undef : Computes t d T type .undef .undef [] []
  | binary {op : BinaryOp} {lhs rhs : ValueId} {flags : ArithmeticFlags} {code : Opcode} {x y : Word}
      (select : op.opcode? type.scalarClass flags = some code)
      (hx : T.value? lhs = some x) (hy : T.value? rhs = some y) :
    Computes t d T type (.binary op lhs rhs flags) code [x, y] []
  | unary {op : UnaryOp} {source : ValueId} {code : Opcode} {x : Word}
      (select : op.opcode? type.scalarClass = some code) (hx : T.value? source = some x) :
    Computes t d T type (.unary op source) code [x] []
  | compare {op : CompareOp} {lhs rhs : ValueId} {flags : ArithmeticFlags} {compared : Ty}
      {code : Opcode} {x y : Word} (hc : t.method.typeOf? lhs = some compared)
      (select : op.opcode? compared.scalarClass flags = some code)
      (hx : T.value? lhs = some x) (hy : T.value? rhs = some y) :
    Computes t d T type (.compare op lhs rhs flags) code [x, y] []
  | convert {source : ValueId} {flags : ConvertFlags} {given : Ty} {code : Opcode} {x : Word}
      (hs : t.method.typeOf? source = some given)
      (select : Conversion.between? given type flags = some (.direct code))
      (hx : T.value? source = some x) :
    Computes t d T type (.convert source flags) code [x] []
  | fromBool {source : ValueId} {flags : ConvertFlags} {given : Ty} {one zero : Constant}
      {x : Word} {i j : Id} (hs : t.method.typeOf? source = some given)
      (select : Conversion.between? given type flags = some .fromBool)
      (hx : T.value? source = some x)
      (hone : type.unit? true = some one) (hi : d.get? (.constant one.truncate) = some i)
      (hzero : type.unit? false = some zero) (hj : d.get? (.constant zero.truncate) = some j) :
    Computes t d T type (.convert source flags) .select [x, i.word, j.word] []
  | toBool {source : ValueId} {flags : ConvertFlags} {given : Ty} {zero : Constant}
      {code : Opcode} {x : Word} {j : Id} (hs : t.method.typeOf? source = some given)
      (select : Conversion.between? given type flags = some (.toBool code))
      (hx : T.value? source = some x)
      (hzero : given.unit? false = some zero) (hj : d.get? (.constant zero.truncate) = some j) :
    Computes t d T type (.convert source flags) code [x, j.word] []
  | select {cond thenValue elseValue : ValueId} {c x y : Word} (hc : T.value? cond = some c)
      (hx : T.value? thenValue = some x) (hy : T.value? elseValue = some y) :
    Computes t d T type (.select cond thenValue elseValue) .select [c, x, y] []
  | load {address : ValueId} {p : Word} (hp : T.value? address = some p) :
    Computes t d T type (.load address) .load [p] []
  | elementAddress {base index : ValueId} {p i : Word} (hp : T.value? base = some p)
      (hi : T.value? index = some i) :
    Computes t d T type (.elementAddress base index) .inBoundsPtrAccessChain [p, i] []
  | fieldAddress {base : ValueId} {field : UInt32} {p : Word} {i : Id}
      (hp : T.value? base = some p)
      (hi : d.get? (.constant (Constant.ofWord field).truncate) = some i) :
    Computes t d T type (.fieldAddress base field) .inBoundsAccessChain [p, i.word] []
  | extractField {aggregate : ValueId} {field : UInt32} {x : Word}
      (hx : T.value? aggregate = some x) :
    Computes t d T type (.extractField aggregate field) .compositeExtract [x, field] []
  | callMethod {m : MethodId} {args : List ValueId} {flags : ArithmeticFlags} {f : Id}
      {xs : List Word} (hf : t.frame.functions.get? m = some f)
      (hxs : args.mapM T.value? = some xs) :
    Computes t d T type (.call (.method m) args flags) .functionCall (f.word :: xs) []
  | callCore {f : Intrinsic} {first : ValueId} {rest : List ValueId} {flags : ArithmeticFlags}
      {argument : Ty} {code : Opcode} {xs : List Word} (ha : t.method.typeOf? first = some argument)
      (select : f.form? argument.scalarClass flags = some (.core code))
      (hxs : (first :: rest).mapM T.value? = some xs) :
    Computes t d T type (.call (.intrinsic f) (first :: rest) flags) code xs []
  | callExtended {f : Intrinsic} {first : ValueId} {rest : List ValueId} {flags : ArithmeticFlags}
      {argument : Ty} {number : Word} {xs : List Word}
      (ha : t.method.typeOf? first = some argument)
      (select : f.form? argument.scalarClass flags = some (.extended number))
      (hxs : (first :: rest).mapM T.value? = some xs) :
    Computes t d T type (.call (.intrinsic f) (first :: rest) flags) .extInst
      (t.frame.openCl.word :: number :: xs) []
  | phi {incoming : List (ValueId × BlockId)} {values labels : List Word}
      (hv : incoming.mapM (fun x => T.value? x.1) = some values)
      (hl : incoming.mapM (fun x => T.label? x.2) = some labels) :
    Computes t d T type (.phi incoming) .phi ((values.zip labels).flatMap fun (v, b) => [v, b]) []
  | gridIndex {builtin : GridBuiltin} {dimension : UInt8} {var vector : Id} {loaded : Word}
      (hd : dimension ≤ 2) (ht : type = .i64)
      (hvar : d.get? (.builtin builtin.variable) = some var)
      (hvector : d.get? (.ofType BuiltIn.type) = some vector) :
    Computes t d T type (.gridIndex builtin dimension) .compositeExtract
      [loaded, dimension.toUInt32] [.of .load [vector.word, loaded, var.word]]
  | narrowGridIndex {builtin : GridBuiltin} {dimension : UInt8} {width : IntWidth}
      {var vector wide : Id} {loaded extracted : Word} (hd : dimension ≤ 2)
      (ht : type = .int width) (hw : width ≠ .i64)
      (hvar : d.get? (.builtin builtin.variable) = some var)
      (hvector : d.get? (.ofType BuiltIn.type) = some vector)
      (hwide : d.get? (.ofType .i64) = some wide) :
    Computes t d T type (.gridIndex builtin dimension) .uConvert [extracted]
      [.of .load [vector.word, loaded, var.word],
        .of .compositeExtract [wide.word, extracted, loaded, dimension.toUInt32]]

inductive Lowers (t : Task) (d : Dictionary) (T : IdTable) (v : Value) : List Instruction → Prop
  | constant {c : Constant} {id : Id} (kind : v.kind = .constant c)
      (named : T.get? (.value v.id) = some id)
      (declared : d.get? (.constant c.truncate) = some id) : Lowers t d T v []
  -- The memory is placed at the top of the function.
  | alloca {elem : Ty} {extent : Extent} (kind : v.kind = .alloca elem extent) : Lowers t d T v []
  | store {address source : ValueId} {p x : Word} (kind : v.kind = .store address source)
      (hp : T.value? address = some p) (hx : T.value? source = some x) :
    Lowers t d T v [.of .store [p, x]]
  | barrier {scope semantics : Id} (kind : v.kind = .barrier)
      (hscope : d.get? (.constant (Constant.ofWord workgroupScope).truncate) = some scope)
      (hsemantics : d.get? (.constant (Constant.ofWord barrierSemantics).truncate) =
        some semantics) :
    Lowers t d T v [.of .controlBarrier [scope.word, scope.word, semantics.word]]
  | computed {op : Opcode} {ws : List Word} {before : List Instruction} {type id : Id}
      (how : Computes t d T v.type v.kind op ws before)
      (hasType : d.get? (.ofType v.type) = some type)
      (named : T.get? (.value v.id) = some id) :
    Lowers t d T v (before ++ [.of op (type.word :: id.word :: ws)])

/-! ## Emission of values -/

variable {t : Task} {s s₁ s' : Emission} {v : Value}

def Lowered (t : Task) (s : Emission) (v : Value) (s' : Emission) : Prop :=
  Wrote t s [] (fun d T is => Lowers t d T v is) s'

/-- A value's type is declared in `s₁`, and the value takes the next identifier there. -/
structure Takes (s : Emission) (v : Value) (type : Id) (s₁ : Emission) : Prop where
  declared : Declared s (.ofType v.type) type s₁
  new : s₁.work.table.get? (.value v.id) = none
  room : s₁.work.table.range.next < s₁.work.table.range.stop

theorem result_ok {r : Word × Word} (h : result v s = (.ok r, s')) :
    ∃ type s₁, Takes s v type s₁ ∧ r = (type.word, s₁.nextId.word) ∧
      s' = s₁.taken.named (.value v.id) s₁.nextId := by
  simp only [result, bind_eq_ok_iff, pure_ok_iff] at h
  obtain ⟨_, s₁, htype, _, _, hid, rfl, rfl⟩ := h
  obtain ⟨type, rfl, declared⟩ := typeWord_ok htype
  obtain ⟨new, room, rfl, rfl⟩ := allocate_ok_iff.mp hid
  exact ⟨type, s₁, ⟨declared, new, room⟩, rfl, rfl⟩

theorem Takes.lowered {type : Id} {s₂ : Emission} {before : List Line} {l : Line}
    (h : Takes s₁ v type s₂) (hbefore : Run t s [] before s₁)
    (typing : (v.id, v.type) ∈ t.typings)
    (typed : l.draft.typed? = some (type.word, s₂.nextId.word)) (inner : l.draft.opens = false)
    (fits : l.draft.Fits) (uses : ∀ w ∈ l.draft.uses, w = type.word ∨ Available t s₁ w)
    (how : ∀ d T, s₂.dictionary.Steps d →
      (s₂.taken.named (.value v.id) s₂.nextId).work.table.Within T → l.Resolved T →
      Lowers t d T v ((before ++ [l]).map (Line.final T))) :
    Lowered t s v ((s₂.taken.named (.value v.id) s₂.nextId).written l) := by
  have step : Step t s₂ [] [l] ((s₂.taken.named (.value v.id) s₂.nextId).written l) := by
    refine .define h.room h.new typing h.declared.known typed inner fits fun w hw => ?_
    rcases uses w hw with rfl | hw
    · exact h.declared.available
    · exact hw.mono h.declared.run
  have run := (hbefore.trans h.declared.run).trans step.run
  simp only [List.append_nil] at run
  refine ⟨_, run, fun d T hd hT hl => how d T hd hT (hl l ?_)⟩
  exact List.mem_append_right _ (List.mem_singleton.mpr rfl)

theorem emitResult_lowered {op : Opcode} {ws used : List Word} (before : List Instruction)
    (hbefore : Run t s [] (before.map .plain) s₁) (hop : op.Reads ws used)
    (typing : (v.id, v.type) ∈ t.typings) (hused : ∀ w ∈ used, Available t s₁ w)
    (how : ∀ d T, s₁.dictionary.Steps d → s₁.work.table.Within T →
      Computes t d T v.type v.kind op ws before)
    (h : emitResult v op ws s₁ = (.ok (), s')) : Lowered t s v s' := by
  simp only [emitResult, bind_eq_ok_iff] at h
  obtain ⟨_, _, hresult, h⟩ := h
  obtain ⟨type, s₂, takes, rfl, rfl⟩ := result_ok hresult
  obtain ⟨fits, rfl⟩ := emit_ok_iff.mp h
  refine takes.lowered hbefore typing (typed?_of hop.typed _ _ _) (hop.inner _) fits ?_ ?_
  · intro w hw
    rw [Line.draft, hop.uses] at hw
    rcases List.mem_cons.mp hw with rfl | hw
    · exact .inl rfl
    · exact .inr (hused w hw)
  · intro d T hd hT _
    have within : s₁.work.table.Within T := by
      rw [← takes.declared.work]
      exact (within_named takes.new _).trans hT
    rw [List.map_append, map_final_plain]
    exact .computed (how d T (takes.declared.steps.trans hd) within) (hd.get? takes.declared.known)
      (hT _ _ (named_value s₂.taken v.id s₂.nextId))

/-! ### Phis -/

def incoming? (table : IdTable) (x : ValueId × BlockId) : Option Incoming :=
  (table.label? x.2).map fun label => ⟨x.1, table.value? x.1, label⟩

theorem phiOperands_ok {start : Nat} {incoming : List (ValueId × BlockId)}
    {r : List Word × List (Nat × ValueId)} (h : phiOperands t start incoming s = (.ok r, s')) :
    s' = s ∧ ∃ xs, incoming.mapM (incoming? s.work.table) = some xs ∧
      r = (xs.flatMap Incoming.draft, Incoming.missing start xs) := by
  induction incoming generalizing start r s' with
  | nil =>
    obtain ⟨rfl, rfl⟩ := pure_ok_iff.mp h
    exact ⟨rfl, [], rfl, rfl⟩
  | cons x incoming ih =>
    obtain ⟨v, b⟩ := x
    simp only [phiOperands, bind_eq_ok_iff, typeOf_ok_iff, state_ok_iff, label_ok_iff] at h
    obtain ⟨_, _, ⟨-, rfl⟩, _, _, ⟨rfl, rfl⟩, label, _, ⟨hlabel, rfl⟩, rest, s₁, hrest, h⟩ := h
    obtain ⟨rfl, xs, hxs, rfl⟩ := ih hrest
    have hx : incoming? s₁.work.table (v, b) = some ⟨v, s₁.work.table.value? v, label⟩ := by
      rw [incoming?, hlabel]; rfl
    have hall : ((v, b) :: incoming).mapM (incoming? s₁.work.table) =
        some (⟨v, s₁.work.table.value? v, label⟩ :: xs) :=
      mapM_cons_some_iff.mpr ⟨_, xs, hx, hxs, rfl⟩
    cases hv : s₁.work.table.get? (.value v) with
    | some id =>
      rw [hv] at h
      obtain ⟨rfl, rfl⟩ := pure_ok_iff.mp h
      exact ⟨rfl, _, hall, by simp [Incoming.draft, Incoming.missing, IdTable.value?, hv]⟩
    | none =>
      rw [hv] at h
      obtain ⟨rfl, rfl⟩ := pure_ok_iff.mp h
      exact ⟨rfl, _, hall, by simp [Incoming.draft, Incoming.missing, IdTable.value?, hv]⟩

theorem flatMap_final {table T : IdTable} {incoming : List (ValueId × BlockId)}
    {xs : List Incoming} {start : Nat} (hT : table.Within T)
    (h : incoming.mapM (incoming? table) = some xs)
    (hmissing : ∀ m ∈ Incoming.missing start xs, (T.value? m.2).isSome) :
    ∃ values labels, incoming.mapM (fun x => T.value? x.1) = some values ∧
      incoming.mapM (fun x => T.label? x.2) = some labels ∧
      xs.flatMap (Incoming.final T) = (values.zip labels).flatMap fun (v, b) => [v, b] := by
  induction incoming generalizing xs start with
  | nil =>
    obtain rfl := mapM_nil_some_iff.mp h
    exact ⟨[], [], rfl, rfl, rfl⟩
  | cons x incoming ih =>
    obtain ⟨y, ys, hy, hys, rfl⟩ := mapM_cons_some_iff.mp h
    obtain ⟨label, hlabel, rfl⟩ := Option.map_eq_some_iff.mp hy
    have hrest : ∀ m ∈ Incoming.missing (start + 2) ys, (T.value? m.2).isSome := by
      intro m hm
      apply hmissing
      unfold Incoming.missing
      split
      · exact hm
      · exact List.mem_cons_of_mem _ hm
    obtain ⟨values, labels, hvalues, hlabels, hfinal⟩ := ih hys hrest
    obtain ⟨value, hvalue, hword⟩ : ∃ value, T.value? x.1 = some value ∧
        (table.value? x.1).getD ((T.value? x.1).getD 0) = value := by
      cases hx : table.value? x.1 with
      | some w => exact ⟨w, hT.value? hx, rfl⟩
      | none =>
        have : (T.value? x.1).isSome := hmissing (start, x.1) (by simp [Incoming.missing, hx])
        obtain ⟨w, hw⟩ := Option.isSome_iff_exists.mp this
        exact ⟨w, hw, by simp [hw]⟩
    refine ⟨value :: values, label :: labels, mapM_cons_some_iff.mpr ⟨_, _, hvalue, hvalues, rfl⟩,
      mapM_cons_some_iff.mpr ⟨_, _, hT.label? hlabel, hlabels, rfl⟩, ?_⟩
    simp [Incoming.final, hword, hfinal]

theorem emitPhi_lowered {incoming : List (ValueId × BlockId)} (hk : v.kind = .phi incoming)
    (typing : (v.id, v.type) ∈ t.typings) (h : emitPhi t v incoming s = (.ok (), s')) :
    Lowered t s v s' := by
  simp only [emitPhi, bind_eq_ok_iff, state_ok_iff] at h
  obtain ⟨_, _, hresult, r, _, hr, _, _, ⟨rfl, rfl⟩, _, _, hemit, h⟩ := h
  obtain ⟨type, s₂, takes, rfl, rfl⟩ := result_ok hresult
  obtain ⟨rfl, xs, hxs, rfl⟩ := phiOperands_ok hr
  obtain ⟨fits, rfl⟩ := emit_ok_iff.mp hemit
  have hs : s' = (s₂.taken.named (.value v.id) s₂.nextId).written
      (.phi type.word s₂.nextId.word xs) := by
    simp only [onWork, onPart_ok_iff, change_ok_iff] at h
    obtain ⟨_, rfl, rfl⟩ := h
    simp [written, Line.pending, Line.missing, Line.draft]
  rw [hs]
  refine takes.lowered .refl typing (typed?_of rfl _ _ _) rfl fits ?_ ?_
  · intro w hw
    left
    simpa [Line.draft, uses, inSlot_of, Opcode.format, Format.read, -List.filterMap_map,
      filterMap_slot_map] using hw
  · intro d T hd hT hl
    obtain ⟨values, labels, hvalues, hlabels, hfinal⟩ := flatMap_final hT hxs hl
    have hline : Line.final T (.phi type.word s₂.nextId.word xs) = .of .phi
        (type.word :: s₂.nextId.word :: (values.zip labels).flatMap fun (v, b) => [v, b]) := by
      rw [Line.final, hfinal]
    rw [List.map_append, List.map_singleton, hline]
    refine .computed ?_ (hd.get? takes.declared.known)
      (hT _ _ (named_value s₂.taken v.id s₂.nextId))
    rw [hk]
    exact .phi hvalues hlabels

/-! ### Conversions, calls and grid indices -/

theorem unitWord_ok {type : Ty} {one : Bool} {w : Word} (h : unitWord type one s = (.ok w, s')) :
    ∃ c, ∃ id : Id, w = id.word ∧ type.unit? one = some c ∧
      Declared s (.constant c.truncate) id s' := by
  simp only [unitWord, bind_eq_ok_iff, ofExcept_ok_iff] at h
  obtain ⟨c, _, ⟨hc, rfl⟩, h⟩ := h
  obtain ⟨id, rfl, made⟩ := constantWord_ok h
  exact ⟨c, id, rfl, Ty.unit_ok_iff.mp hc, made⟩

theorem emitConversion_lowered {source : ValueId} {flags : ConvertFlags}
    (hk : v.kind = .convert source flags) (typing : (v.id, v.type) ∈ t.typings)
    (h : emitConversion t v source flags s = (.ok (), s')) : Lowered t s v s' := by
  simp only [emitConversion, bind_eq_ok_iff, typeOf_ok_iff, ofExcept_ok_iff, operand_ok_iff] at h
  obtain ⟨given, _, ⟨hs, rfl⟩, c, _, ⟨hc, rfl⟩, x, _, ⟨hx, rfl⟩, h⟩ := h
  replace hc := Conversion.between_ok_iff.mp hc
  have computation : ∀ code, c.opcode? = some code → code.format false = .computation :=
    fun _ => Conversion.computation_of_between? hc
  cases c with
  | direct op =>
    refine emitResult_lowered [] .refl (Opcode.reads_computation (computation op rfl) _) typing ?_ ?_ h
    · simpa using Available.value hx
    · intro d T _ hT
      rw [hk]
      exact .convert hs hc (hT.value? hx)
  | fromBool =>
    simp only [bind_eq_ok_iff] at h
    obtain ⟨_, _, hone, _, _, hzero, h⟩ := h
    obtain ⟨one, i, rfl, hone, made⟩ := unitWord_ok hone
    obtain ⟨zero, j, rfl, hzero, made'⟩ := unitWord_ok hzero
    have run := (made.run (t := t)).trans made'.run
    refine emitResult_lowered [] run (Opcode.reads_computation rfl _) typing ?_ ?_ h
    · have hx' := (Available.value (t := t) hx).mono run
      have hi := (made.available (t := t)).mono made'.run
      simpa using ⟨hx', hi, made'.available⟩
    · intro d T hd hT
      rw [hk]
      exact .fromBool hs hc ((run.advances.names.trans hT).value? hx) hone
        ((made'.steps.trans hd).get? made.known) hzero (hd.get? made'.known)
  | toBool op =>
    simp only [bind_eq_ok_iff] at h
    obtain ⟨_, _, hzero, h⟩ := h
    obtain ⟨zero, j, rfl, hzero, made⟩ := unitWord_ok hzero
    have hop := Opcode.reads_computation (computation op rfl)
    refine emitResult_lowered [] made.run (hop _) typing ?_ ?_ h
    · have hx' := (Available.value (t := t) hx).mono made.run
      simpa using ⟨hx', made.available⟩
    · intro d T hd hT
      rw [hk]
      exact .toBool hs hc (((made.run (t := t)).advances.names.trans hT).value? hx) hzero
        (hd.get? made.known)

theorem available_of_mapM {vs : List ValueId} {ws : List Word}
    (h : vs.mapM s.work.table.value? = some ws) : ∀ w ∈ ws, Available t s w := by
  intro w hw
  obtain ⟨u, -, hu⟩ := mem_of_mapM h w hw
  exact .value hu

theorem emitCall_lowered {callee : Callee} {args : List ValueId} {flags : ArithmeticFlags}
    (hk : v.kind = .call callee args flags) (typing : (v.id, v.type) ∈ t.typings)
    (h : emitCall t v callee args flags s = (.ok (), s')) : Lowered t s v s' := by
  simp only [emitCall, bind_eq_ok_iff, operands_ok_iff] at h
  obtain ⟨xs, _, ⟨hxs, rfl⟩, h⟩ := h
  have within : ∀ T, s.work.table.Within T → args.mapM T.value? = some xs :=
    fun T hT => mapM_mono (fun _ _ => hT.value?) hxs
  cases callee with
  | method m =>
    simp only [bind_eq_ok_iff, ofExcept_ok_iff] at h
    obtain ⟨f, _, ⟨hf, rfl⟩, h⟩ := h
    refine emitResult_lowered [] .refl (Opcode.reads_functionCall f.word xs) typing
      (available_of_mapM hxs) ?_ h
    intro d T _ hT
    rw [hk]
    exact .callMethod (FunctionTable.get_ok_iff.mp hf) (within T hT)
  | intrinsic f =>
    cases args with
    | nil => exact absurd h (by simp)
    | cons first rest =>
      simp only [bind_eq_ok_iff, typeOf_ok_iff, ofExcept_ok_iff] at h
      obtain ⟨argument, _, ⟨ha, rfl⟩, form, _, ⟨hform, rfl⟩, h⟩ := h
      replace hform := Operator.demand_ok_iff.mp hform
      cases form with
      | core op =>
        have hop := (Opcode.OfOperator.intrinsic hform).computation
        refine emitResult_lowered [] .refl (Opcode.reads_computation hop xs) typing
          (available_of_mapM hxs) ?_ h
        intro d T _ hT
        rw [hk]
        exact .callCore ha hform (within T hT)
      | extended number =>
        refine emitResult_lowered [] .refl (Opcode.reads_extInst _ number xs) typing ?_ ?_ h
        · intro w hw
          rcases List.mem_cons.mp hw with rfl | hw
          · exact .openCl rfl
          · exact available_of_mapM hxs w hw
        · intro d T _ hT
          rw [hk]
          exact .callExtended ha hform (within T hT)

theorem emitGridIndex_lowered {builtin : GridBuiltin} {dimension : UInt8}
    (hk : v.kind = .gridIndex builtin dimension) (typing : (v.id, v.type) ∈ t.typings)
    (h : emitGridIndex v builtin dimension s = (.ok (), s')) : Lowered t s v s' := by
  simp only [emitGridIndex, ite_ok_iff, fail_ok_iff, and_false, false_or] at h
  obtain ⟨hd, h⟩ := h
  replace hd : dimension ≤ 2 := UInt8.not_lt.mp hd
  obtain ⟨width, htype⟩ : ∃ width, v.type = .int width := by
    cases htype : v.type <;> simp [htype] at h
    exact ⟨_, rfl⟩
  simp only [htype, bind_eq_ok_iff] at h
  obtain ⟨var, _, h₁, _, _, h₂, _, _, h₃, _, s₁, h₄, _, s₂, hload, h⟩ := h
  obtain ⟨loaded, hfresh, rfl⟩ := map_ok_iff.mp h₄
  have hvar := declare_ok (Dictionary.builtinId_declares _) h₁
  obtain ⟨vector, rfl, hvector⟩ := typeWord_ok h₂
  obtain ⟨wide, rfl, hwide⟩ := typeWord_ok h₃
  have declared := ((hvar.run (t := t)).trans hvector.run).trans hwide.run
  have havailable : Available t _ vector.word := hvector.available.mono hwide.run
  have hvar' : Available t _ var.word := (hvar.available.mono hvector.run).mono hwide.run
  obtain ⟨runLoad, hloaded⟩ := compute_run (Opcode.reads_load var.word) havailable
    (by simpa using hvar') hfresh hload
  have steps := hwide.steps.trans runLoad.advances.steps
  rw [ite_ok_iff] at h
  rcases h with ⟨hw, h⟩ | ⟨hw, h⟩
  · refine emitResult_lowered [_] (declared.trans runLoad) (Opcode.reads_compositeExtract _ _) typing
      (by simpa using hloaded) ?_ h
    intro d T hd' _
    rw [hk]
    refine .gridIndex hd (by rw [htype, hw]; rfl) ?_ ?_
    · exact ((hvector.steps.trans steps).trans hd').get? hvar.known
    · exact (steps.trans hd').get? hvector.known
  · simp only [bind_eq_ok_iff] at h
    obtain ⟨_, s₃, h₅, _, s₄, hextract, h⟩ := h
    obtain ⟨extracted, hfresh, rfl⟩ := map_ok_iff.mp h₅
    have hwide' : Available t s₂ wide.word := hwide.available.mono runLoad
    obtain ⟨runExtract, hextracted⟩ := compute_run (Opcode.reads_compositeExtract _ _) hwide'
      (by simpa using hloaded) hfresh hextract
    refine emitResult_lowered [_, _] ((declared.trans runLoad).trans runExtract)
      (Opcode.reads_computation rfl _) typing (by simpa using hextracted) ?_ h
    intro d T hd' _
    have last := runExtract.advances.steps.trans hd'
    rw [hk]
    refine .narrowGridIndex hd htype hw ?_ ?_ ?_
    · exact ((hvector.steps.trans steps).trans last).get? hvar.known
    · exact (steps.trans last).get? hvector.known
    · exact (runLoad.advances.steps.trans last).get? hwide.known

/-! ### All values -/

theorem emitBarrier_lowered (hk : v.kind = .barrier) (h : emitBarrier s = (.ok (), s')) :
    Lowered t s v s' := by
  simp only [emitBarrier, bind_eq_ok_iff] at h
  obtain ⟨_, _, h₁, _, s₁, h₂, h⟩ := h
  obtain ⟨scope, rfl, hscope⟩ := constantWord_ok h₁
  obtain ⟨semantics, rfl, hsemantics⟩ := constantWord_ok h₂
  have run : Run t s₁ [] [.plain (.of .controlBarrier
      [scope.word, scope.word, semantics.word])] s' := by
    refine emit_effect rfl rfl ?_ h
    have : Available t s₁ scope.word := hscope.available.mono hsemantics.run
    simpa [uses, inSlot_of, Opcode.format, Format.read] using ⟨this, hsemantics.available⟩
  refine ⟨_, (hscope.run.trans hsemantics.run).trans run, fun d T hd _ _ => ?_⟩
  have steps := run.advances.steps.trans hd
  exact .barrier hk ((hsemantics.steps.trans steps).get? hscope.known) (steps.get? hsemantics.known)

theorem constant_lowered {c : Constant} (hk : v.kind = .constant c)
    (typing : (v.id, c.type) ∈ t.typings) (h : emitValue t v s = (.ok (), s')) :
    Lowered t s v s' := by
  simp only [emitValue, hk, bind_eq_ok_iff] at h
  obtain ⟨id, s₁, hid, h⟩ := h
  have hid := declare_ok (Dictionary.constantId_declares c) hid
  obtain ⟨new, rfl⟩ := bind_ok_iff.mp h
  have stands : StandsForType s₁.dictionary c.type id := .constant hid.known c.type_truncate
  refine ⟨[], hid.run.trans (Step.bind new typing stands).run, fun d T hd hT _ => ?_⟩
  exact .constant hk (hT _ _ (named_value s₁ v.id id)) (hd.get? hid.known)

theorem store_lowered {address source : ValueId} (hk : v.kind = .store address source)
    (h : emitValue t v s = (.ok (), s')) : Lowered t s v s' := by
  simp only [emitValue, hk, bind_eq_ok_iff, operand_ok_iff] at h
  obtain ⟨p, _, ⟨hp, rfl⟩, x, _, ⟨hx, rfl⟩, h⟩ := h
  have run : Run t s [] [.plain (.of .store [p, x])] s' := by
    refine emit_effect rfl rfl ?_ h
    simpa [uses, inSlot_of, Opcode.format, Format.read] using ⟨.value hp, .value hx⟩
  refine ⟨_, run, fun d T _ hT _ => ?_⟩
  have names := run.advances.names.trans hT
  exact .store hk (names.value? hp) (names.value? hx)

theorem fieldAddress_lowered {base : ValueId} {field : UInt32} (hk : v.kind = .fieldAddress base field)
    (typing : (v.id, v.type) ∈ t.typings) (h : emitValue t v s = (.ok (), s')) :
    Lowered t s v s' := by
  simp only [emitValue, hk, bind_eq_ok_iff, operand_ok_iff] at h
  obtain ⟨p, _, ⟨hp, rfl⟩, _, s₁, hi, h⟩ := h
  obtain ⟨i, rfl, made⟩ := constantWord_ok hi
  refine emitResult_lowered [] made.run (Opcode.reads_computation rfl _) typing ?_ ?_ h
  · have hp' := (Available.value (t := t) hp).mono made.run
    simpa using ⟨hp', made.available⟩
  · intro d T hd hT
    rw [hk]
    exact .fieldAddress (((made.run (t := t)).advances.names.trans hT).value? hp)
      (hd.get? made.known)

theorem emitValue_lowered (hv : v ∈ t.method.values) (h : emitValue t v s = (.ok (), s')) :
    Lowered t s v s' := by
  have typing : ∀ type, v.resultType? = some type → (v.id, type) ∈ t.typings :=
    fun _ => Task.mem_typings hv
  cases hk : v.kind with
  | constant c =>
    exact constant_lowered hk (typing _ (by simp [Value.resultType?, hk])) h
  | undef =>
    simp only [emitValue, hk] at h
    refine emitResult_lowered [] .refl Opcode.reads_undef
      (typing _ (by simp [Value.resultType?, hk])) (by simp) ?_ h
    intro d T _ _
    rw [hk]
    exact .undef
  | binary op lhs rhs flags =>
    simp only [emitValue, hk, bind_eq_ok_iff, ofExcept_ok_iff, operand_ok_iff] at h
    obtain ⟨code, _, ⟨hcode, rfl⟩, x, _, ⟨hx, rfl⟩, y, _, ⟨hy, rfl⟩, h⟩ := h
    replace hcode := Operator.demand_ok_iff.mp hcode
    refine emitResult_lowered [] .refl
      (Opcode.reads_computation (Opcode.OfOperator.binary hcode).computation _)
      (typing _ (by simp [Value.resultType?, hk])) ?_ ?_ h
    · simpa using ⟨.value hx, .value hy⟩
    · intro d T _ hT
      rw [hk]
      exact .binary hcode (hT.value? hx) (hT.value? hy)
  | unary op source =>
    simp only [emitValue, hk, bind_eq_ok_iff, ofExcept_ok_iff, operand_ok_iff] at h
    obtain ⟨code, _, ⟨hcode, rfl⟩, x, _, ⟨hx, rfl⟩, h⟩ := h
    replace hcode := Operator.demand_ok_iff.mp hcode
    refine emitResult_lowered [] .refl
      (Opcode.reads_computation (Opcode.OfOperator.unary hcode).computation _)
      (typing _ (by simp [Value.resultType?, hk])) ?_ ?_ h
    · simpa using .value hx
    · intro d T _ hT
      rw [hk]
      exact .unary hcode (hT.value? hx)
  | compare op lhs rhs flags =>
    simp only [emitValue, hk, bind_eq_ok_iff, typeOf_ok_iff, ofExcept_ok_iff, operand_ok_iff] at h
    obtain ⟨compared, _, ⟨hc, rfl⟩, code, _, ⟨hcode, rfl⟩, x, _, ⟨hx, rfl⟩, y, _, ⟨hy, rfl⟩, h⟩ := h
    replace hcode := Operator.demand_ok_iff.mp hcode
    refine emitResult_lowered [] .refl
      (Opcode.reads_computation (Opcode.OfOperator.compare hcode).computation _)
      (typing _ (by simp [Value.resultType?, hk])) ?_ ?_ h
    · simpa using ⟨.value hx, .value hy⟩
    · intro d T _ hT
      rw [hk]
      exact .compare hc hcode (hT.value? hx) (hT.value? hy)
  | convert source flags =>
    simp only [emitValue, hk] at h
    exact emitConversion_lowered hk (typing _ (by simp [Value.resultType?, hk])) h
  | select cond thenValue elseValue =>
    simp only [emitValue, hk, bind_eq_ok_iff, operand_ok_iff] at h
    obtain ⟨c, _, ⟨hc, rfl⟩, x, _, ⟨hx, rfl⟩, y, _, ⟨hy, rfl⟩, h⟩ := h
    refine emitResult_lowered [] .refl (Opcode.reads_computation rfl _)
      (typing _ (by simp [Value.resultType?, hk])) ?_ ?_ h
    · simpa using ⟨.value hc, .value hx, .value hy⟩
    · intro d T _ hT
      rw [hk]
      exact .select (hT.value? hc) (hT.value? hx) (hT.value? hy)
  | alloca elem extent =>
    simp only [emitValue, hk] at h
    cases hkind : t.storage.kindOf? v.id with
    | none => simp [hkind] at h
    | some kind =>
      simp only [hkind, pure_ok_iff] at h
      obtain ⟨-, rfl⟩ := h
      exact ⟨[], .refl, fun _ _ _ _ _ => .alloca hk⟩
  | load address =>
    simp only [emitValue, hk, bind_eq_ok_iff, operand_ok_iff] at h
    obtain ⟨p, _, ⟨hp, rfl⟩, h⟩ := h
    refine emitResult_lowered [] .refl (Opcode.reads_load p)
      (typing _ (by simp [Value.resultType?, hk])) ?_ ?_ h
    · simpa using .value hp
    · intro d T _ hT
      rw [hk]
      exact .load (hT.value? hp)
  | store address source =>
    exact store_lowered hk h
  | elementAddress base index =>
    simp only [emitValue, hk, bind_eq_ok_iff, operand_ok_iff] at h
    obtain ⟨p, _, ⟨hp, rfl⟩, i, _, ⟨hi, rfl⟩, h⟩ := h
    refine emitResult_lowered [] .refl (Opcode.reads_computation rfl _)
      (typing _ (by simp [Value.resultType?, hk])) ?_ ?_ h
    · simpa using ⟨.value hp, .value hi⟩
    · intro d T _ hT
      rw [hk]
      exact .elementAddress (hT.value? hp) (hT.value? hi)
  | fieldAddress base field =>
    exact fieldAddress_lowered hk (typing _ (by simp [Value.resultType?, hk])) h
  | extractField aggregate field =>
    simp only [emitValue, hk, bind_eq_ok_iff, operand_ok_iff] at h
    obtain ⟨x, _, ⟨hx, rfl⟩, h⟩ := h
    refine emitResult_lowered [] .refl (Opcode.reads_compositeExtract x field)
      (typing _ (by simp [Value.resultType?, hk])) ?_ ?_ h
    · simpa using .value hx
    · intro d T _ hT
      rw [hk]
      exact .extractField (hT.value? hx)
  | call callee args flags =>
    simp only [emitValue, hk] at h
    exact emitCall_lowered hk (typing _ (by simp [Value.resultType?, hk])) h
  | phi incoming =>
    simp only [emitValue, hk] at h
    exact emitPhi_lowered hk (typing _ (by simp [Value.resultType?, hk])) h
  | gridIndex builtin dimension =>
    simp only [emitValue, hk] at h
    exact emitGridIndex_lowered hk (typing _ (by simp [Value.resultType?, hk])) h
  | barrier =>
    simp only [emitValue, hk] at h
    exact emitBarrier_lowered hk h
  | inlineAssembly template args =>
    simp [emitValue, hk] at h

end Emission

end SpirvKernel
