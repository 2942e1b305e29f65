import Mathlib.Data.List.Forall2
import Mathlib.Data.Option.Basic
import SpirvKernel.Proofs.Run
import SpirvKernel.Emission.State

/-!
# Methods that differ in names only

Names are matched one to one between two methods. Methods are alike if they are the same but for names
that match; then types, values and storage are found alike in both.
-/

namespace SpirvKernel

def OneToOne {α β : Type} (R : α → β → Prop) : Prop :=
  ∀ a a' b b', R a b → R a' b' → (a = a' ↔ b = b')

/-- Which names of one program stand for which names of another. -/
structure Naming where
  value : ValueId → ValueId → Prop
  block : BlockId → BlockId → Prop
  method : MethodId → MethodId → Prop
  values : OneToOne value
  blocks : OneToOne block
  methods : OneToOne method

theorem oneToOne_eq {α : Type} : OneToOne (@Eq α) := by
  rintro a a' _ _ rfl rfl
  rfl

theorem OneToOne.swap {α β : Type} {R : α → β → Prop} (h : OneToOne R) :
    OneToOne (Function.swap R) :=
  fun _ _ _ _ hb hb' => (h _ _ _ _ hb hb').symm

namespace Naming

/-- Every name stands for itself. -/
def same : Naming := ⟨Eq, Eq, Eq, oneToOne_eq, oneToOne_eq, oneToOne_eq⟩

def flip (N : Naming) : Naming where
  value := Function.swap N.value
  block := Function.swap N.block
  method := Function.swap N.method
  values := N.values.swap
  blocks := N.blocks.swap
  methods := N.methods.swap

end Naming

/-! ## Likeness -/

section

variable (N : Naming)

inductive Callee.Like : Callee → Callee → Prop
  | method {m m' : MethodId} (h : N.method m m') : Like (.method m) (.method m')
  | intrinsic (f : Intrinsic) : Like (.intrinsic f) (.intrinsic f)

def Incoming.Like (x y : ValueId × BlockId) : Prop := N.value x.1 y.1 ∧ N.block x.2 y.2

inductive ValueKind.Like : ValueKind → ValueKind → Prop
  | constant (c : Constant) : Like (.constant c) (.constant c)
  | undef : Like .undef .undef
  | binary {a a' b b' : ValueId} (op : BinaryOp) (flags : ArithmeticFlags) (ha : N.value a a')
      (hb : N.value b b') : Like (.binary op a b flags) (.binary op a' b' flags)
  | unary {a a' : ValueId} (op : UnaryOp) (ha : N.value a a') : Like (.unary op a) (.unary op a')
  | compare {a a' b b' : ValueId} (op : CompareOp) (flags : ArithmeticFlags) (ha : N.value a a')
      (hb : N.value b b') : Like (.compare op a b flags) (.compare op a' b' flags)
  | convert {a a' : ValueId} (flags : ConvertFlags) (ha : N.value a a') :
      Like (.convert a flags) (.convert a' flags)
  | select {a a' b b' c c' : ValueId} (ha : N.value a a') (hb : N.value b b') (hc : N.value c c') :
      Like (.select a b c) (.select a' b' c')
  | alloca (elem : Ty) (extent : Extent) : Like (.alloca elem extent) (.alloca elem extent)
  | load {a a' : ValueId} (ha : N.value a a') : Like (.load a) (.load a')
  | store {a a' b b' : ValueId} (ha : N.value a a') (hb : N.value b b') :
      Like (.store a b) (.store a' b')
  | elementAddress {a a' b b' : ValueId} (ha : N.value a a') (hb : N.value b b') :
      Like (.elementAddress a b) (.elementAddress a' b')
  | fieldAddress {a a' : ValueId} (field : UInt32) (ha : N.value a a') :
      Like (.fieldAddress a field) (.fieldAddress a' field)
  | extractField {a a' : ValueId} (field : UInt32) (ha : N.value a a') :
      Like (.extractField a field) (.extractField a' field)
  | call {callee callee' : Callee} {args args' : List ValueId} (flags : ArithmeticFlags)
      (hcallee : callee.Like N callee') (hargs : List.Forall₂ N.value args args') :
      Like (.call callee args flags) (.call callee' args' flags)
  | phi {incoming incoming' : List (ValueId × BlockId)}
      (h : List.Forall₂ (Incoming.Like N) incoming incoming') : Like (.phi incoming) (.phi incoming')
  | gridIndex (builtin : GridBuiltin) (dimension : UInt8) :
      Like (.gridIndex builtin dimension) (.gridIndex builtin dimension)
  | barrier : Like .barrier .barrier
  | inlineAssembly {args args' : List ValueId} (template : String)
      (hargs : List.Forall₂ N.value args args') :
      Like (.inlineAssembly template args) (.inlineAssembly template args')

structure Value.Like (v v' : Value) : Prop where
  id : N.value v.id v'.id
  type : v'.type = v.type
  kind : v.kind.Like N v'.kind

def Case.Like (x y : UInt64 × BlockId) : Prop := y.1 = x.1 ∧ N.block x.2 y.2

inductive Terminator.Like : Terminator → Terminator → Prop
  | leave : Like (.ret none) (.ret none)
  | ret {a a' : ValueId} (ha : N.value a a') : Like (.ret (some a)) (.ret (some a'))
  | branch {b b' : BlockId} (hb : N.block b b') : Like (.branch b) (.branch b')
  | condBranch {a a' : ValueId} {b b' c c' : BlockId} (ha : N.value a a') (hb : N.block b b')
      (hc : N.block c c') : Like (.condBranch a b c) (.condBranch a' b' c')
  | switch {a a' : ValueId} {cases cases' : List (UInt64 × BlockId)} {b b' : BlockId}
      (ha : N.value a a') (hcases : List.Forall₂ (Case.Like N) cases cases') (hb : N.block b b') :
      Like (.switch a cases b) (.switch a' cases' b')
  | unreachable : Like .unreachable .unreachable

structure Block.Like (b b' : Block) : Prop where
  id : N.block b.id b'.id
  body : List.Forall₂ (Value.Like N) b.body b'.body
  terminator : b.terminator.Like N b'.terminator

structure Param.Like (p p' : Param) : Prop where
  value : N.value p.value p'.value
  type : p'.type = p.type

structure Method.Like (m m' : Method) : Prop where
  id : N.method m.id m'.id
  name : m'.name = m.name
  params : List.Forall₂ (Param.Like N) m.params m'.params
  returnType : m'.returnType = m.returnType
  blocks : List.Forall₂ (Block.Like N) m.blocks m'.blocks

structure Allocation.Like (a a' : Allocation) : Prop where
  value : N.value a.value a'.value
  elem : a'.elem = a.elem
  extent : a'.extent = a.extent

structure Storage.Like (s s' : Storage) : Prop where
  item : List.Forall₂ (Allocation.Like N) s.item s'.item
  group : List.Forall₂ (Allocation.Like N) s.group s'.group
  dynamicGroup : List.Forall₂ (Allocation.Like N) s.dynamicGroup s'.dynamicGroup

end

/-! ## Both ways -/

section

variable {N : Naming}

theorem ValueKind.Like.flip {kind kind' : ValueKind} (h : kind.Like N kind') :
    kind'.Like N.flip kind := by
  cases h with
  | call flags hcallee hargs =>
    refine .call flags ?_ hargs.flip
    cases hcallee with
    | method h => exact .method h
    | intrinsic f => exact .intrinsic f
  | phi h => exact .phi h.flip
  | inlineAssembly template hargs => exact .inlineAssembly template hargs.flip
  | _ => constructor <;> assumption

theorem Terminator.Like.flip {x x' : Terminator} (h : x.Like N x') : x'.Like N.flip x := by
  cases h with
  | switch ha hcases hb => exact .switch ha (hcases.flip.imp fun _ _ h => ⟨h.1.symm, h.2⟩) hb
  | _ => constructor <;> assumption

theorem Block.Like.flip {b b' : Block} (h : b.Like N b') : b'.Like N.flip b where
  id := h.id
  body := h.body.flip.imp fun _ _ hv => ⟨hv.id, hv.type.symm, hv.kind.flip⟩
  terminator := h.terminator.flip

theorem Method.Like.flip {m m' : Method} (h : m.Like N m') : m'.Like N.flip m where
  id := h.id
  name := h.name.symm
  params := h.params.flip.imp fun _ _ hp => ⟨hp.value, hp.type.symm⟩
  returnType := h.returnType.symm
  blocks := h.blocks.flip.imp fun _ _ hb => hb.flip

theorem ValueKind.like_same (kind : ValueKind) : kind.Like .same kind := by
  cases kind with
  | call callee args flags =>
    refine .call flags ?_ (List.forall₂_same.mpr fun _ _ => rfl)
    cases callee with
    | method => exact .method rfl
    | intrinsic f => exact .intrinsic f
  | phi incoming => exact .phi (List.forall₂_same.mpr fun _ _ => ⟨rfl, rfl⟩)
  | inlineAssembly => exact .inlineAssembly _ (List.forall₂_same.mpr fun _ _ => rfl)
  | _ => constructor <;> rfl

theorem Terminator.like_same (x : Terminator) : x.Like .same x := by
  rcases x with (_ | _) | _ | _ | ⟨_, cases, _⟩ | _
  case switch => exact .switch rfl (List.forall₂_same.mpr fun _ _ => ⟨rfl, rfl⟩) rfl
  all_goals constructor <;> rfl

theorem Method.like_same (m : Method) : m.Like .same m where
  id := rfl
  name := rfl
  params := List.forall₂_same.mpr fun _ _ => ⟨rfl, rfl⟩
  returnType := rfl
  blocks := List.forall₂_same.mpr fun b _ =>
    ⟨rfl, List.forall₂_same.mpr fun v _ => ⟨rfl, rfl, v.kind.like_same⟩, b.terminator.like_same⟩

theorem Storage.like_same (s : Storage) : s.Like .same s :=
  ⟨List.forall₂_same.mpr fun _ _ => ⟨rfl, rfl, rfl⟩, List.forall₂_same.mpr fun _ _ => ⟨rfl, rfl, rfl⟩,
    List.forall₂_same.mpr fun _ _ => ⟨rfl, rfl, rfl⟩⟩

end

/-! ## Looking up names that match -/

section

variable {N : Naming}

theorem lookup_of_forall₂ {α α' β β' : Type} [BEq α] [LawfulBEq α] [BEq α'] [LawfulBEq α']
    {R : α → α' → Prop} {S : α → β → β' → Prop} (hR : OneToOne R) {xs : List (α × β)}
    {ys : List (α' × β')} (h : List.Forall₂ (fun x y => R x.1 y.1 ∧ S x.1 x.2 y.2) xs ys) {a : α} {b : α'}
    (hab : R a b) : Option.Rel (S a) (xs.lookup a) (ys.lookup b) := by
  induction h with
  | nil => exact .none
  | @cons x y xs ys hxy _ ih =>
    rw [List.lookup_cons, List.lookup_cons]
    have heq := hR a x.1 b y.1 hab hxy.1
    by_cases ha : a = x.1
    · rw [beq_iff_eq.mpr ha, beq_iff_eq.mpr (heq.mp ha)]
      exact .some (ha ▸ hxy.2)
    · rw [beq_eq_false_iff_ne.mpr ha, beq_eq_false_iff_ne.mpr fun hb => ha (heq.mpr hb)]
      exact ih

theorem eq_of_rel {α : Type} {a b : Option α} (h : Option.Rel Eq a b) : b = a := by
  cases h with
  | some h => rw [h]
  | none => rfl

theorem Method.Like.values {m m' : Method} (h : m.Like N m') :
    List.Forall₂ (Value.Like N) m.values m'.values :=
  List.rel_flatMap h.blocks fun _ _ hb => hb.body

theorem Method.Like.idBudget {m m' : Method} (h : m.Like N m') : m'.idBudget = m.idBudget := by
  rw [Method.idBudget, Method.idBudget, h.params.length_eq, h.blocks.length_eq, h.values.length_eq]

theorem Method.Like.typeOf? {m m' : Method} (h : m.Like N m') {v v' : ValueId} (hv : N.value v v') :
    m'.typeOf? v' = m.typeOf? v := by
  have params : List.Forall₂ (fun x y : ValueId × Ty => N.value x.1 y.1 ∧ x.2 = y.2)
      (m.params.map fun p => (p.value, p.type)) (m'.params.map fun p => (p.value, p.type)) :=
    List.rel_map (fun _ _ hp => ⟨hp.value, hp.type.symm⟩) h.params
  have values : List.Forall₂ (fun x y : ValueId × Ty => N.value x.1 y.1 ∧ x.2 = y.2)
      (m.values.map fun v => (v.id, v.type)) (m'.values.map fun v => (v.id, v.type)) :=
    List.rel_map (fun _ _ hv => ⟨hv.id, hv.type.symm⟩) h.values
  have found := lookup_of_forall₂ (S := fun _ => Eq) N.values
    (List.rel_reverse (List.rel_append params values)) hv
  exact eq_of_rel found

theorem Storage.Like.kindOf? {s s' : Storage} (h : s.Like N s') {v v' : ValueId} (hv : N.value v v') :
    s'.kindOf? v' = s.kindOf? v := by
  have listed {as as' : List Allocation} (has : List.Forall₂ (Allocation.Like N) as as') :
      as'.any (·.value = v') = as.any (·.value = v) := by
    induction has with
    | nil => rfl
    | @cons a a' _ _ ha _ ih =>
      have heq : a'.value = v' ↔ a.value = v := (N.values _ _ _ _ ha.value hv).symm
      rw [List.any_cons, List.any_cons, ih, decide_eq_decide.mpr heq]
  have each (kind : StorageKind) : (s'.get kind).any (·.value = v') = (s.get kind).any (·.value = v) := by
    cases kind with
    | item => exact listed h.item
    | group => exact listed h.group
    | dynamicGroup => exact listed h.dynamicGroup
  simp only [Storage.kindOf?, each]

theorem Method.Like.storage {m m' : Method} (h : m.Like N m') :
    (Storage.ofMethod m).Like N (.ofMethod m') := by
  have requested (kind : StorageKind) :
      List.Forall₂ (Allocation.Like N) (Storage.requested m kind) (Storage.requested m' kind) := by
    refine List.rel_filterMap (fun v v' hv => ?_) h.values
    obtain ⟨id, type, kind⟩ := v
    obtain ⟨id', type', kind'⟩ := v'
    obtain ⟨hid, rfl, hkind⟩ := hv
    cases hkind with
    | alloca elem extent =>
      simp only [Storage.request?]
      split
      · exact .some ⟨hid, rfl, rfl⟩
      · exact .none
    | _ => exact .none
  exact ⟨requested .item, requested .group, requested .dynamicGroup⟩

end

end SpirvKernel
