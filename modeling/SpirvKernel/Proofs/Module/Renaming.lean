import Mathlib.Data.Set.Function
import SpirvKernel.Proofs.Module.Likeness

/-!
# Names do not matter

Values, blocks and methods may be named anew, each method in its own way. As long as different names
stay different, the module is the same.
-/

namespace SpirvKernel

open Attempt Emission

/-! ## Renaming -/

/-- New names for the values and blocks of one method. -/
structure Renaming where
  value : ValueId → ValueId
  block : BlockId → BlockId

section

variable (ρ : Renaming) (μ : MethodId → MethodId)

def Callee.rename : Callee → Callee
  | .method m => .method (μ m)
  | .intrinsic f => .intrinsic f

def ValueKind.rename : ValueKind → ValueKind
  | .constant c => .constant c
  | .undef => .undef
  | .binary op lhs rhs flags => .binary op (ρ.value lhs) (ρ.value rhs) flags
  | .unary op operand => .unary op (ρ.value operand)
  | .compare op lhs rhs flags => .compare op (ρ.value lhs) (ρ.value rhs) flags
  | .convert operand flags => .convert (ρ.value operand) flags
  | .select cond thenValue elseValue =>
    .select (ρ.value cond) (ρ.value thenValue) (ρ.value elseValue)
  | .alloca elem extent => .alloca elem extent
  | .load address => .load (ρ.value address)
  | .store address operand => .store (ρ.value address) (ρ.value operand)
  | .elementAddress base index => .elementAddress (ρ.value base) (ρ.value index)
  | .fieldAddress base field => .fieldAddress (ρ.value base) field
  | .extractField aggregate field => .extractField (ρ.value aggregate) field
  | .call callee args flags => .call (callee.rename μ) (args.map ρ.value) flags
  | .phi incoming => .phi (incoming.map fun x => (ρ.value x.1, ρ.block x.2))
  | .gridIndex builtin dimension => .gridIndex builtin dimension
  | .barrier => .barrier
  | .inlineAssembly template args => .inlineAssembly template (args.map ρ.value)

def Value.rename (v : Value) : Value := ⟨ρ.value v.id, v.type, v.kind.rename ρ μ⟩

def Terminator.rename : Terminator → Terminator
  | .ret value => .ret (value.map ρ.value)
  | .branch target => .branch (ρ.block target)
  | .condBranch cond thenBlock elseBlock =>
    .condBranch (ρ.value cond) (ρ.block thenBlock) (ρ.block elseBlock)
  | .switch selector cases default =>
    .switch (ρ.value selector) (cases.map fun x => (x.1, ρ.block x.2)) (ρ.block default)
  | .unreachable => .unreachable

def Block.rename (b : Block) : Block :=
  ⟨ρ.block b.id, b.body.map (Value.rename ρ μ), b.terminator.rename ρ⟩

def Method.rename (m : Method) : Method where
  id := μ m.id
  name := m.name
  params := m.params.map fun p => ⟨ρ.value p.value, p.type⟩
  returnType := m.returnType
  blocks := m.blocks.map (Block.rename ρ μ)

end

/-- The methods of a program are renamed one by one, by the renaming of their place. -/
def Program.rename (ρ : Nat → Renaming) (μ : MethodId → MethodId) (p : Program) : Program :=
  ⟨p.methods.mapIdx fun i m => m.rename (ρ i) μ⟩

def EntryPoint.rename (μ : MethodId → MethodId) (entry : EntryPoint) : EntryPoint :=
  { entry with method := μ entry.method }

/-! ## The names of a program -/

namespace ValueKind

def values : ValueKind → List ValueId
  | .constant _ | .undef | .alloca .. | .gridIndex .. | .barrier => []
  | .unary _ a | .convert a _ | .load a | .fieldAddress a _ | .extractField a _ => [a]
  | .binary _ a b _ | .compare _ a b _ | .store a b | .elementAddress a b => [a, b]
  | .select a b c => [a, b, c]
  | .call _ args _ | .inlineAssembly _ args => args
  | .phi incoming => incoming.map (·.1)

def blocks : ValueKind → List BlockId
  | .phi incoming => incoming.map (·.2)
  | _ => []

def methods : ValueKind → List MethodId
  | .call (.method m) _ _ => [m]
  | _ => []

end ValueKind

def Terminator.values : Terminator → List ValueId
  | .ret value => value.toList
  | .condBranch a _ _ | .switch a _ _ => [a]
  | .branch _ | .unreachable => []

namespace Method

/-- All names of values in a method, whether they are defined there or not. -/
def valueNames (m : Method) : List ValueId :=
  m.params.map (·.value) ++ m.blocks.flatMap fun b =>
    (b.body.flatMap fun v => v.id :: v.kind.values) ++ b.terminator.values

def blockNames (m : Method) : List BlockId :=
  m.blocks.flatMap fun b => b.id :: (b.body.flatMap (·.kind.blocks)) ++ b.terminator.successors

/-- The names of the method itself and of all that it calls. -/
def methodNames (m : Method) : List MethodId := m.id :: m.values.flatMap (·.kind.methods)

end Method

def Program.methodNames (p : Program) (entry : EntryPoint) : List MethodId :=
  entry.method :: p.methods.flatMap Method.methodNames

/-- No two names of a program become one. -/
structure Program.KeepsApart (p : Program) (entry : EntryPoint) (ρ : Nat → Renaming)
    (μ : MethodId → MethodId) : Prop where
  values : ∀ i m, p.methods[i]? = some m → Set.InjOn (ρ i).value {v | v ∈ m.valueNames}
  blocks : ∀ i m, p.methods[i]? = some m → Set.InjOn (ρ i).block {b | b ∈ m.blockNames}
  methods : Set.InjOn μ {k | k ∈ p.methodNames entry}

/-! ## Renamed methods are alike -/

section

variable {N : Naming} {ρ : Renaming} {μ : MethodId → MethodId}

theorem forall₂_map_self {α β : Type} {S : α → β → Prop} {f : α → β} {as : List α}
    (h : ∀ a ∈ as, S a (f a)) : List.Forall₂ S as (as.map f) := by
  rw [List.forall₂_map_right_iff]
  exact List.forall₂_same.mpr h

theorem ValueKind.like_rename {kind : ValueKind} (hv : ∀ v ∈ kind.values, N.value v (ρ.value v))
    (hb : ∀ b ∈ kind.blocks, N.block b (ρ.block b)) (hm : ∀ m ∈ kind.methods, N.method m (μ m)) :
    kind.Like N (kind.rename ρ μ) := by
  cases kind with
  | call callee args flags =>
    refine .call flags ?_ (forall₂_map_self hv)
    cases callee with
    | method m => exact .method (hm m List.mem_cons_self)
    | intrinsic f => exact .intrinsic f
  | phi incoming =>
    refine .phi (forall₂_map_self fun x hx => ⟨?_, ?_⟩)
    · exact hv x.1 (List.mem_map_of_mem hx)
    · exact hb x.2 (List.mem_map_of_mem hx)
  | inlineAssembly template args => exact .inlineAssembly template (forall₂_map_self hv)
  | _ => constructor <;> exact hv _ (by simp [values])

theorem Terminator.like_rename {x : Terminator} (hv : ∀ v ∈ x.values, N.value v (ρ.value v))
    (hb : ∀ b ∈ x.successors, N.block b (ρ.block b)) : x.Like N (x.rename ρ) := by
  cases x with
  | ret value =>
    cases value with
    | none => exact .leave
    | some v => exact .ret (hv v (by simp [values]))
  | branch target => exact .branch (hb target (by simp [successors]))
  | condBranch =>
    exact .condBranch (hv _ (by simp [values])) (hb _ (by simp [successors]))
      (hb _ (by simp [successors]))
  | switch selector cases default =>
    refine .switch (hv _ (by simp [values])) (forall₂_map_self fun x hx => ⟨rfl, ?_⟩)
      (hb _ (by simp [successors]))
    exact hb x.2 (List.mem_cons_of_mem _ (List.mem_map_of_mem hx))
  | unreachable => exact .unreachable

theorem Method.like_rename {m : Method} (hv : ∀ v ∈ m.valueNames, N.value v (ρ.value v))
    (hb : ∀ b ∈ m.blockNames, N.block b (ρ.block b)) (hm : ∀ k ∈ m.methodNames, N.method k (μ k)) :
    m.Like N (m.rename ρ μ) where
  id := hm m.id List.mem_cons_self
  name := rfl
  params := forall₂_map_self fun p hp =>
    ⟨hv p.value (List.mem_append_left _ (List.mem_map_of_mem hp)), rfl⟩
  returnType := rfl
  blocks := forall₂_map_self fun b hmem => by
    have values : ∀ v ∈ (b.body.flatMap fun v => v.id :: v.kind.values) ++ b.terminator.values,
        N.value v (ρ.value v) := fun v h =>
      hv v (List.mem_append_right _ (List.mem_flatMap.mpr ⟨b, hmem, h⟩))
    have blocks : ∀ k ∈ b.id :: (b.body.flatMap (·.kind.blocks)) ++ b.terminator.successors,
        N.block k (ρ.block k) := fun k h => hb k (List.mem_flatMap.mpr ⟨b, hmem, h⟩)
    refine ⟨blocks b.id (by simp), forall₂_map_self fun v hbody => ⟨?_, rfl, ?_⟩, ?_⟩
    · exact values v.id (List.mem_append_left _ (List.mem_flatMap.mpr ⟨v, hbody, List.mem_cons_self⟩))
    · refine ValueKind.like_rename (fun u hu => ?_) (fun k hk => ?_) fun k hk => ?_
      · exact values u (List.mem_append_left _
          (List.mem_flatMap.mpr ⟨v, hbody, List.mem_cons_of_mem _ hu⟩))
      · exact blocks k (List.mem_cons_of_mem _
          (List.mem_append_left _ (List.mem_flatMap.mpr ⟨v, hbody, hk⟩)))
      · have hvalues : v ∈ m.values := List.mem_flatMap.mpr ⟨b, hmem, hbody⟩
        exact hm k (List.mem_cons_of_mem _ (List.mem_flatMap.mpr ⟨v, hvalues, hk⟩))
    · exact Terminator.like_rename (fun u hu => values u (List.mem_append_right _ hu))
        fun k hk => blocks k (List.mem_append_right _ hk)

end

/-! ## Renamed programs -/

/-- The new name of a name in use. -/
def Renames {α : Type} (f : α → α) (names : List α) (a b : α) : Prop := a ∈ names ∧ f a = b

theorem oneToOne_renames {α : Type} {f : α → α} {names : List α} (h : Set.InjOn f {a | a ∈ names}) :
    OneToOne (Renames f names) := by
  rintro a a' _ _ ⟨ha, rfl⟩ ⟨ha', rfl⟩
  exact (h.eq_iff ha ha').symm

section

variable {p : Program} {entry : EntryPoint} {ρ : Nat → Renaming} {μ : MethodId → MethodId}

theorem Program.KeepsApart.alike (h : p.KeepsApart entry ρ μ) :
    p.Alike (Renames μ (p.methodNames entry)) (p.rename ρ μ) := by
  refine List.forall₂_iff_get.mpr ⟨by simp [rename], fun i hi _ => ?_⟩
  have hm : p.methods[i]? = some p.methods[i] := List.getElem?_eq_getElem hi
  simp only [rename, List.get_eq_getElem, List.getElem_mapIdx]
  refine ⟨⟨_, _, _, oneToOne_renames (h.values i _ hm), oneToOne_renames (h.blocks i _ hm),
    oneToOne_renames h.methods⟩, rfl, Method.like_rename ?_ ?_ ?_⟩
  · exact fun v hv => ⟨hv, rfl⟩
  · exact fun b hb => ⟨hb, rfl⟩
  · intro k hk
    exact ⟨List.mem_cons_of_mem _ (List.mem_flatMap.mpr ⟨_, List.getElem_mem hi, hk⟩), rfl⟩

theorem EntryPoint.alike_rename (p : Program) (entry : EntryPoint) (μ : MethodId → MethodId) :
    entry.Alike (Renames μ (p.methodNames entry)) (entry.rename μ) :=
  ⟨⟨List.mem_cons_self, rfl⟩, rfl, rfl⟩

/-- A renamed program compiles if and only if the program does, and to the same module. -/
theorem compile_rename (o : Options) (h : p.KeepsApart entry ρ μ) (out : Module) :
    compile o (p.rename ρ μ) (entry.rename μ) = .ok out ↔ compile o p entry = .ok out := by
  have apart := oneToOne_renames h.methods
  have kernel := EntryPoint.alike_rename p entry μ
  constructor
  · exact compile_alike apart.swap h.alike.flip kernel.flip
  · exact compile_alike apart h.alike kernel

end

/-- A kernel that counts in a loop and hands each count to a helper. -/
def tally : Program where
  methods := [
    { id := ⟨0⟩, name := "tally", params := [⟨⟨0⟩, .pointer .i32 .global⟩], returnType := .void
      blocks := [
        { id := ⟨0⟩
          body := [⟨⟨1⟩, .i32, .constant (.ofWord 1)⟩]
          terminator := .branch ⟨1⟩ },
        { id := ⟨1⟩
          body := [⟨⟨2⟩, .i32, .phi [(⟨1⟩, ⟨0⟩), (⟨3⟩, ⟨1⟩)]⟩,
            ⟨⟨3⟩, .i32, .binary .add ⟨2⟩ ⟨1⟩ .none⟩, ⟨⟨4⟩, .void, .call (.method ⟨1⟩) [⟨0⟩, ⟨3⟩] .none⟩]
          terminator := .switch ⟨3⟩ [(9, ⟨2⟩)] ⟨1⟩ },
        { id := ⟨2⟩, body := [], terminator := .ret none }] },
    { id := ⟨1⟩, name := "note", params := [⟨⟨0⟩, .pointer .i32 .global⟩, ⟨⟨1⟩, .i32⟩], returnType := .void
      blocks := [
        { id := ⟨0⟩, body := [⟨⟨2⟩, .void, .store ⟨0⟩ ⟨1⟩⟩], terminator := .ret none }] }]

def tallyEntry : EntryPoint := { method := ⟨0⟩, name := "tally", rank := .one, groupSize := none }

/-- Values in reverse order; blocks move on by one in the helper. -/
def tallyNames (i : Nat) : Renaming := ⟨fun v => ⟨4 - v.number⟩, fun b => ⟨b.number + i⟩⟩

/-- The two methods change names. -/
def tallySwap (k : MethodId) : MethodId := ⟨1 - k.number⟩

theorem tally_renamed :
    tally.KeepsApart tallyEntry tallyNames tallySwap ∧ ∃ out, compile {} tally tallyEntry = .ok out ∧
      compile {} (tally.rename tallyNames tallySwap) (tallyEntry.rename tallySwap) = .ok out := by
  have values : ∀ m ∈ tally.methods, ∀ v ∈ m.valueNames, ∀ v' ∈ m.valueNames,
      (⟨4 - v.number⟩ : ValueId) = ⟨4 - v'.number⟩ → v = v' := by decide
  have methods : ∀ k ∈ tally.methodNames tallyEntry, ∀ k' ∈ tally.methodNames tallyEntry,
      tallySwap k = tallySwap k' → k = k' := by decide
  have apart : tally.KeepsApart tallyEntry tallyNames tallySwap := by
    refine ⟨fun i m hm v hv v' hv' => ?_, fun i m _ b _ b' _ h => ?_, fun k hk k' hk' => ?_⟩
    · exact values m (List.mem_of_getElem? hm) v hv v' hv'
    · cases b
      cases b'
      simpa [tallyNames] using h
    · exact methods k hk k' hk'
  obtain ⟨out, h, -⟩ : ∃ out, compile {} tally tallyEntry = .ok out ∧ true = true :=
    exists_ok_of_any (by decide +kernel)
  exact ⟨apart, out, h, (compile_rename {} apart out).mpr h⟩

end SpirvKernel
