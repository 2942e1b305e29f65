import SpirvKernel.Proofs.Module.Sections

/-!
# Functions and their identifiers

Every method becomes one function, in the order of the program. Its identifier is looked up under the
identifier of the method, so two functions of a module share theirs exactly if two methods of the
program do. Such a program is not turned down.
-/

namespace SpirvKernel

open Instruction Attempt Emission

/-! ## One function for each method identifier -/

namespace FunctionTable

/-- All functions are numbered below `n`, and no two methods have the same one. -/
structure Separate (t : FunctionTable) (n : Nat) : Prop where
  below : ∀ m id, t.get? m = some id → id.number < n
  own : ∀ m m' id, t.get? m = some id → t.get? m' = some id → m = m'

theorem separate_empty (n : Nat) : empty.Separate n := ⟨nofun, nofun⟩

theorem Separate.insert {t : FunctionTable} {n : Nat} (h : t.Separate n) (m : MethodId) :
    (t.insert m ⟨n⟩).Separate (n + 1) := by
  -- A method that is listed again takes the new number and gives up the old one.
  constructor
  · intro k id hk
    rw [get?_insert] at hk
    split at hk
    · cases hk
      exact Nat.lt_succ_self n
    · exact Nat.lt_succ_of_lt (h.below k id hk)
  · intro k k' id hk hk'
    rw [get?_insert] at hk hk'
    by_cases hm : k = m <;> by_cases hm' : k' = m
    · rw [hm, hm']
    · rw [if_pos hm, Option.some.injEq] at hk
      rw [if_neg hm', ← hk] at hk'
      exact absurd (h.below k' _ hk') (Nat.lt_irrefl n)
    · rw [if_pos hm', Option.some.injEq] at hk'
      rw [if_neg hm, ← hk'] at hk
      exact absurd (h.below k _ hk) (Nat.lt_irrefl n)
    · rw [if_neg hm] at hk
      rw [if_neg hm'] at hk'
      exact h.own k k' id hk hk'

theorem numbers_separate {ms : List Method} {t₀ t : FunctionTable} {s s' : Supply}
    (h : ms.foldlM (fun table m => table.insert m.id <$> Supply.draw) t₀ s = (.ok t, s'))
    (h₀ : t₀.Separate s.next) : t.Separate s'.next := by
  induction ms generalizing t₀ s with
  | nil =>
    obtain ⟨rfl, rfl⟩ := pure_ok_iff.mp h
    exact h₀
  | cons m ms ih =>
    rw [List.foldlM_cons, bind_eq_ok_iff] at h
    obtain ⟨_, s₁, hinsert, h⟩ := h
    obtain ⟨_, hdraw, rfl⟩ := map_ok_iff.mp hinsert
    obtain ⟨-, rfl, rfl⟩ := Supply.draw_ok_iff.mp hdraw
    exact ih h (h₀.insert m.id)

end FunctionTable

theorem Frame.ofProgram_separate {p : Program} {debugNames : Bool} {s s' : Supply} {frame : Frame}
    (h : Frame.ofProgram p debugNames s = (.ok frame, s')) : frame.functions.Separate s'.next := by
  simp only [ofProgram, bind_eq_ok_iff, pure_ok_iff] at h
  obtain ⟨_, _, -, functions, _, hfunctions, rfl, rfl⟩ := h
  exact FunctionTable.numbers_separate hfunctions (FunctionTable.separate_empty _)

/-! ## The functions of a module -/

namespace Instruction

def functionIds (is : List Instruction) : List Word := results (is.filter (isA .function))

end Instruction

namespace Parts

variable {p : Program} {entry : EntryPoint} {c : Parts}

theorem results_filter_function {ms : List Method} {xs : List Product} {frame : Frame}
    {d : Dictionary} (h : List.Forall₂ (Product.Of frame d) ms xs) :
    results ((xs.flatMap (·.text.functions)).filter (isA .function)) =
      xs.map (·.job.task.id.word) := by
  induction h with
  | nil => rfl
  | cons hof _ ih =>
    obtain ⟨type, signature, hfirst⟩ := hof.text.filter_function
    rw [List.flatMap_cons, List.filter_append, results_append, ih, hfirst]
    rfl

theorem Of.functionIds (h : c.Of p entry) :
    functionIds (c.instructions entry) = c.products.map (·.job.task.id.word) := by
  rw [Instruction.functionIds, h.filter_instructions, h.filter_declarations rfl]
  simp only [reduceCtorEq, if_false, List.nil_append]
  exact results_filter_function h.products

/-- The function of a method, as the module refers to it. -/
def number (c : Parts) (m : MethodId) : Word := ((c.frame.functions.get? m).map Id.word).getD 0

theorem number_of_products {ms : List Method} {xs : List Product} {d : Dictionary}
    (h : List.Forall₂ (Product.Of c.frame d) ms xs) :
    xs.map (·.job.task.id.word) = ms.map fun m => c.number m.id := by
  induction h with
  | nil => rfl
  | cons hof _ ih => rw [List.map_cons, List.map_cons, ih, number, hof.id]; rfl

theorem Of.number_inj (h : c.Of p entry) {n : Nat} (separate : c.frame.functions.Separate n)
    (limit : n ≤ Supply.limit) {a b : Method} (ha : a ∈ p.methods) (hb : b ∈ p.methods) :
    c.number a.id = c.number b.id ↔ a.id = b.id := by
  constructor
  · intro heq
    obtain ⟨x, -, hx⟩ := exists_right_of_forall₂ h.products ha
    obtain ⟨y, -, hy⟩ := exists_right_of_forall₂ h.products hb
    have hword : x.job.task.id.word = y.job.task.id.word := by
      rw [number, number, hx.id, hy.id] at heq
      exact heq
    have hlt := separate.below _ _ hx.id
    have hlt' := separate.below _ _ hy.id
    have hnumber := congrArg UInt32.toNat hword
    unfold Id.word at hnumber
    rw [toNat_ofNat (by omega), toNat_ofNat (by omega)] at hnumber
    have hid : x.job.task.id = y.job.task.id := by
      cases hx' : x.job.task.id
      cases hy' : y.job.task.id
      simp_all
    exact separate.own _ _ _ hx.id (hid ▸ hy.id)
  · intro heq
    rw [heq]

end Parts

/-- Functions share an identifier exactly if their methods do. -/
theorem compile_functions_distinct_iff {o : Options} {p : Program} {entry : EntryPoint} {m : Module}
    (h : compile o p entry = .ok m) :
    ∃ is, decodeAll (m.words.drop Layout.headerSize) = (is, []) ∧
      ∃ number : MethodId → Word, functionIds is = p.methods.map (fun a => number a.id) ∧
        (∀ a ∈ p.methods, ∀ b ∈ p.methods, number a.id = number b.id ↔ a.id = b.id) ∧
        ((functionIds is).Nodup ↔ (p.methods.map (·.id)).Nodup) := by
  obtain ⟨c, supply, hof, hframe, -, -, rfl⟩ := compile_parts h
  have separate := Frame.ofProgram_separate hframe
  obtain ⟨-, limit, -⟩ := Frame.ofProgram_ok hframe
  have ids : functionIds (c.instructions entry) = p.methods.map fun a => c.number a.id :=
    hof.functionIds.trans (Parts.number_of_products hof.products)
  have inj : ∀ a ∈ p.methods, ∀ b ∈ p.methods, c.number a.id = c.number b.id ↔ a.id = b.id :=
    fun a ha b hb => hof.number_inj separate limit ha hb
  refine ⟨c.instructions entry, hof.decode _ _ _, c.number, ids, inj, ?_⟩
  have numbers : (p.methods.map fun a => c.number a.id) = (p.methods.map (·.id)).map c.number := by
    rw [List.map_map]
    rfl
  rw [ids, numbers]
  constructor
  · exact List.Nodup.of_map _
  · -- Different methods of the program have different numbers.
    intro distinct
    apply distinct.map_on
    intro i hi j hj heq
    obtain ⟨a, ha, rfl⟩ := List.mem_map.mp hi
    obtain ⟨b, hb, rfl⟩ := List.mem_map.mp hj
    exact (inj a ha b hb).mp heq

/-- A kernel and two methods with the same identifier. -/
def twins : Program where
  methods := [
    { id := ⟨7⟩, name := "main", params := [], returnType := .void
      blocks := [{ id := ⟨0⟩, body := [], terminator := .ret none }] },
    { id := ⟨3⟩, name := "a", params := [], returnType := .void
      blocks := [{ id := ⟨0⟩, body := [], terminator := .ret none }] },
    { id := ⟨3⟩, name := "b", params := [], returnType := .void
      blocks := [{ id := ⟨0⟩, body := [], terminator := .ret none }] }]

def twinsEntry : EntryPoint := { method := ⟨7⟩, name := "main", rank := .one, groupSize := none }

theorem twins_share_function : ∃ m, compile {} twins twinsEntry = .ok m ∧
    ∃ is, decodeAll (m.words.drop Layout.headerSize) = (is, []) ∧ ¬ (functionIds is).Nodup := by
  obtain ⟨m, h, -⟩ : ∃ m, compile {} twins twinsEntry = .ok m ∧ true = true :=
    exists_ok_of_any (by decide +kernel)
  obtain ⟨is, hdecode, -, -, -, distinct⟩ := compile_functions_distinct_iff h
  have alike : ¬ (twins.methods.map (·.id)).Nodup := by decide
  exact ⟨m, h, is, hdecode, distinct.not.mpr alike⟩

end SpirvKernel
