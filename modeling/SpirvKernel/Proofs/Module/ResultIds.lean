import Mathlib.Data.List.Flatten
import Mathlib.Data.List.Perm.Basic
import SpirvKernel.Proofs.Module.Assembly

/-!
# Result identifiers

Identifiers come from one supply: the import takes the first, the functions take the next, then
declarations and the ranges of the methods take turns. In a module that compiles no two instructions
have the same result, and all results lie below the bound in the header.
-/

namespace SpirvKernel

open Instruction Emission

namespace Parts

variable {p : Program} {entry : EntryPoint} {c : Parts}

def drawn (x : Product) : List Word := wordsFrom x.range.next x.job.work.table.range.next

theorem results_eq_nil {is : List Instruction} (h : ∀ i ∈ is, i.result? = none) :
    results is = [] := List.filterMap_eq_nil_iff.mpr h

theorem results_flatMap {α : Type} (xs : List α) (f : α → List Instruction) :
    results (xs.flatMap f) = xs.flatMap fun x => results (f x) := by
  simp only [results, List.filterMap_flatMap]

theorem Of.notes (h : c.Of p entry) {i : Instruction} (hi : i ∈ c.modes ++ c.names) :
    ∃ x ∈ c.products, ∃ op, Note x.job.task op i := by
  obtain ⟨x, hx, hi⟩ := product_of_note hi
  obtain ⟨m, -, hof⟩ := h.product hx
  exact ⟨x, hx, hof.text.note hi⟩

theorem Of.results_instructions (h : c.Of p entry) : results (c.instructions entry) =
    c.frame.openCl.word :: (results c.dictionary.declarations ++ results c.functions) := by
  -- Before the declarations only the import has a result.
  have hcapabilities : results c.capabilities = [] := by
    refine results_eq_nil fun i hi => ?_
    obtain ⟨x, -, rfl⟩ := List.mem_map.mp hi
    rfl
  have hnotes : ∀ i ∈ c.modes ++ c.names, i.result? = none := by
    intro i hi
    obtain ⟨x, -, op, note⟩ := h.notes hi
    exact note.result
  have hmodes : results c.modes = [] :=
    results_eq_nil fun i hi => hnotes i (List.mem_append_left _ hi)
  have hnames : results c.names = [] :=
    results_eq_nil fun i hi => hnotes i (List.mem_append_right _ hi)
  have hannotations : results c.dictionary.annotations = [] := by
    refine results_eq_nil fun i hi => ?_
    obtain ⟨w, -, a, b, rfl⟩ := h.sound.annotations i hi
    rfl
  have hextension : c.extension.result? = some c.frame.openCl.word := rfl
  have hmodel : model.result? = none := rfl
  have hpoint : (c.point entry).result? = none := by
    simp [point, result?, inSlot_of, Opcode.format, Format.read]
  simp [instructions, hcapabilities, hmodes, hnames, hannotations, hextension, hmodel, hpoint]

theorem Of.results_functions (h : c.Of p entry) : (results c.functions).Perm
    (c.products.map (·.job.task.id.word) ++ c.products.flatMap drawn) := by
  rw [functions, results_flatMap]
  refine (List.Perm.flatMap_left _ fun x hx => ?_).trans (List.map_append_flatMap_perm _ _ _).symm
  obtain ⟨m, -, hof⟩ := h.product hx
  exact hof.text.results

theorem Of.function_words (h : c.Of p entry) (distinct : (p.methods.map (·.id)).Nodup) :
    c.products.map (·.job.task.id.word) = wordsFrom 2 (2 + p.methods.length) := by
  have hids : p.methods.map (fun m => c.frame.functions.get? m.id) =
      c.products.map fun x => some x.job.task.id := by
    rw [← List.forall₂_eq_eq_eq, List.forall₂_map_left_iff, List.forall₂_map_right_iff]
    exact h.products.imp fun _ _ hof => hof.id
  have hnumbers : c.products.map (fun x => some x.job.task.id) =
      (List.range' 2 p.methods.length).map fun n => some ⟨n⟩ :=
    hids.symm.trans (h.shared.ordered distinct)
  have := congrArg (List.filterMap (Option.map Id.word)) hnumbers
  simpa [List.filterMap_map, Function.comp_def, wordsFrom, Id.word] using this

theorem Of.results_perm (h : c.Of p entry) (distinct : (p.methods.map (·.id)).Nodup) :
    (results (c.instructions entry)).Perm (wordsFrom 1 (2 + p.methods.length) ++
      (results c.dictionary.declarations ++ c.products.flatMap drawn)) := by
  have hfirst : wordsFrom 1 (2 + p.methods.length) =
      c.frame.openCl.word :: wordsFrom 2 (2 + p.methods.length) := by
    rw [h.shared.openCl, ← wordsFrom_append (show 1 ≤ 2 by omega) (by omega), wordsFrom_succ]
    rfl
  rw [h.results_instructions, hfirst, List.cons_append]
  refine List.Perm.cons _ ?_
  rw [← h.function_words distinct]
  -- The functions were numbered first but come last.
  refine (h.results_functions.append_left _).trans ?_
  rw [← List.append_assoc, ← List.append_assoc]
  exact List.perm_append_comm.append_right _

theorem Of.drawn_sublist (h : c.Of p entry) : (c.products.flatMap drawn).Sublist
    ((c.products.map Product.range).flatMap IdRange.words) := by
  rw [List.flatMap_map]
  refine List.Sublist.flatMap_right _ fun x hx => ?_
  obtain ⟨m, -, hof⟩ := h.product hx
  rw [IdRange.words, ← wordsFrom_append hof.text.next hof.text.stop]
  exact List.sublist_append_left _ _

theorem Of.nodup_results (h : c.Of p entry) (distinct : (p.methods.map (·.id)).Nodup) :
    (results (c.instructions entry)).Nodup := by
  have hlimit : 2 + p.methods.length ≤ Supply.limit := Nat.le_trans h.apart.start h.apart.limit
  have hsub := (List.Sublist.refl (results c.dictionary.declarations)).append h.drawn_sublist
  rw [(h.results_perm distinct).nodup_iff]
  exact nodup_append_of_lt (nodup_wordsFrom hlimit) (hsub.nodup h.apart.nodup)
    (fun w hw => ((mem_wordsFrom hlimit).mp hw).2)
    fun w hw => (h.apart.bounds w (hsub.subset hw)).1

theorem Of.bounds_results (h : c.Of p entry) (distinct : (p.methods.map (·.id)).Nodup) {w : Word}
    (hw : w ∈ results (c.instructions entry)) : 0 < w.toNat ∧ w.toNat < c.dictionary.supply.next := by
  have hstart := h.apart.start
  have hlimit : 2 + p.methods.length ≤ Supply.limit := Nat.le_trans hstart h.apart.limit
  have hsub := (List.Sublist.refl (results c.dictionary.declarations)).append h.drawn_sublist
  rcases List.mem_append.mp ((h.results_perm distinct).mem_iff.mp hw) with hw | hw
  · have := (mem_wordsFrom hlimit).mp hw
    omega
  · have := h.apart.bounds w (hsub.subset hw)
    omega

end Parts

/-- The results are distinct, positive and below the bound. -/
theorem compile_results_distinct {o : Options} {p : Program} {entry : EntryPoint} {m : Module}
    (distinct : (p.methods.map (·.id)).Nodup) (h : compile o p entry = .ok m) :
    ∃ is, decodeAll (m.words.drop Layout.headerSize) = (is, []) ∧ (results is).Nodup ∧
      (∀ w ∈ results is, 0 < w ∧ w < m.bound) ∧ m.bound ≤ 0x3FFFFF := by
  obtain ⟨c, hof, hwords, hbound⟩ := compile_ok h
  have hlimit := hof.apart.limit
  refine ⟨c.instructions entry, ?_, hof.nodup_results distinct, fun w hw => ?_, ?_⟩
  · rw [hwords]
    exact decodeAll_encodeAll _ hof.fits
  · rw [hbound, UInt32.lt_iff_toNat_lt, UInt32.lt_iff_toNat_lt, toNat_ofNat hlimit]
    exact hof.bounds_results distinct hw
  · rw [hbound, UInt32.le_iff_toNat_le, toNat_ofNat hlimit]
    exact hlimit

/-- A kernel that doubles a number by calls in a loop and stores it in the slot of each work item. -/
def doubling : Program where
  methods := [
    { id := ⟨4⟩, name := "twice", params := [⟨⟨0⟩, .i32⟩], returnType := .i32
      blocks := [{
        id := ⟨0⟩
        body := [⟨⟨1⟩, .i32, .binary .add ⟨0⟩ ⟨0⟩ .none⟩]
        terminator := .ret (some ⟨1⟩) }] },
    { id := ⟨7⟩, name := "fill", params := [⟨⟨0⟩, .pointer .i32 .global⟩], returnType := .void
      blocks := [
        { id := ⟨5⟩
          body := [⟨⟨1⟩, .i64, .gridIndex .globalIndex 0⟩, ⟨⟨2⟩, .i32, .constant (.ofWord 100)⟩]
          terminator := .branch ⟨1⟩ },
        { id := ⟨1⟩
          body := [⟨⟨3⟩, .i32, .phi [(⟨2⟩, ⟨5⟩), (⟨4⟩, ⟨1⟩)]⟩,
            ⟨⟨4⟩, .i32, .call (.method ⟨4⟩) [⟨3⟩] .none⟩,
            ⟨⟨5⟩, .bool, .compare .lt ⟨4⟩ ⟨2⟩ .none⟩]
          terminator := .condBranch ⟨5⟩ ⟨1⟩ ⟨3⟩ },
        { id := ⟨3⟩
          body := [⟨⟨6⟩, .pointer .i32 .global, .elementAddress ⟨0⟩ ⟨1⟩⟩,
            ⟨⟨7⟩, .void, .store ⟨6⟩ ⟨3⟩⟩]
          terminator := .ret none }] }]

def doublingEntry : EntryPoint where
  method := ⟨7⟩
  name := "fill"
  rank := .one
  groupSize := some ⟨64, 1, 1⟩

theorem doubling_results_distinct :
    (doubling.methods.map (·.id)).Nodup ∧ ∃ m, compile {} doubling doublingEntry = .ok m ∧
      ∃ is, decodeAll (m.words.drop Layout.headerSize) = (is, []) ∧ (results is).Nodup ∧
        (∀ w ∈ results is, 0 < w ∧ w < m.bound) ∧ m.bound ≤ 0x3FFFFF := by
  have distinct : (doubling.methods.map (·.id)).Nodup := by decide
  obtain ⟨m, h, -⟩ : ∃ m, compile {} doubling doublingEntry = .ok m ∧ true = true :=
    exists_ok_of_any (by decide +kernel)
  exact ⟨distinct, m, h, compile_results_distinct distinct h⟩

end SpirvKernel
