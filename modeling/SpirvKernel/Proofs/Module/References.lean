import SpirvKernel.Proofs.Emission.Mention
import SpirvKernel.Proofs.Module.ResultIds

/-!
# References between instructions

In a module that compiles what a function refers to is defined in the function or in what stands
before all functions. It is defined before, except where the format of the instruction lets it look
ahead.
-/

namespace SpirvKernel

open Instruction Emission

/-! ## Definitions -/

namespace Instruction

def definition? (is : List Instruction) (w : Word) : Option Instruction :=
  is.find? (·.result? = some w)

theorem definition?_eq_some {is : List Instruction} {i : Instruction} {w : Word}
    (nodup : (results is).Nodup) (hi : i ∈ is) (hw : i.result? = some w) :
    definition? is w = some i := by
  rw [definition?, ← List.head?_filter, filter_result nodup hi hw]
  rfl

end Instruction

namespace Parts

variable {p : Program} {entry : EntryPoint} {c : Parts}

/-! ## What is referred to is defined -/

theorem Of.mem_of_declared (h : c.Of p entry) {w : Word}
    (hw : w ∈ results c.dictionary.declarations) : w ∈ results (c.instructions entry) := by
  rw [h.results_instructions]
  exact List.mem_cons_of_mem _ (List.mem_append_left _ hw)

theorem Of.mem_of_product (h : c.Of p entry) {x : Product} (hx : x ∈ c.products) {w : Word}
    (hw : w ∈ results x.text.functions) : w ∈ results (c.instructions entry) := by
  rw [h.results_instructions, functions, results_flatMap]
  exact List.mem_cons_of_mem _ (List.mem_append_right _ (List.mem_flatMap.mpr ⟨x, hx, hw⟩))

theorem Of.mem_of_function (h : c.Of p entry) {m : MethodId} {f : Id}
    (hf : c.frame.functions.get? m = some f) : f.word ∈ results (c.instructions entry) := by
  obtain ⟨m', hm', rfl⟩ := List.mem_map.mp (h.shared.listed m f hf).1
  obtain ⟨x, hx, hof⟩ := exists_right_of_forall₂ h.products hm'
  obtain rfl := Option.some.inj (hf.symm.trans hof.id)
  exact h.mem_of_product hx (hof.text.results.mem_iff.mpr List.mem_cons_self)

theorem Of.mem_of_refers (h : c.Of p entry) {x : Product} (hx : x ∈ c.products) {w : Word}
    (hw : Refers x.job.task x.job.work.table w) : w ∈ results (c.instructions entry) := by
  obtain ⟨m, -, hof⟩ := h.product hx
  cases hw with
  | value hv =>
    obtain ⟨id, hid, rfl⟩ := Option.map_eq_some_iff.mp hv
    obtain ⟨g, sound⟩ := hof.sound
    have := (sound.values _ id hid).mem_results
    rw [hof.text.output] at this
    rcases List.mem_append.mp this with hw | hw
    · exact h.mem_of_declared hw
    · exact h.mem_of_product hx hw
  | label hb =>
    obtain ⟨id, hid, rfl⟩ := Option.map_eq_some_iff.mp hb
    obtain ⟨code, hcode, hlabel⟩ := List.mem_map.mp (hof.text.blocks _ id hid)
    refine h.mem_of_product hx (mem_results.mpr ⟨Code.opening code.label, ?_, hlabel ▸ rfl⟩)
    refine List.mem_append_right _ (List.mem_append_left _ (List.mem_flatMap.mpr ⟨code, hcode, ?_⟩))
    exact List.mem_cons_self
  | function hf hword =>
    rw [hof.shared] at hf
    exact hword ▸ h.mem_of_function hf

/-! ## Uses come after definitions -/

theorem scoped_of_uses_nil {is : List Instruction} (h : ∀ i ∈ is, i.uses = []) (known : List Word) :
    Scoped known is := by
  induction is generalizing known with
  | nil => trivial
  | cons i is ih =>
    refine ⟨fun w hw => ?_, ih (fun j hj => h j (List.mem_cons_of_mem i hj)) _⟩
    rw [h i List.mem_cons_self] at hw
    cases hw

theorem scoped_flatMap {α : Type} {f : α → List Instruction} {xs : List α} {known : List Word}
    (h : ∀ x ∈ xs, Scoped known (f x)) : Scoped known (xs.flatMap f) := by
  induction xs with
  | nil => trivial
  | cons x xs ih =>
    rw [List.flatMap_cons, scoped_append]
    refine ⟨h x List.mem_cons_self, ?_⟩
    exact (ih fun y hy => h y (List.mem_cons_of_mem x hy)).mono fun w => List.mem_append_left _

def front (c : Parts) (entry : EntryPoint) : List Instruction :=
  c.capabilities ++ (c.extension :: model :: c.point entry :: (c.modes ++ (c.names ++
    c.dictionary.annotations)))

theorem instructions_eq (c : Parts) (entry : EntryPoint) : c.instructions entry =
    c.front entry ++ (c.dictionary.declarations ++ c.functions) := by
  simp [instructions, front]

theorem Of.uses_front (h : c.Of p entry) : ∀ i ∈ c.front entry, i.uses = [] := by
  intro i hi
  simp only [front, List.mem_append, List.mem_cons] at hi
  rcases hi with hi | rfl | rfl | rfl | hi | hi | hi
  · obtain ⟨x, -, rfl⟩ := List.mem_map.mp hi
    rfl
  · simp [extension, uses, inSlot_of, Opcode.format, Format.read]
  · rfl
  · simp [point, uses, inSlot_of, Opcode.format, Format.read]
  · obtain ⟨x, -, op, note⟩ := h.notes (List.mem_append_left _ hi)
    exact note.uses
  · obtain ⟨x, -, op, note⟩ := h.notes (List.mem_append_right _ hi)
    exact note.uses
  · obtain ⟨w, -, a, b, rfl⟩ := h.sound.annotations i hi
    rfl

theorem openCl_mem_front (c : Parts) (entry : EntryPoint) :
    c.frame.openCl.word ∈ results (c.front entry) := by
  refine mem_results.mpr ⟨c.extension, ?_, rfl⟩
  exact List.mem_append_right _ List.mem_cons_self

theorem Of.ordered (h : c.Of p entry) : Scoped [] (c.instructions entry) := by
  rw [instructions_eq, scoped_append, scoped_append]
  refine ⟨scoped_of_uses_nil h.uses_front _, h.sound.ordered.mono nofun, ?_⟩
  -- A function uses the import, declarations and what it defines itself, but no other function.
  refine scoped_flatMap fun x hx => ?_
  obtain ⟨m, -, hof⟩ := h.product hx
  obtain ⟨g, sound⟩ := hof.sound
  have ordered := sound.ordered
  rw [hof.text.output, hof.shared] at ordered
  refine ordered.mono fun w hw => ?_
  rcases List.mem_cons.mp hw with rfl | hw
  · exact List.mem_append_left _ (List.mem_append_right _ (openCl_mem_front c entry))
  · exact List.mem_append_right _ hw

/-! ## References ahead -/

theorem mentions_point (named : '\x00' ∉ entry.name.toList) (wide : Bool) :
    (c.point entry).mentions wide = c.kernel.word :: c.dictionary.interface.map Id.word := by
  simp [point, mentions, inSlot_of, Opcode.format, Format.read, Format.afterText_encode named,
    List.filterMap_map, Function.comp_def]

theorem Of.mentions_front (h : c.Of p entry) (named : '\x00' ∉ entry.name.toList)
    {i : Instruction} (hi : i ∈ c.front entry) (wide : Bool) :
    ∀ w ∈ i.mentions wide, w ∈ results (c.instructions entry) := by
  have note : ∀ i ∈ c.modes ++ c.names, ∀ w ∈ i.mentions wide,
      w ∈ results (c.instructions entry) := by
    intro i hi w hw
    obtain ⟨x, hx, op, note⟩ := h.notes hi
    obtain ⟨m, -, hof⟩ := h.product hx
    rw [note.mentions wide w hw]
    exact h.mem_of_function hof.id
  intro w hw
  simp only [front, List.mem_append, List.mem_cons] at hi
  rcases hi with hi | rfl | rfl | rfl | hi | hi | hi
  · obtain ⟨x, -, rfl⟩ := List.mem_map.mp hi
    cases hw
  · simp [extension, mentions, inSlot_of, Opcode.format, Format.read] at hw
  · cases hw
  · rw [mentions_point named, List.mem_cons, List.mem_map] at hw
    rcases hw with rfl | ⟨id, hid, rfl⟩
    · exact h.mem_of_function h.kernel
    · exact h.mem_of_declared (h.sound.interface id hid)
  · exact note i (List.mem_append_left _ hi) w hw
  · exact note i (List.mem_append_right _ hi) w hw
  · obtain ⟨u, hu, a, b, rfl⟩ := h.sound.annotations i hi
    have hmentions : (Instruction.of .decorate [u, a, b]).mentions wide = [u] := rfl
    rw [hmentions, List.mem_singleton] at hw
    exact h.mem_of_declared (hw ▸ hu)

end Parts

end SpirvKernel
