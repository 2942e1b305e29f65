import SpirvKernel.Proofs.Emission.Function

/-!
# The output of a method

What header and body write together: the function, and the notes about it in other sections. The
results of the function are its own identifier and those taken from the method's range, each once.
-/

namespace SpirvKernel.Emission

open Instruction Attempt

structure Text where
  /-- The first instruction of the function and its parameters. -/
  head : List Instruction
  codes : List Code
  names : List Instruction
  modes : List Instruction
  memory : Memory

namespace Text

def functions (x : Text) : List Instruction :=
  x.head ++ (x.codes.flatMap Code.toList ++ [.of .functionEnd []])

/-- The work `w` on a method is complete, with the output `x` and `d` as the last dictionary. -/
structure Of (t : Task) (d : Dictionary) (r : IdRange) (w : Work) (x : Text) : Prop where
  output : w.output = { executionModes := x.modes, debug := x.names, functions := x.functions }
  head : ∃ type signature, ∃ wss : List (List Word), wss.length = t.method.params.length ∧
    x.head = opening t type signature :: wss.map (Instruction.of .functionParameter)
  quiet : Quiet x.head
  named : x.names = nameNotes t
  names : ∀ i ∈ x.names, Note t .name i
  modes : ∀ i ∈ x.modes, Note t .executionMode i
  codes : List.Forall₂ (Code.Of t d w.table) t.method.blocks x.codes
  memory : x.memory.Tops d w.table t.storage x.codes
  labels : ∃ l, x.codes.map Code.label = wordsFrom l (l + t.method.blocks.length) ∧
    l + t.method.blocks.length ≤ w.table.range.next
  blocks : ∀ b id, w.table.get? (.block b) = some id → id.word ∈ x.codes.map Code.label
  results : (results x.functions).Perm (t.id.word :: wordsFrom r.next w.table.range.next)
  next : r.next ≤ w.table.range.next
  stop : w.table.range.next ≤ r.stop
  fits : ∀ i ∈ x.functions, i.Fits

theorem Of.note {t : Task} {d : Dictionary} {r : IdRange} {w : Work} {x : Text} (h : x.Of t d r w)
    {i : Instruction} (hi : i ∈ x.names ++ x.modes) : ∃ op, Note t op i := by
  rcases List.mem_append.mp hi with hi | hi
  · exact ⟨_, h.names i hi⟩
  · exact ⟨_, h.modes i hi⟩

end Text

def start (r : IdRange) : Work := ⟨.new r, .empty, .constructed, []⟩

theorem sound_start (t : Task) {d : Dictionary} (hd : d.Sound) (target : Layout Instruction)
    (r : IdRange) : Sound t ⟨d, target, start r⟩ where
  dictionary := hd
  values v id h := by cases h
  ordered := trivial

section

variable {t : Task} {d d₁ d₂ : Dictionary} {g₁ g₂ : Layout Instruction} {r : IdRange}
  {s₁ s₂ : Emission}

theorem text_laid (hr : r.next ≤ r.stop)
    (hheader : header t ⟨d₁, g₁, start r⟩ = (.ok (), s₁))
    (hbody : body t ⟨d₂, g₂, s₁.work⟩ = (.ok (), s₂)) (hd : s₂.dictionary.Steps d) :
    ∃ x, Text.Of t d r s₂.work x ∧ AddsGroups ⟨d₂, g₂, s₁.work⟩ x.memory.groups s₂ := by
  obtain ⟨head, names, modes, headed⟩ := header_ok hheader
  have hp : (⟨d₂, g₂, s₁.work⟩ : Emission).work.pending = [] := headed.pending
  obtain ⟨cs, complete, memory, adds, tops⟩ := body_laid hp hbody hd
  refine ⟨⟨head, cs, names, modes, memory⟩, ⟨?_, headed.head, headed.quiet, headed.named, headed.names,
    headed.modes, complete.codes, tops, ⟨_, complete.labels, complete.labelled⟩, fun b id hb => ?_,
    ?_, Nat.le_trans headed.next complete.next, ?_, ?_⟩, adds⟩
  · rw [complete.output]
    dsimp only
    rw [headed.output]
    simp [start, Layout.empty, Layout.append, Layout.set, Layout.get, Text.functions]
  -- The header names no blocks.
  · rcases complete.blocks b id hb with hb | hb
    · rw [headed.blocks] at hb
      cases hb
    · exact hb
  · have hend : (Instruction.of .functionEnd []).result? = none := rfl
    simp only [Text.functions, results_append, results_cons, hend, Option.toList_none, results_nil,
      List.append_nil]
    have := headed.results.append complete.results
    rwa [List.cons_append, wordsFrom_append headed.next complete.next] at this
  · have := complete.room (headed.room hr)
    rwa [complete.stop, headed.stop] at this
  · intro i hi
    simp only [Text.functions, List.mem_append, List.mem_singleton] at hi
    rcases hi with hi | hi | rfl
    · exact headed.fits i hi
    · exact complete.fits i hi
    · exact fits_of _ (by simp [maxSize])

theorem text_of (hr : r.next ≤ r.stop)
    (hheader : header t ⟨d₁, g₁, start r⟩ = (.ok (), s₁))
    (hbody : body t ⟨d₂, g₂, s₁.work⟩ = (.ok (), s₂)) (hd : s₂.dictionary.Steps d) :
    ∃ x, Text.Of t d r s₂.work x := by
  obtain ⟨x, text, -⟩ := text_laid hr hheader hbody hd
  exact ⟨x, text⟩

/-- In the end every name is defined and every operand comes after what it refers to. -/
theorem sound_of (hd₁ : d₁.Sound)
    (hheader : header t ⟨d₁, g₁, start r⟩ = (.ok (), s₁)) (hd₂ : s₁.dictionary.Steps d₂)
    (hbody : body t ⟨d₂, g₂, s₁.work⟩ = (.ok (), s₂)) (hd : s₂.dictionary.Steps d) :
    Sound t { s₂ with dictionary := d } := by
  obtain ⟨head, names, modes, headed⟩ := header_ok hheader
  have hp : (⟨d₂, g₂, s₁.work⟩ : Emission).work.pending = [] := headed.pending
  obtain ⟨cs, complete⟩ := body_ok hp hbody hd
  have first := (headed.sound (sound_start t hd₁ g₁ r)).declare hd₂
  refine (complete.sound ?_).declare hd
  exact ⟨first.dictionary, first.values, first.ordered⟩

end

end SpirvKernel.Emission
