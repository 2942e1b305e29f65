import Mathlib.Logic.Function.Basic
import SpirvKernel.Binary.Layout
import SpirvKernel.Proofs.Run

/-!
# Reading back a bench of layouts

Several layouts are filled side by side and merged into one another. The words of each section cut
back into the instructions that were put there, those that came in by a merge included.
-/

namespace SpirvKernel

open Attempt

namespace Bench

variable {ι : Type}

/-- An edit of one of the layouts that `ι` names. -/
inductive Action (ι : Type) where
  | emit (target : ι) (s : Section) (op : Opcode) (operands : List Word)
  | emitText (target : ι) (s : Section) (op : Opcode) (leading : List Word) (text : String)
      (trailing : List Word)
  | label (target : ι) (id : Word)
  /-- Appends what `source` holds at this point. The two may be one layout. -/
  | merge (target source : ι)

def Action.target : Action ι → ι
  | .emit b _ _ _ | .emitText b _ _ _ _ _ | .label b _ | .merge b _ => b

def Action.edit (bench : ι → Layout Word) : Action ι → Layout.Edit
  | .emit _ s op operands => .emit s op operands
  | .emitText _ s op leading text trailing => .emitText s op leading text trailing
  | .label _ id => .label id
  | .merge _ source => .merge (bench source)

def act [DecidableEq ι] (a : Action ι) :
    Attempt Layout.Error (ι → Layout Word) (Option Nat) := fun bench =>
  let (r, l) := Layout.perform (a.edit bench) (bench a.target)
  (r, Function.update bench a.target l)

/-! ## What was put where -/

structure Emitted where
  op : Opcode
  operands : List Word
  deriving DecidableEq

def Emitted.instruction (e : Emitted) : Instruction := .of e.op e.operands

/-- What an action adds to a section of its target, if `old` is what the layouts held. -/
def Action.adds (old : ι → Section → List Emitted) : Action ι → Section → List Emitted
  | .emit _ s op operands, t => if t = s then [⟨op, operands⟩] else []
  | .emitText _ s op leading text trailing, t =>
    if t = s then [⟨op, leading ++ Literal.encode text ++ trailing⟩] else []
  | .label _ id, t => if t = .functions then [⟨.label, [id]⟩] else []
  | .merge _ source, t => old source t

/-- What each section of each layout was given by some actions, the latest first. -/
def contents [DecidableEq ι] : List (Action ι) → ι → Section → List Emitted
  | [], _, _ => []
  | a :: before, b, s =>
    if b = a.target then contents before b s ++ a.adds (contents before) s
    else contents before b s

/-! ## The words that hold it -/

/-- The words are the encoding of what `given` names, all of it short enough to be read back. -/
structure Encodes (l : Layout Word) (given : Section → List Emitted) : Prop where
  words : ∀ s, l.get s = Instruction.encodeAll ((given s).map Emitted.instruction)
  fits : ∀ s, ∀ e ∈ given s, e.instruction.Fits

theorem encodes_empty : Encodes .empty fun _ => [] := ⟨fun s => by simp; rfl, by simp⟩

theorem Encodes.merge {l m : Layout Word} {given other : Section → List Emitted} (hl : Encodes l given)
    (hm : Encodes m other) : Encodes (l.merge m) fun s => given s ++ other s where
  words s := by
    rw [Layout.get_merge, hl.words, hm.words, List.map_append, Instruction.encodeAll_append]
  fits s e he := (List.mem_append.mp he).elim (hl.fits s e) (hm.fits s e)

theorem Encodes.append {l : Layout Word} {given : Section → List Emitted} (h : Encodes l given)
    {s : Section} {e : Emitted} (he : e.instruction.Fits) :
    Encodes (l.append s e.instruction.encode) fun t => given t ++ if t = s then [e] else [] where
  words t := by
    rw [Layout.get_append, h.words]
    by_cases hts : t = s
    · simp [hts, Instruction.encodeAll]
    · simp [hts]
  fits t e' he' := by
    rcases List.mem_append.mp he' with hold | hnew
    · exact h.fits t e' hold
    · split at hnew
      · rw [List.mem_singleton.mp hnew]
        exact he
      · cases hnew

theorem Encodes.emitted {l l' : Layout Word} {given : Section → List Emitted} (h : Encodes l given)
    {s : Section} {op : Opcode} {operands : List Word} {r : Option Nat}
    (hrun : Layout.perform.emitted s op operands l = (.ok r, l')) :
    Encodes l' fun t => given t ++ if t = s then [⟨op, operands⟩] else [] := by
  by_cases hf : (Instruction.of op operands).Fits
  · simp only [Layout.perform.emitted, Layout.emit, if_pos hf, Prod.mk.injEq] at hrun
    rw [← hrun.2]
    exact h.append (e := ⟨op, operands⟩) hf
  · simp [Layout.perform.emitted, Layout.emit, if_neg hf] at hrun

theorem act_ok_iff [DecidableEq ι] {bench bench' : ι → Layout Word} {a : Action ι}
    {r : Option Nat} : act a bench = (.ok r, bench') ↔
      ∃ l, Layout.perform (a.edit bench) (bench a.target) = (.ok r, l) ∧
        bench' = Function.update bench a.target l := by
  rw [act]
  rcases Layout.perform (a.edit bench) (bench a.target) with ⟨r', l⟩
  grind

/-- One action: its target holds what the action adds, the other layouts stay as they are. -/
theorem encodes_act [DecidableEq ι] {bench bench' : ι → Layout Word} {before : List (Action ι)}
    (h : ∀ b, Encodes (bench b) (contents before b)) {a : Action ι} {r : Option Nat}
    (hrun : act a bench = (.ok r, bench')) (b : ι) : Encodes (bench' b) (contents (a :: before) b) := by
  obtain ⟨l, hperform, rfl⟩ := act_ok_iff.mp hrun
  by_cases hb : b = a.target
  · have hl : Encodes l fun s => contents before a.target s ++ a.adds (contents before) s := by
      cases a with
      | emit b s op operands => exact (h b).emitted hperform
      | emitText b s op leading text trailing => exact (h b).emitted hperform
      | label b id =>
        obtain ⟨r', l', hemit, hpure⟩ := bind_eq_ok_iff.mp hperform
        rw [← (Prod.mk.inj hpure).2]
        exact (h b).emitted hemit
      | merge b source =>
        obtain rfl : l = (bench b).merge (bench source) := (congrArg Prod.snd hperform).symm
        exact (h b).merge (h source)
    subst hb
    simpa [contents] using hl
  · rw [Function.update_of_ne hb]
    simpa [contents, hb] using h b

theorem encodes_run [DecidableEq ι] {actions : List (Action ι)} {bench bench' : ι → Layout Word}
    {before : List (Action ι)} (h : ∀ b, Encodes (bench b) (contents before b))
    {offsets : List (Option Nat)} (hrun : actions.mapM act bench = (.ok offsets, bench')) (b : ι) :
    Encodes (bench' b) (contents (actions.reverse ++ before) b) := by
  induction actions generalizing bench before offsets with
  | nil =>
    obtain ⟨-, rfl⟩ := mapM_nil_ok_iff.mp hrun
    exact h b
  | cons a actions ih =>
    obtain ⟨r, middle, rest, ha, hrest, -⟩ := mapM_cons_ok_iff.mp hrun
    rw [List.reverse_cons, List.append_assoc]
    exact ih (encodes_act h ha) hrest

/-! ## Cutting it up again -/

theorem Encodes.decodeAll {l : Layout Word} {given : Section → List Emitted} (h : Encodes l given)
    (s : Section) :
    Instruction.decodeAll (l.get s) = ((given s).map Emitted.instruction, []) := by
  rw [h.words]
  exact Instruction.decodeAll_encodeAll _ fun i hi => by
    obtain ⟨e, he, rfl⟩ := List.mem_map.mp hi
    exact h.fits s e he

theorem Encodes.decodeAll_toList {l : Layout Word} {given : Section → List Emitted}
    (h : Encodes l given) :
    Instruction.decodeAll l.toList =
      ((Section.all.flatMap given).map Emitted.instruction, []) := by
  have hwords : l.toList =
      Instruction.encodeAll ((Section.all.flatMap given).map Emitted.instruction) := by
    rw [Layout.toList, List.map_flatMap, Instruction.encodeAll, List.flatMap_assoc]
    exact List.flatMap_congr fun s _ => h.words s
  rw [hwords]
  refine Instruction.decodeAll_encodeAll _ fun i hi => ?_
  obtain ⟨e, he, rfl⟩ := List.mem_map.mp hi
  obtain ⟨s, -, hs⟩ := List.mem_flatMap.mp he
  exact h.fits s e hs

theorem map_ofCode?_instruction (es : List Emitted) :
    (es.map Emitted.instruction).map (fun i => Opcode.ofCode? i.code) =
      es.map fun e => some e.op := by
  rw [List.map_map]
  exact List.map_congr_left fun e _ => Opcode.ofCode?_code e.op

/-- Each section, and the whole stream, reads back as what was put there. -/
theorem bench_reads_back [DecidableEq ι] {actions : List (Action ι)} {offsets : List (Option Nat)}
    {bench : ι → Layout Word}
    (run : actions.mapM act (fun _ => .empty) = (.ok offsets, bench)) (b : ι) :
    (∀ s, ∃ is, Instruction.decodeAll ((bench b).get s) = (is, []) ∧
      is = (contents actions.reverse b s).map Emitted.instruction ∧
      is.map (fun i => Opcode.ofCode? i.code) =
        (contents actions.reverse b s).map fun e => some e.op) ∧
    ∀ version generator bound, ∃ is,
      Instruction.decodeAll
        (((bench b).serialize version generator bound).drop Layout.headerSize) = (is, []) ∧
      is = (Section.all.flatMap (contents actions.reverse b)).map Emitted.instruction ∧
      is.map (fun i => Opcode.ofCode? i.code) =
        (Section.all.flatMap (contents actions.reverse b)).map fun e => some e.op := by
  have h : Encodes (bench b) (contents (actions.reverse ++ []) b) :=
    encodes_run (fun _ => encodes_empty) run b
  rw [List.append_nil] at h
  refine ⟨fun s => ⟨_, h.decodeAll s, rfl, map_ofCode?_instruction _⟩, fun v g n => ?_⟩
  exact ⟨_, h.decodeAll_toList, rfl, map_ofCode?_instruction _⟩

/-- Two layouts: a string between operands, then each merged into the other and one into itself. -/
def braid : List (Action Bool) :=
  [.emitText true .debug .name [7] "braid" [], .label false 3, .merge true false,
    .emit true .functions .ret [], .merge true true, .merge false true]

theorem braid_reads_back : ∃ offsets bench, braid.mapM act (fun _ => .empty) = (.ok offsets, bench) ∧
    Instruction.decodeAll (((bench false).serialize 0x10000 0 8).drop Layout.headerSize) =
      ([.of .name [7, 0x69617262, 0x64], .of .name [7, 0x69617262, 0x64], .of .label [3],
        .of .label [3], .of .ret [], .of .label [3], .of .ret []], []) := by
  obtain ⟨offsets, bench, run, -⟩ :=
    exists_run_of_any (f := fun _ _ => true) (x := braid.mapM act) (s := fun _ => Layout.empty)
      (by decide +kernel)
  obtain ⟨is, hcut, his, -⟩ := (bench_reads_back run false).2 0x10000 0 8
  refine ⟨offsets, bench, run, ?_⟩
  rw [hcut, his]
  decide +kernel

end Bench

end SpirvKernel
