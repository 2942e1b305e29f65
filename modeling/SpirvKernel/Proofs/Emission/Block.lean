import SpirvKernel.Proofs.Emission.Lowering
import SpirvKernel.Proofs.Emission.Storage
import SpirvKernel.Proofs.Emission.Terminator

/-!
# What blocks become

The code of a block is its label, the memory of the function if it is the entry block, the
instructions of its values in order and the instruction of its terminator.
-/

namespace SpirvKernel.Emission

open Instruction Attempt

structure Code where
  label : Word
  /-- What sets up the memory of the function. -/
  first : List Instruction
  values : List (List Instruction)
  last : Instruction

namespace Code

def opening (label : Word) : Instruction := .of .label [label]

def inner (c : Code) : List Instruction := c.first ++ c.values.flatten

def toList (c : Code) : List Instruction := opening c.label :: (c.inner ++ [c.last])

structure Of (t : Task) (d : Dictionary) (T : IdTable) (b : Block) (c : Code) : Prop where
  label : T.label? b.id = some c.label
  first : Quiet c.first
  storage : ∀ i ∈ c.first, i.isInner = true
  values : List.Forall₂ (Lowers t d T) b.body c.values
  last : LowersTerminator t T b.terminator c.last
  closed : ∀ i ∈ c.inner ++ [c.last], i.opens = false

end Code

variable {t : Task} {s s' : Emission}

theorem Wrote.opens {os : List Instruction} {P : Dictionary → IdTable → List Instruction → Prop}
    (h : Wrote t s os P s') :
    Wrote t s os (fun d T is => P d T is ∧ is.filter Instruction.opens = os) s' := by
  obtain ⟨ls, run, hP⟩ := h
  refine ⟨ls, run, fun d T hd hT hl => ⟨hP d T hd hT hl, ?_⟩⟩
  rw [← run.opens, List.filter_map, List.filter_map]
  have hcode : (Instruction.opens ∘ Line.final T) = (Instruction.opens ∘ Line.draft) := by
    funext l
    simp [Instruction.opens]
  rw [hcode]
  refine List.map_congr_left fun l hl => ?_
  cases l with
  | plain => rfl
  | phi => exact absurd (List.mem_filter.mp hl).2 Bool.false_ne_true

theorem emitLabel_wrote {b : BlockId} {w : Word} {u : Unit} (hw : s.work.table.label? b = some w)
    (h : emit .label [w] s = (.ok u, s')) :
    Wrote t s [Code.opening w] (fun _ T is => is = [Code.opening w] ∧ T.label? b = some w) s' := by
  obtain ⟨fits, rfl⟩ := emit_ok_iff.mp h
  have step : Step t s [Code.opening w] [.plain (Code.opening w)]
      (s.written (.plain (Code.opening w))) :=
    .opening rfl fits (by simp [Code.opening, uses, inSlot_of, Opcode.format, Format.read])
  exact step.run.wrote [Code.opening w] fun _ T _ hT =>
    ⟨rfl, (step.advances.names.trans hT).label? hw⟩

theorem emitBlock_wrote {b : Block} {first : Emit Unit} {plan : Storage} (hb : b ∈ t.method.blocks)
    (hfirst : ∀ s s', first s = (.ok (), s') → Lays t s plan s')
    (h : emitBlock t first b s = (.ok (), s')) :
    ∃ w, s.work.table.label? b.id = some w ∧ ∃ x : Memory, AddsGroups s x.groups s' ∧
      Wrote t s [Code.opening w] (fun d T is => ∃ c : Code, is = c.toList ∧ c.label = w ∧
        c.Of t d T b ∧ x.Of d T plan c.first) s' := by
  simp only [emitBlock, bind_eq_ok_iff, label_ok_iff] at h
  obtain ⟨w, _, ⟨hw, rfl⟩, _, s₁, hlabel, _, s₂, hplace, _, s₃, hvalues, h⟩ := h
  obtain ⟨x, adds, memory⟩ := hfirst _ _ hplace
  refine ⟨w, hw, x, ?_, ?_⟩
  · have opened := (made_emit _ _).keepsGroups.of_ok hlabel
    have computed := (made_forM (fun v => made_emitValue fun r hr =>
      groupless_perform r (keyed_valueRequests hr)) _).keepsGroups.of_ok hvalues
    have ended := (made_emitTerminator t _).keepsGroups.of_ok h
    exact ((opened.addsGroups adds).keepsGroups computed).keepsGroups ended
  have values : Wrote t s₂ [] (fun d T is => ∃ iss, is = iss.flatten ∧
      List.Forall₂ (Lowers t d T) b.body iss) s₃ :=
    forM_wrote (fun v hv s s' h => emitValue_lowered (List.mem_flatMap.mpr ⟨b, hb, hv⟩) h) hvalues
  have inside := ((memory.append values).append (emitTerminator_wrote h)).opens
  refine ((emitLabel_wrote hw hlabel).append inside).imp ?_
  rintro d T _ ⟨_, _, rfl, ⟨rfl, hw⟩, ⟨_, _, rfl, ⟨places, _, rfl, hmemory, iss, rfl, hvalues⟩, i, rfl,
    hlast⟩, hopens⟩
  refine ⟨⟨w, places, iss, i⟩, rfl, rfl, ⟨hw, hmemory.quiet, hmemory.inner, hvalues, hlast,
    fun j hj => ?_⟩, hmemory⟩
  simpa using List.filter_eq_nil_iff.mp hopens j hj

/-- The run from `s` to `s'` wrote the code of the blocks, in order, and `F` holds of it. -/
def Codes (t : Task) (s : Emission) (bs : List Block) (F : Dictionary → IdTable → List Code → Prop)
    (s' : Emission) : Prop :=
  ∃ ws, bs.mapM (fun b => s.work.table.label? b.id) = some ws ∧
    Wrote t s (ws.map Code.opening) (fun d T is => ∃ cs : List Code,
      is = cs.flatMap Code.toList ∧ cs.map Code.label = ws ∧
        List.Forall₂ (Code.Of t d T) bs cs ∧ F d T cs) s'

theorem Codes.cons {b : Block} {bs : List Block} {first : Emit Unit} {plan : Storage}
    {F : Dictionary → IdTable → List Code → Prop} {s₁ : Emission} (hb : b ∈ t.method.blocks)
    (hfirst : ∀ s s', first s = (.ok (), s') → Lays t s plan s')
    (h : emitBlock t first b s = (.ok (), s₁)) (hbs : Codes t s₁ bs F s') :
    ∃ x : Memory, AddsGroups s x.groups s₁ ∧ Codes t s (b :: bs)
      (fun d T cs => ∃ c rest, cs = c :: rest ∧ x.Of d T plan c.first ∧ F d T rest) s' := by
  obtain ⟨w, hw, x, adds, wrote⟩ := emitBlock_wrote hb hfirst h
  obtain ⟨ws, hws, rest⟩ := hbs
  have blocks : ∀ b, s₁.work.table.label? b = s.work.table.label? b := by
    obtain ⟨ls, run, -⟩ := wrote
    intro b
    rw [IdTable.label?, IdTable.label?, run.advances.blocks]
  simp only [blocks] at hws
  refine ⟨x, adds, w :: ws, mapM_cons_some_iff.mpr ⟨w, ws, hw, hws, rfl⟩, (wrote.append rest).imp ?_⟩
  rintro d T _ ⟨_, _, rfl, ⟨c, rfl, rfl, hc, memory⟩, cs, rfl, rfl, hcs, hF⟩
  exact ⟨c :: cs, rfl, rfl, .cons hc hcs, c, cs, rfl, memory, hF⟩

/-- The memory is set up at the top of the first block and nowhere else. -/
def Memory.Tops (d : Dictionary) (T : IdTable) (plan : Storage) (cs : List Code) (x : Memory) : Prop :=
  ∃ c rest, cs = c :: rest ∧ x.Of d T plan c.first ∧ ∀ c' ∈ rest, c'.first = []

theorem lays_nothing {u : Unit} (h : (pure () : Emit Unit) s = (.ok u, s')) : Lays t s {} s' := by
  obtain ⟨-, rfl⟩ := pure_ok_iff.mp h
  refine ⟨⟨[], []⟩, (List.append_nil _).symm, ?_⟩
  exact Run.refl.wrote [] fun _ _ _ _ => ⟨.nil, .nil, [], rfl, .nil⟩

theorem Memory.Of.nothing {d : Dictionary} {T : IdTable} {is : List Instruction} {x : Memory}
    (h : x.Of d T {} is) : is = [] := by
  have items := List.forall₂_nil_left_iff.mp h.items
  obtain ⟨js, rfl, hall⟩ := h.code
  rw [items] at hall ⊢
  exact List.forall₂_nil_left_iff.mp hall

theorem emitBlocks_codes {bs : List Block} (hbs : ∀ b ∈ bs, b ∈ t.method.blocks)
    (h : bs.forM (emitBlock t (pure ())) s = (.ok (), s')) :
    Codes t s bs (fun _ _ cs => ∀ c ∈ cs, c.first = []) s' := by
  -- Only the entry block sets up memory.
  induction bs generalizing s with
  | nil =>
    obtain rfl := forM_nil_ok_iff.mp h
    exact ⟨[], rfl, [], .refl, fun _ _ _ _ _ => ⟨[], rfl, rfl, .nil, by simp⟩⟩
  | cons b bs ih =>
    obtain ⟨s₁, hb, hrest⟩ := forM_cons_ok_iff.mp h
    have rest := ih (fun b' hb' => hbs b' (List.mem_cons_of_mem b hb')) hrest
    obtain ⟨x, -, ws, hws, wrote⟩ :=
      Codes.cons (hbs b List.mem_cons_self) (fun _ _ => lays_nothing) hb rest
    refine ⟨ws, hws, wrote.imp ?_⟩
    rintro d T _ ⟨_, rfl, hlabels, hcs, c, cs, rfl, memory, hall⟩
    refine ⟨c :: cs, rfl, hlabels, hcs, ?_⟩
    simpa using ⟨memory.nothing, hall⟩

end SpirvKernel.Emission
