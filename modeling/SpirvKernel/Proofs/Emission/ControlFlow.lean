import Mathlib.Algebra.Group.Nat.Defs
import SpirvKernel.Proofs.Emission.Mention
import SpirvKernel.Proofs.Module.Reservation

/-!
# Control flow

The output of a method, cut at its labels, has one piece for each block of the method. The last
instruction of a piece reads back as the terminator of the block, with the final names of values and
blocks.
-/

namespace SpirvKernel

open Instruction

/-! ## Reading terminators -/

/-- How control leaves a block of a module. -/
inductive Jump where
  | ret (value : Option Word)
  | branch (target : Word)
  | condBranch (cond thenTarget elseTarget : Word)
  | switch (selector : Word) (cases : List (Nat × Word)) (default : Word)
  | unreachable
  deriving DecidableEq, Repr

namespace Jump

/-- Literals of one word, each with its target. -/
def readNarrow? : List Word → Option (List (Nat × Word))
  | [] => some []
  | literal :: target :: ws => (readNarrow? ws).map ((literal.toNat, target) :: ·)
  | [_] => none

/-- Literals of two words, the low one first, each with its target. -/
def readWide? : List Word → Option (List (Nat × Word))
  | [] => some []
  | low :: high :: target :: ws =>
    (readWide? ws).map ((low.toNat + 2 ^ 32 * high.toNat, target) :: ·)
  | [_, _] | [_] => none

def readCases? (wide : Bool) (ws : List Word) : Option (List (Nat × Word)) :=
  if wide then readWide? ws else readNarrow? ws

def decode? (wide : Bool) (i : Instruction) : Option Jump :=
  match Opcode.ofCode? i.code, i.operands with
  | some .ret, [] => some (.ret none)
  | some .retValue, [x] => some (.ret (some x))
  | some .branch, [l] => some (.branch l)
  | some .branchConditional, [c, l, m] => some (.condBranch c l m)
  | some .switch, x :: l :: ws => (readCases? wide ws).map fun cases => .switch x cases l
  | some .unreachable, [] => some .unreachable
  | _, _ => none

end Jump

/-- The terminator with names of the table, and its literals cut to the width of the selector. -/
def Method.jump? (m : Method) (T : IdTable) : Terminator → Option Jump
  | .ret none => some (.ret none)
  | .ret (some v) => do
    let x ← T.value? v
    pure (.ret (some x))
  | .branch target => do
    let l ← T.label? target
    pure (.branch l)
  | .condBranch cond thenBlock elseBlock => do
    let c ← T.value? cond
    let l ← T.label? thenBlock
    let m ← T.label? elseBlock
    pure (.condBranch c l m)
  | .switch selector cases default => do
    let width ← m.switchWidth? (.switch selector cases default)
    let x ← T.value? selector
    let l ← T.label? default
    let targets ← cases.mapM fun c => T.label? c.2
    pure (.switch x ((cases.map fun c => c.1.toNat % 2 ^ width.bits).zip targets) l)
  | .unreachable => some .unreachable

namespace Jump

theorem readCases?_ofLiteral {wide : Bool} {bits : UInt64} (h : wide = false → bits.toNat < 2 ^ 32)
    (target : Word) (ws : List Word) :
    readCases? wide (Word.ofLiteral bits wide ++ target :: ws) =
      (readCases? wide ws).map ((bits.toNat, target) :: ·) := by
  cases wide with
  | false =>
    have hlow : bits.toUInt32.toNat = bits.toNat := by
      rw [UInt64.toNat_toUInt32]
      exact Nat.mod_eq_of_lt (h rfl)
    simp [readCases?, Word.ofLiteral, readNarrow?, hlow]
  | true =>
    have hbits := bits.toNat_lt
    have hsplit : bits.toUInt32.toNat + 2 ^ 32 * (bits >>> 32).toUInt32.toNat = bits.toNat := by
      rw [UInt64.toNat_toUInt32, UInt64.toNat_toUInt32, UInt64.toNat_shiftRight]
      simp only [UInt64.reduceToNat, Nat.reduceMod, Nat.shiftRight_eq_div_pow]
      omega
    simp only [readCases?, Word.ofLiteral, if_true, List.cons_append, List.nil_append, readWide?,
      hsplit]

theorem readCases?_ofCase (width : IntWidth) (cases : List ((UInt64 × BlockId) × Word)) :
    readCases? (width = .i64) (cases.flatMap fun (c, target) => Word.ofCase width c.1 target) =
      some (cases.map fun (c, target) => (c.1.toNat % 2 ^ width.bits, target)) := by
  induction cases with
  | nil => simp [readCases?, readWide?, readNarrow?]
  | cons c cases ih =>
    obtain ⟨⟨literal, b⟩, target⟩ := c
    have hbits := width.toNat_and_mask literal
    have hnarrow : decide (width = .i64) = false → (literal &&& width.mask).toNat < 2 ^ 32 := by
      intro hw
      have hle : 2 ^ width.bits ≤ 2 ^ 32 := by cases width <;> simp_all [IntWidth.bits]
      exact hbits ▸ Nat.lt_of_lt_of_le (Nat.mod_lt _ (Nat.two_pow_pos _)) hle
    simp only [List.flatMap_cons, Word.ofCase, List.append_assoc, List.singleton_append] at ih ⊢
    rw [readCases?_ofLiteral hnarrow, ih, hbits]
    rfl

end Jump

namespace Emission

variable {t : Task} {d : Dictionary} {T : IdTable}

theorem map_snd_zip_of_mapM {α β : Type} {f : α → Option β} {as : List α} {bs : List β}
    (h : as.mapM f = some bs) : (as.zip bs).map Prod.snd = bs := by
  induction as generalizing bs with
  | nil => rw [mapM_nil_some_iff.mp h]; rfl
  | cons a as ih =>
    obtain ⟨b, rest, -, hrest, rfl⟩ := mapM_cons_some_iff.mp h
    rw [List.zip_cons_cons, List.map_cons, ih hrest]

/-- A terminator reads back as itself with final names, and refers to the labels of its successors. -/
theorem LowersTerminator.decode {x : Terminator} {i : Instruction} (h : LowersTerminator t T x i) :
    ∃ jump, t.method.jump? T x = some jump ∧
      Jump.decode? (t.method.switchWidth? x = some .i64) i = some jump ∧
      x.successors.mapM T.label? = some (i.mentions (t.method.switchWidth? x = some .i64)) := by
  cases h with
  | ret => exact ⟨_, rfl, rfl, rfl⟩
  | unreachable => exact ⟨_, rfl, rfl, rfl⟩
  | @retValue v u hu => exact ⟨.ret (some u), by simp [Method.jump?, hu], rfl, rfl⟩
  | @branch b l hl =>
    exact ⟨.branch l, by simp [Method.jump?, hl], rfl,
      mapM_cons_some_iff.mpr ⟨l, [], hl, rfl, rfl⟩⟩
  | @condBranch cond thenBlock elseBlock c l m hc hl hm =>
    exact ⟨.condBranch c l m, by simp [Method.jump?, hc, hl, hm], rfl,
      mapM_cons_some_iff.mpr ⟨l, [m], hl, mapM_cons_some_iff.mpr ⟨m, [], hm, rfl, rfl⟩, rfl⟩⟩
  | @switch selector cases default type width u l targets ht hw hu hl hc =>
    have hwidth := Method.switchWidth?_switch ht hw cases default
    rw [Method.decide_switchWidth?_switch ht hw, mentions_switch, map_snd_zip_of_mapM hc]
    refine ⟨.switch u ((cases.zip targets).map fun (c, target) =>
      (c.1.toNat % 2 ^ width.bits, target)) l, ?_, ?_, ?_⟩
    · simp [Method.jump?, hwidth, hu, hl, hc, List.zip_map_left, Prod.map]
    · have hread : ∀ ws, Jump.decode? (width = .i64) (.of .switch (u :: l :: ws)) =
          (Jump.readCases? (width = .i64) ws).map fun cases => .switch u cases l := fun _ => rfl
      rw [hread, Jump.readCases?_ofCase]
      rfl
    · refine mapM_cons_some_iff.mpr ⟨l, targets, hl, ?_, rfl⟩
      rw [List.mapM_map]
      exact hc

end Emission

/-! ## Blocks -/

namespace Instruction

def label? (i : Instruction) : Option Word :=
  if i.code = Opcode.label.code then i.operands.head? else none

/-- The instructions before the first label, and each label with those up to the next. -/
def splitAtLabels : List Instruction → List Instruction × List (Word × List Instruction) :=
  splitAtMarks label?

theorem label?_of_closed {i : Instruction} (h : i.opens = false) : i.label? = none := by
  rw [opens, Bool.or_eq_false_iff] at h
  exact if_neg (of_decide_eq_false h.2)

end Instruction

namespace Emission

variable {t : Task} {d : Dictionary} {T : IdTable}

theorem Code.Of.splitAtLabels {b : Block} {c : Code} (code : Code.Of t d T b c)
    (js : List Instruction) : splitAtLabels (c.toList ++ js) =
      ([], (c.label, c.inner ++ [c.last] ++ (splitAtLabels js).1) :: (splitAtLabels js).2) := by
  have mark : label? (Code.opening c.label) = some c.label := rfl
  exact splitAtMarks_cons_append mark (fun i hi => label?_of_closed (code.closed i hi)) js

theorem splitAtLabels_codes {bs : List Block} {cs : List Code}
    (h : List.Forall₂ (Code.Of t d T) bs cs) :
    splitAtLabels (cs.flatMap Code.toList) = ([], cs.map fun c => (c.label, c.inner ++ [c.last])) := by
  induction h with
  | nil => rfl
  | cons code _ ih => rw [List.flatMap_cons, code.splitAtLabels, ih, List.append_nil, List.map_cons]

theorem Text.Of.label?_head {r : IdRange} {w : Work} {x : Text} (h : Text.Of t d r w x) :
    ∀ i ∈ x.head, i.label? = none := by
  intro i hi
  obtain ⟨type, signature, wss, -, hhead⟩ := h.head
  rw [hhead] at hi
  rcases List.mem_cons.mp hi with rfl | hi
  · rfl
  · obtain ⟨ws, -, rfl⟩ := List.mem_map.mp hi
    rfl

/-- Blocks keep their order, their terminators and their successors. -/
theorem blocks_translated {p : Program} {debugNames : Bool} {frame : Frame} {m : Method}
    {storage : Storage} {entry : Option EntryPoint} {s₀ s s' : Supply} {t : Task} {w : Work}
    {d₁ d₂ : Dictionary} {g₁ g₂ : Layout Instruction} {s₁ s₂ : Emission}
    (hframe : Frame.ofProgram p debugNames Supply.new = (.ok frame, s₀)) (hlater : s₀.next ≤ s.next)
    (hstart : Task.start frame m storage entry s = (.ok (t, w), s'))
    (hheader : header t ⟨d₁, g₁, w⟩ = (.ok (), s₁))
    (hbody : body t ⟨d₂, g₂, s₁.work⟩ = (.ok (), s₂)) :
    ∃ code blocks, s₂.work.output.functions = code ++ [.of .functionEnd []] ∧
      (splitAtLabels code).2 = blocks ∧
      (∃ first, blocks.map (fun c => c.1.toNat) = List.range' first m.blocks.length) ∧
      List.Forall₂ (fun b c => s₂.work.table.label? b.id = some c.1 ∧
        ∃ i jump, c.2.getLast? = some i ∧
          Jump.decode? (m.switchWidth? b.terminator = some .i64) i = some jump ∧
          m.jump? s₂.work.table b.terminator = some jump ∧
          b.terminator.successors.mapM s₂.work.table.label? =
            some (i.mentions (m.switchWidth? b.terminator = some .i64))) m.blocks blocks := by
  obtain ⟨rfl, hlimit, r, x, text, -⟩ := generated_text hframe hlater hstart hheader hbody
  refine ⟨x.head ++ x.codes.flatMap Code.toList, x.codes.map fun c => (c.label, c.inner ++ [c.last]),
    ?_, ?_, ?_, ?_⟩
  · rw [text.output, Text.functions, List.append_assoc]
  · rw [splitAtLabels, splitAtMarks_append text.label?_head, ← splitAtLabels,
      splitAtLabels_codes text.codes]
  -- Labels are in the range of the method, so no number is cut to a word.
  · obtain ⟨first, hlabels, hbound⟩ := text.labels
    refine ⟨first, ?_⟩
    have := congrArg (List.map UInt32.toNat) hlabels
    rw [List.map_map] at this
    rw [List.map_map]
    refine this.trans ?_
    rw [wordsFrom, List.map_map, Nat.add_sub_cancel_left]
    refine (List.map_congr_left fun n hn => ?_).trans (List.map_id _)
    rw [List.mem_range'_1] at hn
    exact toNat_ofNat (by omega)
  · rw [List.forall₂_map_right_iff]
    refine text.codes.imp fun b c code => ⟨code.label, ?_⟩
    obtain ⟨jump, hjump, hdecode, hsuccessors⟩ := code.last.decode
    exact ⟨c.last, jump, List.getLast?_concat .., hdecode, hjump, hsuccessors⟩

/-- Blocks with edges back and a switch of 64 bits, one of whose literals needs both words. -/
def route : Method where
  id := ⟨0⟩
  name := "route"
  params := [⟨⟨0⟩, .i64⟩, ⟨⟨1⟩, .bool⟩]
  returnType := .void
  blocks := [
    { id := ⟨7⟩, body := [], terminator := .switch ⟨0⟩ [(0x100000001, ⟨3⟩), (5, ⟨7⟩), (6, ⟨3⟩)] ⟨1⟩ },
    { id := ⟨3⟩, body := [], terminator := .condBranch ⟨1⟩ ⟨7⟩ ⟨3⟩ },
    { id := ⟨1⟩, body := [], terminator := .ret none }]

def routeTask : Task := ⟨⟨⟨[(⟨0⟩, ⟨2⟩)]⟩, ⟨1⟩, true⟩, route, .ofMethod route, ⟨2⟩, none⟩

theorem route_blocks_translated :
    Frame.ofProgram ⟨[route]⟩ true Supply.new = (.ok routeTask.frame, ⟨3⟩) ∧
    Task.start routeTask.frame route (.ofMethod route) none ⟨3⟩ =
      (.ok (routeTask, start ⟨3, 9⟩), ⟨9⟩) ∧
    ∃ s₁ s₂, header routeTask ⟨.new ⟨9⟩, .empty, start ⟨3, 9⟩⟩ = (.ok (), s₁) ∧
      body routeTask ⟨s₁.dictionary, s₁.target, s₁.work⟩ = (.ok (), s₂) ∧
      ∃ code blocks, s₂.work.output.functions = code ++ [.of .functionEnd []] ∧
        (splitAtLabels code).2 = blocks ∧
        (∃ first, blocks.map (fun c => c.1.toNat) = List.range' first route.blocks.length) ∧
        List.Forall₂ (fun b c => s₂.work.table.label? b.id = some c.1 ∧
          ∃ i jump, c.2.getLast? = some i ∧
            Jump.decode? (route.switchWidth? b.terminator = some .i64) i = some jump ∧
            route.jump? s₂.work.table b.terminator = some jump ∧
            b.terminator.successors.mapM s₂.work.table.label? =
              some (i.mentions (route.switchWidth? b.terminator = some .i64)))
          route.blocks blocks := by
  have hframe : Frame.ofProgram ⟨[route]⟩ true Supply.new = (.ok routeTask.frame, ⟨3⟩) := rfl
  have hstart : Task.start routeTask.frame route (.ofMethod route) none ⟨3⟩ =
      (.ok (routeTask, start ⟨3, 9⟩), ⟨9⟩) := rfl
  obtain ⟨s₁, s₂, hheader, hbody⟩ := Attempt.exists_runs_of_isSome (x := header routeTask)
    (y := body routeTask) (s := ⟨.new ⟨9⟩, .empty, start ⟨3, 9⟩⟩) (by decide +kernel)
  exact ⟨hframe, hstart, s₁, s₂, hheader, hbody,
    blocks_translated hframe (Nat.le_refl 3) hstart hheader hbody⟩

end Emission

end SpirvKernel
