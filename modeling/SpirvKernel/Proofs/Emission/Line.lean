import SpirvKernel.Emission.Function
import SpirvKernel.Proofs.Operand
import SpirvKernel.Proofs.Run

/-!
# Lines of a function

A phi is written before all its values have identifiers. Those still to come are zero in the draft and
are filled in at the end of the body. A line holds what both forms of an instruction are made from.
-/

namespace SpirvKernel

namespace IdTable

def value? (t : IdTable) (v : ValueId) : Option Word := (t.get? (.value v)).map Id.word

def label? (t : IdTable) (b : BlockId) : Option Word := (t.get? (.block b)).map Id.word

/-- Whatever has a name in `t` has the same name in `u`. -/
def Within (t u : IdTable) : Prop := ∀ e id, t.get? e = some id → u.get? e = some id

variable {t u v : IdTable}

theorem Within.refl (t : IdTable) : Within t t := fun _ _ h => h

theorem Within.trans (h : Within t u) (h' : Within u v) : Within t v :=
  fun e id he => h' e id (h e id he)

theorem Within.word (h : Within t u) {e : Entity} {w : Word} (he : (t.get? e).map Id.word = some w) :
    (u.get? e).map Id.word = some w := by
  obtain ⟨id, hid, rfl⟩ := Option.map_eq_some_iff.mp he
  exact Option.map_eq_some_iff.mpr ⟨id, h e id hid, rfl⟩

theorem Within.value? (h : Within t u) {x : ValueId} {w : Word} (hx : t.value? x = some w) :
    u.value? x = some w := h.word hx

theorem Within.label? (h : Within t u) {b : BlockId} {w : Word} (hb : t.label? b = some w) :
    u.label? b = some w := h.word hb

end IdTable

namespace Emission

/-- A value of a phi and the block it comes from. -/
structure Incoming where
  value : ValueId
  /-- What names the value, unless it is still to come. -/
  word? : Option Word
  label : Word

namespace Incoming

def draft (x : Incoming) : List Word := [x.word?.getD 0, x.label]

def final (T : IdTable) (x : Incoming) : List Word :=
  [x.word?.getD ((T.value? x.value).getD 0), x.label]

/-- The places, counted from `start`, of the values still to come. -/
def missing (start : Nat) : List Incoming → List (Nat × ValueId)
  | [] => []
  | x :: xs =>
    match x.word? with
    | some _ => missing (start + 2) xs
    | none => (start, x.value) :: missing (start + 2) xs

end Incoming

inductive Line where
  | plain (i : Instruction)
  | phi (type id : Word) (incoming : List Incoming)

namespace Line

def draft : Line → Instruction
  | plain i => i
  | phi type id incoming => .of .phi (type :: id :: incoming.flatMap Incoming.draft)

def final (T : IdTable) : Line → Instruction
  | plain i => i
  | phi type id incoming => .of .phi (type :: id :: incoming.flatMap (Incoming.final T))

def missing : Line → List (Nat × ValueId)
  | plain _ => []
  | phi _ _ incoming => Incoming.missing 2 incoming

/-- What is pending for lines that follow `n` others. -/
def pending (n : Nat) : List Line → List Pending
  | [] => []
  | l :: ls => l.missing.map (fun (place, value) => ⟨n, place, value⟩) ++ pending (n + 1) ls

/-- Everything that is missing has a name in `T`. -/
def Resolved (T : IdTable) (l : Line) : Prop := ∀ x ∈ l.missing, (T.value? x.2).isSome

end Line

/-! ## Filling in what was missing -/

def fillAll (T : IdTable) (missing : List (Nat × ValueId)) (ws : List Word) : List Word :=
  missing.foldl (fun ws (place, value) => ws.set place ((T.value? value).getD 0)) ws

def fill (T : IdTable) (is : List Instruction) (p : Pending) : List Instruction :=
  is.modify p.instruction fun i =>
    { i with operands := i.operands.set p.operand ((T.value? p.value).getD 0) }

theorem modify_append_cons {α : Type} (before after : List α) (a : α) (f : α → α) :
    (before ++ a :: after).modify before.length f = before ++ f a :: after := by
  induction before with
  | nil => rfl
  | cons b before ih => simp only [List.cons_append, List.length_cons, List.modify_succ_cons, ih]

theorem foldl_fill_at (T : IdTable) (before : List Instruction) (i : Instruction)
    (after : List Instruction) (missing : List (Nat × ValueId)) :
    (missing.map fun (place, value) => (⟨before.length, place, value⟩ : Pending)).foldl (fill T)
        (before ++ i :: after) =
      before ++ { i with operands := fillAll T missing i.operands } :: after := by
  induction missing generalizing i with
  | nil => rfl
  | cons m missing ih =>
    simp only [List.map_cons, List.foldl_cons, fill, modify_append_cons]
    exact ih _

theorem fillAll_missing (T : IdTable) (before : List Word) (incoming : List Incoming) :
    fillAll T (Incoming.missing before.length incoming)
        (before ++ incoming.flatMap Incoming.draft) =
      before ++ incoming.flatMap (Incoming.final T) := by
  induction incoming generalizing before with
  | nil => rfl
  | cons x xs ih =>
    have hlen : before.length + 2 = (before ++ x.final T).length := by simp [Incoming.final]
    obtain ⟨value, _ | word, label⟩ := x
    · simp only [Incoming.missing, hlen, List.flatMap_cons]
      rw [← List.append_assoc, ← List.append_assoc, ← ih]
      simp [fillAll, Incoming.draft, Incoming.final]
    · simp only [Incoming.missing, hlen, List.flatMap_cons]
      rw [← List.append_assoc, ← List.append_assoc, ← ih]
      simp [Incoming.draft, Incoming.final]

namespace Line

theorem fillAll_draft (T : IdTable) (l : Line) :
    { l.draft with operands := fillAll T l.missing l.draft.operands } = l.final T := by
  cases l with
  | plain i => rfl
  | phi type id incoming =>
    have := fillAll_missing T [type, id] incoming
    simp only [List.length_cons, List.length_nil, List.cons_append, List.nil_append] at this
    simp only [missing, draft, final, Instruction.of, this]

theorem foldl_fill_pending (T : IdTable) (before : List Instruction) (ls : List Line) :
    (pending before.length ls).foldl (fill T) (before ++ ls.map draft) =
      before ++ ls.map (final T) := by
  induction ls generalizing before with
  | nil => rfl
  | cons l ls ih =>
    have hlen : before.length + 1 = (before ++ [l.final T]).length := by simp
    rw [pending, List.foldl_append, List.map_cons, foldl_fill_at, fillAll_draft, hlen,
      List.append_cons, ih]
    simp

theorem pending_append (n : Nat) (ls ms : List Line) :
    pending n (ls ++ ms) = pending n ls ++ pending (n + ls.length) ms := by
  induction ls generalizing n with
  | nil => rfl
  | cons l ls ih =>
    simp only [List.cons_append, pending, ih, List.append_assoc, List.length_cons]
    congr 3
    omega

theorem resolved_of_pending {T : IdTable} {n : Nat} {ls : List Line}
    (h : ∀ p ∈ pending n ls, (T.value? p.value).isSome) : ∀ l ∈ ls, l.Resolved T := by
  induction ls generalizing n with
  | nil => simp
  | cons l ls ih =>
    simp only [pending, List.mem_append, List.mem_map] at h
    intro l' hl'
    rcases List.mem_cons.mp hl' with rfl | hl'
    · intro x hx
      exact h _ (.inl ⟨x, hx, rfl⟩)
    · exact ih (fun p hp => h p (.inr hp)) l' hl'

/-! ## Both forms define and use the same -/

@[simp] theorem result?_final (T : IdTable) (l : Line) :
    (l.final T).result? = l.draft.result? := by
  cases l <;> rfl

@[simp] theorem uses_final (T : IdTable) (l : Line) : (l.final T).uses = l.draft.uses := by
  cases l with
  | plain i => rfl
  | phi type id incoming =>
    simp [draft, final, Instruction.uses, Instruction.inSlot_of, Opcode.format, Format.read,
      -List.filterMap_map, Instruction.filterMap_slot_map]

@[simp] theorem typed?_final (T : IdTable) (l : Line) : (l.final T).typed? = l.draft.typed? := by
  cases l <;> rfl

@[simp] theorem code_final (T : IdTable) (l : Line) : (l.final T).code = l.draft.code := by
  cases l <;> rfl

end Line

end Emission

end SpirvKernel
