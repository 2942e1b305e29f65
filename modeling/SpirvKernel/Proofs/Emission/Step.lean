import SpirvKernel.Proofs.Dictionary.Soundness
import SpirvKernel.Proofs.Emission.Line

/-!
# Steps of emission

What emission can do while it writes a function, one change at a time: declare, name a value by
something declared, write an instruction, or write one under the next identifier of the method. From
this follows what holds of every run: names stay, results are fresh, operands come after what they
refer to, and every named value has a definition of the type that the method gives it.
-/

namespace SpirvKernel

open Instruction

/-! ## Types of names -/

/-- The type under which a function defines a value, if it does. -/
def Value.resultType? (v : Value) : Option Ty :=
  match v.kind with
  | .constant c => some c.type
  | .alloca elem _ =>
    some (.pointer elem (if v.type.space? = some .shared then .shared else .local))
  | .store .. | .barrier | .inlineAssembly .. => none
  | _ => some v.type

/-- The names of a method that have a type in its function, with that type. -/
def Method.typings (m : Method) : List (ValueId × Ty) :=
  m.params.map (fun p => (p.value, p.type)) ++
    m.values.filterMap fun v => v.resultType?.map fun type => (v.id, type)

theorem Method.mem_typings {m : Method} {v : Value} {type : Ty} (hv : v ∈ m.values)
    (ht : v.resultType? = some type) : (v.id, type) ∈ m.typings :=
  List.mem_append_right _ (List.mem_filterMap.mpr ⟨v, hv, by rw [ht]; rfl⟩)

def Storage.typings (s : Storage) : List (ValueId × Ty) :=
  s.item.map (fun a => (a.value, .pointer a.elem .local)) ++
    (s.group ++ s.dynamicGroup).map fun a => (a.value, .pointer a.elem .shared)

def Task.typings (t : Task) : List (ValueId × Ty) := t.method.typings ++ t.storage.typings

theorem Task.mem_typings {t : Task} {v : Value} {type : Ty} (hv : v ∈ t.method.values)
    (ht : v.resultType? = some type) : (v.id, type) ∈ t.typings :=
  List.mem_append_left _ (Method.mem_typings hv ht)

/-- The words of the identifiers from `a` up to but without `b`. -/
def wordsFrom (a b : Nat) : List Word := (List.range' a (b - a)).map UInt32.ofNat

theorem wordsFrom_self (a : Nat) : wordsFrom a a = [] := by simp [wordsFrom]

theorem wordsFrom_succ (a : Nat) : wordsFrom a (a + 1) = [UInt32.ofNat a] := by simp [wordsFrom]

theorem wordsFrom_append {a b c : Nat} (hab : a ≤ b) (hbc : b ≤ c) :
    wordsFrom a b ++ wordsFrom b c = wordsFrom a c := by
  have hb : b = a + 1 * (b - a) := by omega
  have hc : c - a = b - a + (c - b) := by omega
  rw [wordsFrom, wordsFrom, wordsFrom, hc, ← List.map_append, ← List.range'_append, ← hb]

namespace Emission

/-! ## Steps -/

def nextId (s : Emission) : Id := ⟨s.work.table.range.next⟩

def taken (s : Emission) : Emission :=
  { s with work := { s.work with table := { s.work.table with
      range := { s.work.table.range with next := s.work.table.range.next + 1 } } } }

def named (s : Emission) (e : Entity) (id : Id) : Emission :=
  { s with work := { s.work with table := { s.work.table with
      entries := (e, id) :: s.work.table.entries } } }

def written (s : Emission) (l : Line) : Emission :=
  { s with work := { s.work with
      output := s.work.output.append .functions [l.draft]
      pending := s.work.pending ++ Line.pending s.work.output.functions.length [l] } }

inductive Available (t : Task) (s : Emission) (w : Word) : Prop
  | value {v : ValueId} (h : s.work.table.value? v = some w)
  | declared (h : s.dictionary.Has w)
  | written (h : w ∈ results s.work.output.functions)
  | openCl (h : w = t.frame.openCl.word)

/-- A declaration that a value of some type can stand for. -/
inductive StandsForType (d : Dictionary) (type : Ty) (id : Id) : Prop
  | constant {c : Constant} (known : d.get? (.constant c) = some id) (ht : c.type = type)
  | groupVariable {p : Id} (known : d.get? (.ofType type) = some p)
      (made : .of .variable [p.word, id.word, StorageClass.workgroup.number] ∈ d.declarations)

/-- A step, with the instructions it writes that open a function or block and all lines it writes. -/
inductive Step (t : Task) (s : Emission) : List Instruction → List Line → Emission → Prop
  | declare {d : Dictionary} (h : s.dictionary.Steps d) : Step t s [] [] { s with dictionary := d }
  | bind {v : ValueId} {type : Ty} {id : Id} (new : s.work.table.get? (.value v) = none)
      (typing : (v, type) ∈ t.typings) (stands : StandsForType s.dictionary type id) :
    Step t s [] [] (s.named (.value v) id)
  | effect {i : Instruction} (silent : i.result? = none) (inner : i.opens = false) (fits : i.Fits)
      (uses : ∀ w ∈ i.uses, Available t s w) :
    Step t s [] [.plain i] (s.written (.plain i))
  | opening {i : Instruction} (opens : i.opens = true) (fits : i.Fits)
      (uses : ∀ w ∈ i.uses, Available t s w) :
    Step t s [i] [.plain i] (s.written (.plain i))
  | compute {l : Line} (room : s.work.table.range.next < s.work.table.range.stop)
      (result : l.draft.result? = some s.nextId.word) (inner : l.draft.opens = false)
      (fits : l.draft.Fits) (uses : ∀ w ∈ l.draft.uses, Available t s w) :
    Step t s [] [l] (s.taken.written l)
  | define {l : Line} {v : ValueId} {type : Ty} {id : Id}
      (room : s.work.table.range.next < s.work.table.range.stop)
      (new : s.work.table.get? (.value v) = none) (typing : (v, type) ∈ t.typings)
      (known : s.dictionary.get? (.ofType type) = some id)
      (typed : l.draft.typed? = some (id.word, s.nextId.word)) (inner : l.draft.opens = false)
      (fits : l.draft.Fits) (uses : ∀ w ∈ l.draft.uses, Available t s w) :
    Step t s [] [l] ((s.taken.named (.value v) s.nextId).written l)

inductive Run (t : Task) (s : Emission) : List Instruction → List Line → Emission → Prop
  | refl : Run t s [] [] s
  | tail {os os₁ : List Instruction} {ls ls₁ : List Line} {s₁ s₂ : Emission}
      (run : Run t s os ls s₁) (step : Step t s₁ os₁ ls₁ s₂) :
    Run t s (os ++ os₁) (ls ++ ls₁) s₂

variable {t : Task} {s s₁ s₂ : Emission} {os os₁ : List Instruction} {ls ls₁ : List Line}

theorem Step.run (h : Step t s os ls s₁) : Run t s os ls s₁ := .tail .refl h

theorem Run.trans (h : Run t s os ls s₁) (h₁ : Run t s₁ os₁ ls₁ s₂) :
    Run t s (os ++ os₁) (ls ++ ls₁) s₂ := by
  induction h₁ with
  | refl => simpa using h
  | tail _ hs ih => simpa using ih.tail hs

/-! ## What a run keeps -/

theorem get?_named (s : Emission) (e : Entity) (id : Id) (e' : Entity) :
    (s.named e id).work.table.get? e' = if e' = e then some id else s.work.table.get? e' := by
  rw [IdTable.get?, named, List.lookup_cons, IdTable.get?]
  by_cases h : e' = e
  · simp [h]
  · simp [h, beq_eq_false_iff_ne.mpr h]

theorem within_named {e : Entity} (new : s.work.table.get? e = none) (id : Id) :
    s.work.table.Within (s.named e id).work.table := by
  intro e' x he
  rw [get?_named]
  by_cases h : e' = e
  · rw [h, new] at he; cases he
  · rw [if_neg h]; exact he

/-- The state `s₁` is `s` with the lines `ls` written and everything else kept or grown. -/
structure Advances (s : Emission) (ls : List Line) (s₁ : Emission) : Prop where
  steps : s.dictionary.Steps s₁.dictionary
  target : s₁.target = s.target
  stage : s₁.work.stage = s.work.stage
  output : s₁.work.output = s.work.output.append .functions (ls.map Line.draft)
  pending : s₁.work.pending = s.work.pending ++ Line.pending s.work.output.functions.length ls
  names : s.work.table.Within s₁.work.table
  blocks : ∀ b, s₁.work.table.get? (.block b) = s.work.table.get? (.block b)
  next : s.work.table.range.next ≤ s₁.work.table.range.next
  stop : s₁.work.table.range.stop = s.work.table.range.stop
  room : s.work.table.range.next ≤ s.work.table.range.stop →
    s₁.work.table.range.next ≤ s₁.work.table.range.stop

theorem append_functions_nil (l : Layout Instruction) : l.append .functions [] = l := by
  simp [Layout.append, Layout.set, Layout.get]

theorem append_functions_append (l : Layout Instruction) (is js : List Instruction) :
    (l.append .functions is).append .functions js = l.append .functions (is ++ js) := by
  simp [Layout.append, Layout.set, Layout.get]

theorem functions_append (l : Layout Instruction) (is : List Instruction) :
    (l.append .functions is).functions = l.functions ++ is := rfl

theorem Advances.refl (s : Emission) : Advances s [] s where
  steps := .refl _
  target := rfl
  stage := rfl
  output := (append_functions_nil _).symm
  pending := (List.append_nil _).symm
  names := .refl _
  blocks _ := rfl
  next := Nat.le_refl _
  stop := rfl
  room := id

theorem Advances.trans (h : Advances s ls s₁) (h₁ : Advances s₁ ls₁ s₂) :
    Advances s (ls ++ ls₁) s₂ where
  steps := h.steps.trans h₁.steps
  target := h₁.target.trans h.target
  stage := h₁.stage.trans h.stage
  output := by rw [h₁.output, h.output, append_functions_append, List.map_append]
  pending := by
    rw [h₁.pending, h.pending, h.output, functions_append, Line.pending_append, List.length_append,
      List.length_map, List.append_assoc]
  names := h.names.trans h₁.names
  blocks b := (h₁.blocks b).trans (h.blocks b)
  next := Nat.le_trans h.next h₁.next
  stop := h₁.stop.trans h.stop
  room hr := h₁.room (h.room hr)

theorem Step.advances (h : Step t s os ls s₁) : Advances s ls s₁ := by
  cases h with
  | declare h => exact { Advances.refl s with steps := h }
  | bind new =>
    refine { Advances.refl s with names := within_named new _, blocks := fun b => ?_ }
    rw [get?_named, if_neg nofun]
  | effect | opening =>
    exact { Advances.refl s with output := rfl, pending := rfl }
  | compute room =>
    exact { Advances.refl s with
      output := rfl, pending := rfl, next := Nat.le_succ _, room := fun _ => room }
  | @define l v type id room new =>
    refine { Advances.refl s with
      output := rfl, pending := rfl, next := Nat.le_succ _, room := fun _ => room,
      names := within_named new s.nextId, blocks := fun b => ?_ }
    have := get?_named s (.value v) s.nextId (.block b)
    rwa [if_neg nofun] at this

theorem Run.advances (h : Run t s os ls s₁) : Advances s ls s₁ := by
  induction h with
  | refl => exact .refl s
  | tail _ hs ih => exact ih.trans hs.advances

/-! ## The results of a run -/

theorem Run.fits (h : Run t s os ls s₁) : ∀ l ∈ ls, l.draft.Fits := by
  induction h with
  | refl => simp
  | tail _ hs ih =>
    intro l hl
    rcases List.mem_append.mp hl with hl | hl
    · exact ih l hl
    · cases hs with
      | declare | bind => cases hl
      | effect _ _ fits | opening _ fits | compute _ _ _ fits | define _ _ _ _ _ _ fits =>
        rw [List.mem_singleton.mp hl]; exact fits

theorem Run.opens (h : Run t s os ls s₁) : (ls.map Line.draft).filter opens = os := by
  induction h with
  | refl => rfl
  | tail _ hs ih =>
    rw [List.map_append, List.filter_append, ih]
    congr 1
    cases hs with
    | declare | bind => rfl
    | opening opens => simp [Line.draft, opens]
    | effect _ inner | compute _ _ inner | define _ _ _ _ _ inner => simp_all [Line.draft]

/-- The results are those of functions and blocks, and the identifiers that the run took. -/
theorem Run.results (h : Run t s os ls s₁) :
    (results (ls.map Line.draft)).Perm
      (results os ++ wordsFrom s.work.table.range.next s₁.work.table.range.next) := by
  induction h with
  | refl => simp [wordsFrom_self]
  | @tail os os₁ ls ls₁ s₁ s₂ run hs ih =>
    have hstep : (Instruction.results (ls₁.map Line.draft)).Perm (Instruction.results os₁ ++
        wordsFrom s₁.work.table.range.next s₂.work.table.range.next) := by
      cases hs with
      | declare | bind => simp [wordsFrom_self, named]
      | effect silent => simp [wordsFrom_self, written, Line.draft, silent]
      | opening => simp [wordsFrom_self, written, Line.draft]
      | compute _ result => simp [wordsFrom_succ, written, taken, result, nextId, Id.word]
      | define _ _ _ _ typed =>
        simp [wordsFrom_succ, written, named, taken, result?_of_typed? typed, nextId, Id.word]
    -- The openings of both parts move to the front, past what the first part took.
    rw [List.map_append, results_append, results_append,
      ← wordsFrom_append run.advances.next hs.advances.next]
    refine (ih.append hstep).trans ?_
    simp only [List.append_assoc]
    refine List.Perm.append_left _ ?_
    rw [← List.append_assoc, ← List.append_assoc]
    exact List.perm_append_comm.append_right _

/-! ## Definitions come first -/

/-- A value is defined as `id`, by an instruction of the type that the method gives the value. -/
def Defined (t : Task) (s : Emission) (v : ValueId) (id : Id) : Prop :=
  ∃ type p, (v, type) ∈ t.typings ∧ s.dictionary.get? (.ofType type) = some p ∧
    ∃ i ∈ s.dictionary.declarations ++ s.work.output.functions, i.typed? = some (p.word, id.word)

structure Sound (t : Task) (s : Emission) : Prop where
  dictionary : s.dictionary.Sound
  values : ∀ v id, s.work.table.get? (.value v) = some id → Defined t s v id
  ordered : Scoped (t.frame.openCl.word :: results s.dictionary.declarations)
    s.work.output.functions

theorem Defined.mono {v : ValueId} {id : Id} (h : Defined t s v id)
    (hsteps : s.dictionary.Steps s₁.dictionary)
    (hfunctions : s.work.output.functions ⊆ s₁.work.output.functions) : Defined t s₁ v id := by
  obtain ⟨type, p, htype, hp, i, hi, htyped⟩ := h
  obtain ⟨is, ids, ascends⟩ := hsteps.ascends
  refine ⟨type, p, htype, hsteps.get? hp, i, ?_, htyped⟩
  rw [ascends.declarations]
  simp only [List.mem_append] at hi ⊢
  rcases hi with hi | hi
  · exact .inl (.inl hi)
  · exact .inr (hfunctions hi)

theorem Defined.mem_results {v : ValueId} {id : Id} (h : Defined t s v id) :
    id.word ∈ Instruction.results s.dictionary.declarations ++
      Instruction.results s.work.output.functions := by
  obtain ⟨_, _, _, _, i, hi, htyped⟩ := h
  rw [← results_append]
  exact Instruction.mem_results.mpr ⟨i, hi, result?_of_typed? htyped⟩

theorem Sound.mem_of_available (hs : Sound t s) {w : Word} (h : Available t s w) :
    w ∈ (t.frame.openCl.word :: Instruction.results s.dictionary.declarations) ++
      Instruction.results s.work.output.functions := by
  rw [List.cons_append, List.mem_cons]
  cases h with
  | @value v h =>
    obtain ⟨id, hid, rfl⟩ := Option.map_eq_some_iff.mp h
    exact .inr (hs.values v id hid).mem_results
  | declared h => exact .inr (List.mem_append_left _ (hs.dictionary.mem_of_has h))
  | written h => exact .inr (List.mem_append_right _ h)
  | openCl h => exact .inl h

theorem Sound.declare {d : Dictionary} (hs : Sound t s) (h : s.dictionary.Steps d) :
    Sound t { s with dictionary := d } where
  dictionary := h.sound hs.dictionary
  values v id hv := (hs.values v id hv).mono h (List.Subset.refl _)
  ordered := hs.ordered.mono fun w hw => by
    rcases List.mem_cons.mp hw with rfl | hw
    · exact List.mem_cons_self
    · exact List.mem_cons_of_mem _ (h.results_subset hw)

theorem Sound.ordered_written {l : Line} (hs : Sound t s)
    (uses : ∀ w ∈ l.draft.uses, Available t s w) :
    Scoped (t.frame.openCl.word :: Instruction.results s.dictionary.declarations)
      (s.work.output.functions ++ [l.draft]) := by
  rw [scoped_append]
  exact ⟨hs.ordered, fun w hw => hs.mem_of_available (uses w hw), trivial⟩

theorem StandsForType.defined {v : ValueId} {type : Ty} {id : Id} (h : StandsForType s.dictionary type id)
    (hd : s.dictionary.Sound) (typing : (v, type) ∈ t.typings) : Defined t s v id := by
  cases h with
  | @constant c known ht =>
    obtain ⟨i, hi, hmade⟩ := hd.filed _ id known
    obtain ⟨p, hp, hmade⟩ := Option.bind_eq_some_iff.mp hmade
    refine ⟨type, p, typing, ht ▸ hp, i, List.mem_append_left _ hi, ?_⟩
    obtain rfl := Option.some.inj hmade
    refine typed?_of ?_ _ _ _
    cases c with
    | bool b => cases b <;> rfl
    | int | float | null => rfl
  | @groupVariable p known made =>
    exact ⟨type, p, typing, known, _, List.mem_append_left _ made, typed?_of rfl _ _ _⟩

theorem Step.sound (h : Step t s os ls s₁) (hs : Sound t s) : Sound t s₁ := by
  cases h with
  | declare h => exact hs.declare h
  | @bind v type id new typing stands =>
    refine ⟨hs.dictionary, fun u x hu => ?_, hs.ordered⟩
    rw [get?_named] at hu
    split at hu
    · rename_i he
      cases he
      cases hu
      exact (stands.defined hs.dictionary typing).mono (.refl _) (List.Subset.refl _)
    · exact (hs.values u x hu).mono (.refl _) (List.Subset.refl _)
  | effect _ _ _ uses | opening _ _ uses | compute _ _ _ _ uses =>
    refine ⟨hs.dictionary, fun u x hu => ?_, hs.ordered_written uses⟩
    exact (hs.values u x hu).mono (.refl _) (List.subset_append_left _ _)
  | @define l v type id room new typing known typed inner fits uses =>
    refine ⟨hs.dictionary, fun u x hu => ?_, hs.ordered_written uses⟩
    have hu' : (s.named (.value v) s.nextId).work.table.get? (.value u) = some x := hu
    rw [get?_named] at hu'
    split at hu'
    · rename_i he
      cases he
      cases hu'
      refine ⟨type, id, typing, known, l.draft, ?_, typed⟩
      exact List.mem_append_right _ (List.mem_append_right _ (List.mem_singleton.mpr rfl))
    · exact (hs.values u x hu').mono (.refl _) (List.subset_append_left _ _)

/-- Every run keeps names defined and operands after what they refer to. -/
theorem Run.sound (h : Run t s os ls s₁) (hs : Sound t s) : Sound t s₁ := by
  induction h with
  | refl => exact hs
  | tail _ step ih => exact step.sound ih

end Emission

end SpirvKernel
