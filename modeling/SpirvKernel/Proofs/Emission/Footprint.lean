import SpirvKernel.Proofs.Dictionary.Variables
import SpirvKernel.Proofs.Emission.Line
import SpirvKernel.Proofs.Emission.Requests

/-!
# What emission leaves alone

Emission of a part of a function is put together from declarations, additions to the names of the
method and edits of its output. So whether it succeeds or fails it only adds to the dictionary and to
the names of the method, takes identifiers from the range of the method, and changes neither the
module nor the stage of the work. Only storage declares group variables.
-/

namespace SpirvKernel

open Attempt

namespace IdTable

structure Grows (t u : IdTable) : Prop where
  names : t.Within u
  next : t.range.next ≤ u.range.next
  stop : u.range.stop = t.range.stop

theorem Grows.refl (t : IdTable) : Grows t t := ⟨.refl t, Nat.le_refl _, rfl⟩

theorem Grows.trans (t u v : IdTable) (h : Grows t u) (h' : Grows u v) : Grows t v where
  names := h.names.trans h'.names
  next := Nat.le_trans h.next h'.next
  stop := h'.stop.trans h.stop

theorem load_grows (e : Entity) : Respects Grows (load e) :=
  respects_bind Grows.trans (respects_state Grows.refl) fun _ => respects_require Grows.refl _ _

theorem fresh_grows : Respects Grows fresh := by
  intro t
  rw [fresh, onPart_apply]
  unfold IdRange.take
  split
  · exact ⟨.refl t, Nat.le_succ _, rfl⟩
  · exact .refl t

theorem bind_grows (e : Entity) (id : Id) : Respects Grows (IdTable.bind e id) := by
  intro t
  cases h : IdTable.bind e id t with
  | mk r u =>
    cases r with
    | ok =>
      refine ⟨fun e' id' he => ?_, ?_, ?_⟩
      · rw [get?_of_bind h]
        split
        · rename_i heq
          simp [IdTable.bind, ← heq, he] at h
        · exact he
      all_goals
        unfold IdTable.bind at h
        split at h <;> simp at h
        rw [← h]
    | error =>
      unfold IdTable.bind at h
      split at h <;> simp at h
      rw [← h.2]
      exact .refl t

theorem allocate_grows (e : Entity) : Respects Grows (allocate e) := by
  refine respects_bind Grows.trans (respects_state Grows.refl) fun t => ?_
  split
  · exact respects_fail Grows.refl _
  · refine respects_bind Grows.trans fresh_grows fun id => ?_
    exact respects_bind Grows.trans (bind_grows e id) fun _ => respects_pure Grows.refl id

end IdTable

namespace Layout

/-- The layout without names for the debugger. -/
def bare (l : Layout Instruction) : Layout Instruction := l.set .debug []

theorem get_bare (l : Layout Instruction) (sec : Section) :
    l.bare.get sec = if sec = .debug then [] else l.get sec := get_set l .debug sec []

theorem bare_append {sec : Section} (other : sec ≠ .debug) (l : Layout Instruction)
    (is : List Instruction) : (l.append sec is).bare = l.bare.append sec is := by
  ext1 sec'
  by_cases h : sec' = .debug
  · simp [get_bare, h, other.symm]
  · simp [get_bare, h]

end Layout

def Work.erased (w : Work) : Work := { w with output := w.output.bare }

namespace Emission

/-- The state without names for the debugger. -/
def erased (s : Emission) : Emission := { s with target := s.target.bare, work := s.work.erased }

/-! ## How attempts are put together -/

/-- An attempt with declarations of the kind `D`, and without a look at names for the debugger. -/
inductive Made (D : (α : Type) → Declare α → Prop) : {α : Type} → Emit α → Prop
  | pure {α : Type} (a : α) : Made D (Pure.pure a)
  | fail {α : Type} (e : Fault) : Made D (Attempt.fail e : Emit α)
  | bind {α β : Type} {x : Emit α} {f : α → Emit β} (first : Made D x) (rest : ∀ a, Made D (f a)) :
    Made D (x >>= f)
  | look {α : Type} {f : Emission → Emit α} (rest : ∀ s, Made D (f s))
      (blind : ∀ s, f s.erased = f s) : Made D (state >>= f)
  | declare {α : Type} {x : Declare α} (kind : D α x) : Made D (Emission.declare x)
  | onTable {α : Type} {x : Attempt Fault IdTable α} (grows : Respects IdTable.Grows x) :
    Made D (Emission.onTable x)
  | edit {f : Work → Work} (table : ∀ w, (f w).table = w.table) (stage : ∀ w, (f w).stage = w.stage)
      (blind : ∀ w, f w.erased = (f w).erased) : Made D (onWork (change f))

section

variable {D : (α : Type) → Declare α → Prop} {α β : Type}

theorem Made.map {x : Emit α} (hx : Made D x) (f : α → β) : Made D (f <$> x) := by
  rw [← bind_pure_comp]
  exact hx.bind fun a => .pure (f a)

theorem made_ofExcept (x : Except Fault α) : Made D (ofExcept x) := by
  cases x with
  | error e => exact .fail e
  | ok a => exact .pure a

theorem made_require (e : Fault) (o : Option α) : Made D (require e o) := by
  cases o with
  | none => exact .fail e
  | some a => exact .pure a

theorem made_ofExcept_bind {x : Except Fault α} {f : α → Emit β}
    (rest : ∀ a, x = .ok a → Made D (f a)) : Made D (ofExcept x >>= f) := by
  cases x with
  | error e => exact .fail e
  | ok a => exact rest a rfl

theorem made_mapM {f : β → Emit α} (hf : ∀ b, Made D (f b)) (bs : List β) : Made D (bs.mapM f) := by
  induction bs with
  | nil => exact .pure []
  | cons b bs ih =>
    rw [List.mapM_cons]
    exact (hf b).bind fun a => ih.bind fun as => .pure (a :: as)

theorem made_forM_of_mem {f : β → Emit Unit} {bs : List β} (hf : ∀ b ∈ bs, Made D (f b)) :
    Made D (bs.forM f) := by
  induction bs with
  | nil => exact .pure ()
  | cons b bs ih =>
    exact (hf b List.mem_cons_self).bind fun _ => ih fun c hc => hf c (List.mem_cons_of_mem b hc)

theorem made_forM {f : β → Emit Unit} (hf : ∀ b, Made D (f b)) (bs : List β) : Made D (bs.forM f) :=
  made_forM_of_mem fun b _ => hf b

/-! ## Primitives -/

theorem made_emitTo {sec : Section} (other : sec ≠ .debug) (op : Opcode) (ws : List Word) :
    Made D (emitTo sec op ws) := by
  unfold emitTo
  dsimp only
  split
  · refine .edit (fun _ => rfl) (fun _ => rfl) fun w => ?_
    simp only [Work.erased, Layout.bare_append other]
  · exact .fail _

theorem made_emit (op : Opcode) (ws : List Word) : Made D (emit op ws) := by
  apply made_emitTo
  simp

theorem made_fresh : Made D fresh := (Made.onTable IdTable.fresh_grows).map _

theorem made_operand (v : ValueId) : Made D (operand v) := (Made.onTable (IdTable.load_grows _)).map _

theorem made_label (b : BlockId) : Made D (label b) := (Made.onTable (IdTable.load_grows _)).map _

theorem made_typeOf (t : Task) (v : ValueId) : Made D (typeOf t v) := made_require _ _

theorem made_typeOf_bind {t : Task} {v : ValueId} {f : Ty → Emit α}
    (rest : ∀ type, t.method.typeOf? v = some type → Made D (f type)) : Made D (typeOf t v >>= f) := by
  unfold typeOf
  cases h : t.method.typeOf? v with
  | none => exact .fail _
  | some type => exact rest type h

end

/-! ## Values

A value declares no more than what it asks for. -/

section

variable {D : (α : Type) → Declare α → Prop}

theorem made_typeWord {t : Ty} (asked : D Id (Dictionary.perform (.type t))) : Made D (typeWord t) :=
  (Made.declare asked).map _

theorem made_constantWord {c : Constant} (asked : D Id (Dictionary.perform (.constant c))) :
    Made D (constantWord c) := (Made.declare asked).map _

theorem made_result {v : Value} (asked : D Id (Dictionary.perform (.type v.type))) :
    Made D (result v) := by
  refine (made_typeWord asked).bind fun type => ?_
  exact (Made.onTable (IdTable.allocate_grows _)).bind fun id => .pure _

theorem made_emitResult {v : Value} (asked : D Id (Dictionary.perform (.type v.type))) (op : Opcode)
    (ws : List Word) : Made D (emitResult v op ws) :=
  (made_result asked).bind fun _ => made_emit _ _

theorem made_unitWord {t : Ty} {one : Bool}
    (asked : ∀ r ∈ unitRequests t one, D Id (Dictionary.perform r)) : Made D (unitWord t one) := by
  refine made_ofExcept_bind fun c hc => made_constantWord (asked _ ?_)
  simp [unitRequests, hc]

theorem made_emitConversion {t : Task} {v : Value} {source : ValueId} {flags : ConvertFlags}
    (asked : ∀ r ∈ conversionRequests t.method v source flags, D Id (Dictionary.perform r)) :
    Made D (emitConversion t v source flags) := by
  refine made_typeOf_bind fun type htype => made_ofExcept_bind fun conversion hconversion => ?_
  refine (made_operand source).bind fun x => ?_
  simp only [conversionRequests, htype, hconversion] at asked
  cases conversion with
  | direct op => exact made_emitResult (asked _ List.mem_cons_self) _ _
  | fromBool =>
    simp only [List.forall_mem_append] at asked
    refine (made_unitWord asked.1).bind fun one => (made_unitWord asked.2.1).bind fun zero => ?_
    exact made_emitResult (asked.2.2 _ List.mem_cons_self) _ _
  | toBool op =>
    simp only [List.forall_mem_append] at asked
    refine (made_unitWord asked.1).bind fun zero => ?_
    exact made_emitResult (asked.2 _ List.mem_cons_self) _ _

theorem made_emitCall (t : Task) {v : Value} (asked : D Id (Dictionary.perform (.type v.type)))
    (callee : Callee) (args : List ValueId) (flags : ArithmeticFlags) :
    Made D (emitCall t v callee args flags) := by
  refine (made_mapM made_operand args).bind fun xs => ?_
  cases callee with
  | method m => exact (made_ofExcept _).bind fun f => made_emitResult asked _ _
  | intrinsic f =>
    cases args with
    | nil => exact .fail _
    | cons first rest =>
      refine (made_typeOf t first).bind fun type => ?_
      refine (made_ofExcept _).bind fun form => ?_
      cases form with
      | core op => exact made_emitResult asked _ _
      | extended number => exact made_emitResult asked _ _

theorem made_phiOperands (t : Task) (start : Nat) (incoming : List (ValueId × BlockId)) :
    Made D (phiOperands t start incoming) := by
  induction incoming generalizing start with
  | nil => exact .pure _
  | cons x incoming ih =>
    refine (made_typeOf t x.1).bind fun _ => ?_
    refine .look (fun s => ?_) fun _ => rfl
    refine (made_label x.2).bind fun block => ?_
    refine (ih (start + 2)).bind fun r => ?_
    dsimp only
    split <;> exact .pure _

theorem made_emitPhi (t : Task) {v : Value} (asked : D Id (Dictionary.perform (.type v.type)))
    (incoming : List (ValueId × BlockId)) : Made D (emitPhi t v incoming) := by
  refine (made_result asked).bind fun r => ?_
  refine (made_phiOperands t 2 incoming).bind fun q => ?_
  refine .look (fun s => ?_) fun _ => rfl
  refine (made_emit _ _).bind fun _ => ?_
  exact .edit (fun _ => rfl) (fun _ => rfl) fun _ => rfl

theorem made_emitGridIndex {v : Value} {builtin : GridBuiltin} {dimension : UInt8}
    (asked : ∀ r ∈ [.builtin builtin.variable, .type BuiltIn.type, .type .i64, .type v.type],
      D Id (Dictionary.perform r)) : Made D (emitGridIndex v builtin dimension) := by
  simp only [List.forall_mem_cons] at asked
  obtain ⟨hbuiltin, hvector, hwide, hresult, -⟩ := asked
  unfold emitGridIndex
  split
  · exact .fail _
  · split
    · refine Made.bind (.declare hbuiltin) fun var => ?_
      refine (made_typeWord hvector).bind fun vector => ?_
      refine (made_typeWord hwide).bind fun wide => ?_
      refine made_fresh.bind fun loaded => ?_
      refine (made_emit _ _).bind fun _ => ?_
      split
      · exact made_emitResult hresult _ _
      · refine made_fresh.bind fun extracted => ?_
        exact (made_emit _ _).bind fun _ => made_emitResult hresult _ _
    · exact .fail _

theorem made_emitBarrier
    (asked : ∀ r ∈ [.constant (.ofWord workgroupScope), .constant (.ofWord barrierSemantics)],
      D Id (Dictionary.perform r)) : Made D emitBarrier := by
  simp only [List.forall_mem_cons] at asked
  refine (made_constantWord asked.1).bind fun scope => ?_
  exact (made_constantWord asked.2.1).bind fun semantics => made_emit _ _

theorem made_emitValue {t : Task} {v : Value}
    (asked : ∀ r ∈ valueRequests t.method v, D Id (Dictionary.perform r)) : Made D (emitValue t v) := by
  have result (h : valueRequests t.method v = [.type v.type]) :
      D Id (Dictionary.perform (.type v.type)) := asked _ (h ▸ List.mem_cons_self)
  unfold emitValue
  cases hkind : v.kind with
  | constant c =>
    refine Made.bind (.declare (asked (.constant c) ?_)) fun id => ?_
    · simp [valueRequests, hkind]
    · exact .onTable (IdTable.bind_grows _ _)
  | undef => exact made_emitResult (result (by simp [valueRequests, hkind])) _ _
  | binary op lhs rhs flags =>
    refine (made_ofExcept _).bind fun op => (made_operand _).bind fun x => ?_
    refine (made_operand _).bind fun y => ?_
    exact made_emitResult (result (by simp [valueRequests, hkind])) _ _
  | unary op source =>
    refine (made_ofExcept _).bind fun op => (made_operand _).bind fun x => ?_
    exact made_emitResult (result (by simp [valueRequests, hkind])) _ _
  | compare op lhs rhs flags =>
    refine (made_typeOf t _).bind fun type => (made_ofExcept _).bind fun op => ?_
    refine (made_operand _).bind fun x => (made_operand _).bind fun y => ?_
    exact made_emitResult (result (by simp [valueRequests, hkind])) _ _
  | convert source flags =>
    rw [valueRequests, hkind] at asked
    exact made_emitConversion asked
  | select cond thenValue elseValue =>
    refine (made_operand _).bind fun c => (made_operand _).bind fun x => ?_
    refine (made_operand _).bind fun y => ?_
    exact made_emitResult (result (by simp [valueRequests, hkind])) _ _
  | alloca elem extent =>
    dsimp only
    split
    · exact .pure _
    · exact .fail _
  | load address =>
    refine (made_operand _).bind fun p => ?_
    exact made_emitResult (result (by simp [valueRequests, hkind])) _ _
  | store address source =>
    exact (made_operand _).bind fun p => (made_operand _).bind fun x => made_emit _ _
  | elementAddress base index =>
    refine (made_operand _).bind fun p => (made_operand _).bind fun i => ?_
    exact made_emitResult (result (by simp [valueRequests, hkind])) _ _
  | fieldAddress base field =>
    simp only [valueRequests, hkind, List.forall_mem_cons] at asked
    refine (made_operand _).bind fun p => (made_constantWord asked.1).bind fun i => ?_
    exact made_emitResult asked.2.1 _ _
  | extractField aggregate field =>
    refine (made_operand _).bind fun x => ?_
    exact made_emitResult (result (by simp [valueRequests, hkind])) _ _
  | call callee args flags => exact made_emitCall t (result (by simp [valueRequests, hkind])) _ _ _
  | phi incoming => exact made_emitPhi t (result (by simp [valueRequests, hkind])) _
  | gridIndex builtin dimension =>
    rw [valueRequests, hkind] at asked
    exact made_emitGridIndex asked
  | barrier =>
    rw [valueRequests, hkind] at asked
    exact made_emitBarrier asked
  | inlineAssembly => exact .fail _

end

/-! ## Storage, terminators and blocks -/

section

variable {D : (α : Type) → Declare α → Prop}
  (keyed : ∀ r : Dictionary.Request, r.key?.isSome → D Id (Dictionary.perform r))
include keyed

theorem made_placeItem (t : Task) (a : Allocation) : Made D (placeItem t a) := by
  refine (made_typeOf t a.value).bind fun type => ?_
  refine (made_ofExcept _).bind fun _ => (made_ofExcept _).bind fun held => ?_
  refine Made.bind (.declare (keyed (.pointer _ _) rfl)) fun pointer => ?_
  split
  · refine Made.bind (.onTable IdTable.fresh_grows) fun id => ?_
    exact (made_emit _ _).bind fun _ => .pure _
  · refine Made.bind (.onTable (IdTable.allocate_grows _)) fun id => ?_
    exact (made_emit _ _).bind fun _ => .pure _

omit keyed in
theorem made_placeGroup (any : ∀ r, D Id (Dictionary.perform r)) (a : Allocation) :
    Made D (placeGroup a) := by
  refine Made.bind (.declare (any (.groupVariable _ _))) fun id => ?_
  split
  · exact .pure _
  · exact Made.bind (.onTable (IdTable.bind_grows _ _)) fun _ => .pure _

theorem made_emitCast (c : Cast) : Made D (emitCast c) := by
  refine Made.bind (.declare (keyed (.pointer _ _) rfl)) fun type => ?_
  exact Made.bind (.onTable (IdTable.allocate_grows _)) fun id => made_emit _ _

omit keyed in
theorem made_emitStorage (any : ∀ r, D Id (Dictionary.perform r)) (t : Task) :
    Made D (emitStorage t) := by
  have keyed : ∀ r : Dictionary.Request, r.key?.isSome → D Id (Dictionary.perform r) := fun r _ => any r
  refine (made_mapM (made_placeItem keyed t) _).bind fun items => ?_
  refine (made_mapM (made_placeGroup any) _).bind fun groups => ?_
  exact made_forM (made_emitCast keyed) _

omit keyed in
theorem made_switchCases (width : IntWidth) (cases : List (UInt64 × BlockId)) :
    Made D (switchCases width cases) := by
  induction cases with
  | nil => exact .pure _
  | cons c cases ih => exact (made_label _).bind fun block => ih.bind fun rest => .pure _

omit keyed in
theorem made_emitTerminator (t : Task) (x : Terminator) : Made D (emitTerminator t x) := by
  unfold emitTerminator
  split
  · exact made_emit _ _
  · exact (made_operand _).bind fun x => made_emit _ _
  · exact (made_label _).bind fun block => made_emit _ _
  · refine (made_operand _).bind fun c => (made_label _).bind fun yes => ?_
    exact (made_label _).bind fun no => made_emit _ _
  · refine (made_typeOf t _).bind fun type => ?_
    split
    · refine (made_operand _).bind fun x => (made_label _).bind fun block => ?_
      exact (made_switchCases _ _).bind fun rest => made_emit _ _
    · exact .fail _
  · exact made_emit _ _

omit keyed in
theorem made_emitBlock {t : Task} {first : Emit Unit} (hfirst : Made D first) {b : Block}
    (asked : ∀ v ∈ b.body, ∀ r ∈ valueRequests t.method v, D Id (Dictionary.perform r)) :
    Made D (emitBlock t first b) := by
  refine (made_label _).bind fun id => (made_emit _ _).bind fun _ => ?_
  have values := made_forM_of_mem fun v hv => made_emitValue (t := t) (asked v hv)
  exact hfirst.bind fun _ => values.bind fun _ => made_emitTerminator t _

omit keyed in
theorem made_emitBlocks {t : Task} {bs : List Block}
    (asked : ∀ b ∈ bs, ∀ v ∈ b.body, ∀ r ∈ valueRequests t.method v, D Id (Dictionary.perform r)) :
    Made D (bs.forM (emitBlock t (pure ()))) :=
  made_forM_of_mem fun b hb => made_emitBlock (.pure ()) (asked b hb)

omit keyed in
theorem made_allocateLabel (b : Block) : Made D (allocateLabel b) :=
  Made.bind (.onTable (IdTable.allocate_grows _)) fun _ => .pure _

omit keyed in
theorem made_resolve (p : Pending) : Made D (resolve p) := by
  refine (made_operand _).bind fun x => ?_
  exact .edit (fun _ => rfl) (fun _ => rfl) fun _ => rfl

omit keyed in
theorem made_resolveAll : Made D resolveAll := by
  refine .look (fun s => ?_) fun _ => rfl
  refine Made.bind ?_ fun _ => made_forM made_resolve _
  exact .edit (fun _ => rfl) (fun _ => rfl) fun _ => rfl

/-! ## Headers -/

omit keyed in
theorem made_expect (call : Call) : Made D (expect call) := by
  refine .look (fun s => ?_) fun _ => rfl
  split
  · exact .pure ()
  · exact .fail _

omit keyed in
theorem made_checkResult (t : Task) : Made D (checkResult t) := by
  unfold checkResult
  split
  · exact .fail _
  · exact .pure ()

omit keyed in
theorem made_emitGroupSize (t : Task) : Made D (emitGroupSize t) := by
  unfold emitGroupSize
  split
  · apply made_emitTo
    simp
  · exact .pure ()

theorem made_emitParam (p : Param) : Made D (emitParam p) := by
  refine (made_typeWord (keyed (.type _) rfl)).bind fun type => ?_
  exact Made.bind (.onTable (IdTable.allocate_grows _)) fun id => made_emit _ _

end

/-! ## What is kept -/

structure Keeps (s s' : Emission) : Prop where
  steps : s.dictionary.Steps s'.dictionary
  target : s'.target = s.target
  stage : s'.work.stage = s.work.stage
  table : s.work.table.Grows s'.work.table

theorem Keeps.refl (s : Emission) : Keeps s s := ⟨.refl _, rfl, rfl, .refl _⟩

theorem Keeps.trans (s s₁ s' : Emission) (h : Keeps s s₁) (h₁ : Keeps s₁ s') : Keeps s s' where
  steps := h.steps.trans h₁.steps
  target := h₁.target.trans h.target
  stage := h₁.stage.trans h.stage
  table := h.table.trans _ _ _ h₁.table

/-- However a run of `x` ends, it keeps what emission is to keep. -/
def Keeping {α : Type} (x : Emit α) : Prop := Respects Keeps x

/-- Declarations that only add to the dictionary. -/
def Growing (α : Type) (x : Declare α) : Prop := Respects Dictionary.Steps x

theorem growing_perform (r : Dictionary.Request) : Growing Id (Dictionary.perform r) :=
  Dictionary.perform_steps r

theorem growing_keyed (r : Dictionary.Request) (_ : r.key?.isSome) : Growing Id (Dictionary.perform r) :=
  growing_perform r

theorem Made.keeping {α : Type} {x : Emit α} (h : Made Growing x) : Keeping x := by
  induction h with
  | pure a => exact respects_pure Keeps.refl a
  | fail e => exact respects_fail Keeps.refl e
  | bind _ _ first rest => exact respects_bind Keeps.trans first rest
  | look _ _ rest => exact respects_bind Keeps.trans (respects_state Keeps.refl) rest
  | declare grows =>
    intro s
    exact ⟨grows s.dictionary, rfl, rfl, .refl _⟩
  | onTable grows =>
    intro s
    exact ⟨.refl _, rfl, rfl, grows s.work.table⟩
  | edit table stage =>
    intro s
    refine ⟨.refl _, rfl, stage s.work, ?_⟩
    rw [onWork, onPart_apply, change_apply, table]
    exact .refl _

theorem keeping_emitParams (ps : List Param) : Keeping (ps.forM emitParam) :=
  (made_forM (made_emitParam growing_keyed) ps).keeping

theorem keeping_emitName (t : Task) : Keeping (emitName t) := by
  intro s
  unfold emitName emitTo
  split
  · dsimp only
    split <;> exact ⟨.refl _, rfl, rfl, .refl _⟩
  · exact .refl s

end Emission

/-! ## Relations between dictionaries -/

/-- A relation between dictionaries that every request under a key keeps. -/
structure Dictionary.Kept (R : Dictionary → Dictionary → Prop) : Prop where
  refl : ∀ d, R d d
  trans : ∀ d d₁ d₂, R d d₁ → R d₁ d₂ → R d d₂
  keyed : ∀ r : Request, r.key?.isSome → Respects R (perform r)

theorem Dictionary.kept_steps : Kept Steps :=
  ⟨Steps.refl, fun _ _ _ => Steps.trans, fun r _ => perform_steps r⟩

theorem Dictionary.kept_sameGroups : Kept SameGroups := by
  refine ⟨sameGroups_refl, sameGroups_trans, fun r h => ?_⟩
  obtain ⟨key, hkey⟩ := Option.isSome_iff_exists.mp h
  exact perform_sameGroups hkey

namespace Emission

def OnDictionary (R : Dictionary → Dictionary → Prop) (s s' : Emission) : Prop :=
  R s.dictionary s'.dictionary

section

variable {R : Dictionary → Dictionary → Prop} (hr : ∀ d, R d d)
  (ht : ∀ d d₁ d₂, R d d₁ → R d₁ d₂ → R d d₂)
include ht

theorem OnDictionary.trans (s s₁ s₂ : Emission) (h : OnDictionary R s s₁) (h₁ : OnDictionary R s₁ s₂) :
    OnDictionary R s s₂ :=
  ht s.dictionary s₁.dictionary s₂.dictionary h h₁

include hr

theorem Made.onDictionary {α : Type} {x : Emit α} (h : Made (fun _ x => Respects R x) x) :
    Respects (OnDictionary R) x := by
  have refl' : ∀ s, OnDictionary R s s := fun s => hr s.dictionary
  have trans' := OnDictionary.trans ht
  induction h with
  | pure a => exact respects_pure refl' a
  | fail e => exact respects_fail refl' e
  | bind _ _ first rest => exact respects_bind trans' first rest
  | look _ _ rest => exact respects_bind trans' (respects_state refl') rest
  | declare keeps => exact fun s => keeps s.dictionary
  | onTable | edit => exact fun s => hr s.dictionary

theorem Made.onDictionary_bind {α β : Type} {x : Emit α} {f : α → Emit β}
    (hx : Made (fun _ x => Respects R x) x) (hf : ∀ a, Respects (OnDictionary R) (f a)) :
    Respects (OnDictionary R) (x >>= f) :=
  respects_bind (OnDictionary.trans ht) (hx.onDictionary hr ht) hf

/-- What the storage and the requests of the values keep, the body keeps. -/
theorem body_onDictionary {t : Task} (storage : Made (fun _ x => Respects R x) (emitStorage t))
    (asked : ∀ v ∈ t.method.values, ∀ r ∈ valueRequests t.method v,
      Respects R (Dictionary.perform r)) : Respects (OnDictionary R) (body t) := by
  have asked' : ∀ b ∈ t.method.blocks, ∀ v ∈ b.body, ∀ r ∈ valueRequests t.method v,
      Respects R (Dictionary.perform r) :=
    fun b hb v hv => asked v (List.mem_flatMap.mpr ⟨b, hb, hv⟩)
  refine (made_expect _).onDictionary_bind hr ht fun _ => ?_
  cases hblocks : t.method.blocks with
  | nil => exact fun s => hr s.dictionary
  | cons entry blocks =>
    rw [hblocks, List.forall_mem_cons] at asked'
    refine (made_forM made_allocateLabel _).onDictionary_bind hr ht fun _ => ?_
    refine (made_emitBlock storage asked'.1).onDictionary_bind hr ht fun _ => ?_
    refine (made_emitBlocks asked'.2).onDictionary_bind hr ht fun _ => ?_
    refine made_resolveAll.onDictionary_bind hr ht fun _ => ?_
    refine (made_emit _ _).onDictionary_bind hr ht fun _ => ?_
    exact fun s => hr s.dictionary

end

section

variable {R : Dictionary → Dictionary → Prop} (hR : Dictionary.Kept R)
include hR

theorem predeclareValue_respects (v : Value) : Respects R (predeclareValue v) := by
  have nothing : Respects R (pure () : Declare Unit) := respects_pure hR.refl ()
  unfold predeclareValue
  split
  · exact nothing
  · split
    · exact nothing
    · refine respects_tolerate ?_
      split
      · exact hR.keyed (.constant _) rfl
      · exact hR.keyed (.type _) rfl

theorem predeclare_respects (m : Method) : Respects R (predeclare m) :=
  respects_forM hR.refl hR.trans (predeclareValue_respects hR) m.values

theorem header_onDictionary (t : Task) : Respects (OnDictionary R) (header t) := by
  have predeclared := predeclare_respects hR t.method
  have work {α : Type} (x : Attempt Fault Work α) : Respects (OnDictionary R) (onWork x) :=
    fun s => hR.refl s.dictionary
  have name : Respects (OnDictionary R) (emitName t) := by
    unfold emitName emitTo
    dsimp only
    split
    · split
      · exact work _
      · exact fun s => hR.refl s.dictionary
    · exact fun s => hR.refl s.dictionary
  obtain ⟨refl, trans, keyed⟩ := hR
  refine (made_expect _).onDictionary_bind refl trans fun _ => ?_
  refine (made_checkResult t).onDictionary_bind refl trans fun _ => ?_
  refine (made_typeWord (keyed (.type _) rfl)).onDictionary_bind refl trans fun type => ?_
  refine Made.onDictionary_bind refl trans (.declare (keyed (.signature _ _) rfl)) fun signature => ?_
  refine Made.onDictionary_bind refl trans (.declare predeclared) fun _ => ?_
  refine (made_emit _ _).onDictionary_bind refl trans fun _ => ?_
  refine (made_forM (made_emitParam keyed) _).onDictionary_bind refl trans fun _ => ?_
  refine respects_bind (OnDictionary.trans trans) name fun _ => ?_
  refine respects_bind (OnDictionary.trans trans) (work _) fun _ => ?_
  exact (made_emitGroupSize t).onDictionary refl trans

end

/-- The group variables are as before. -/
abbrev KeepsGroups : Emission → Emission → Prop := OnDictionary Dictionary.SameGroups

def Groupless (α : Type) (x : Declare α) : Prop := Respects Dictionary.SameGroups x

theorem groupless_perform (r : Dictionary.Request) (h : r.key?.isSome) :
    Groupless Id (Dictionary.perform r) := Dictionary.kept_sameGroups.keyed r h

theorem Made.keepsGroups {α : Type} {x : Emit α} (h : Made Groupless x) : Respects KeepsGroups x :=
  h.onDictionary Dictionary.kept_sameGroups.refl Dictionary.kept_sameGroups.trans

end Emission

end SpirvKernel
