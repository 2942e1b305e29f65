import SpirvKernel.Kernel.Draft
import SpirvKernel.Proofs.Run

/-!
# What edits do

An edit opens a block, moves to one, closes the current one, adds a parameter or adds a value. Which
value an edit makes depends only on the types of the values before it. An edit that is refused leaves
the draft as it was.
-/

namespace SpirvKernel.Draft

open Attempt

/-! ## What is left of an edit -/

/-- The type and kind of the value that an edit makes, by the types of the values so far. -/
def Edit.makes? (types : List Ty) : Edit → Option (Ty × ValueKind)
  | .add type kind => some (type, kind)
  | .constant c => some (c.type, .constant c)
  | .binary op lhs rhs flags => do some (← types[lhs.number]?, .binary op lhs rhs flags)
  | .unary op operand => do some (← types[operand.number]?, .unary op operand)
  | .compare op lhs rhs flags => some (.bool, .compare op lhs rhs flags)
  | .convert operand type flags => some (type, .convert operand flags)
  | .select cond thenValue elseValue => do
    some (← types[thenValue.number]?, .select cond thenValue elseValue)
  | .alloca elem extent space => some (.pointer elem space, .alloca elem extent)
  | .load address => do some (← (← types[address.number]?).pointee?, .load address)
  | .store address operand => some (.void, .store address operand)
  | .elementAddress base index => do some (← types[base.number]?, .elementAddress base index)
  | .fieldAddress base field => do
    match ← types[base.number]? with
    | .pointer pointee space =>
      some (.pointer (← pointee.field? field) space, .fieldAddress base field)
    | _ => none
  | .extractField aggregate field => do
    some (← (← types[aggregate.number]?).field? field, .extractField aggregate field)
  | .call callee args type flags => some (type, .call callee args flags)
  | .phi type incoming => some (type, .phi incoming)
  | .gridIndex builtin dimension type => some (type, .gridIndex builtin dimension)
  | .barrier => some (.void, .barrier)
  | .newBlock | .positionAt _ | .typeOf _ | .param _ | .terminate _ => none

inductive Event where
  | looked
  | moved (b : BlockId)
  | opened
  | param (p : Param)
  | value (v : Value)
  | closed (t : Terminator)
  deriving DecidableEq

/-- What happens to a draft by an edit, unless it is refused. -/
def event? (d : Draft) : Edit → Option Event
  | .typeOf v => d.types[v.number]?.map fun _ => .looked
  | .positionAt b => if b.number < d.blocks.length then some (.moved b) else none
  | .newBlock => some .opened
  | .param type => some (.param ⟨⟨d.types.length⟩, type⟩)
  | .terminate t => if d.isTerminated then none else some (.closed t)
  | e => (e.makes? d.types).map fun (type, kind) => .value ⟨⟨d.types.length⟩, type, kind⟩

/-- How a draft changes with an event. -/
inductive Change (d : Draft) : Event → Draft → Prop
  | looked : Change d .looked d
  | moved (b : BlockId) (h : b.number < d.blocks.length) :
      Change d (.moved b) { d with current := b.number, current_lt := h }
  | opened : Change d .opened (newBlock d).2
  | param (type : Ty) : Change d (.param ⟨⟨d.types.length⟩, type⟩) (param type d).2
  | value (type : Ty) (kind : ValueKind) :
      Change d (.value ⟨⟨d.types.length⟩, type, kind⟩) (add type kind d).2
  | closed (t : Terminator) (h : d.isTerminated = false) :
      Change d (.closed t) (d.changeCurrent fun b => { b with terminator := some t })

/-- Either `x` is refused, and nothing happens, or the draft changes as the event says. -/
inductive Yields {α : Type} (x : Step α) (d : Draft) : Option Event → Prop
  | refused {error : Error} (run : x d = (.error error, d)) : Yields x d none
  | accepted {a : α} {d' : Draft} {event : Event} (run : x d = (.ok a, d'))
      (change : Change d event d') : Yields x d (some event)

variable {α β : Type} {d : Draft}

theorem Yields.map {x : Step α} {event : Option Event} (h : Yields x d event) (f : α → β) :
    Yields (f <$> x) d event := by
  cases h with
  | refused run => exact .refused (by rw [map_apply, run]; rfl)
  | accepted run change => exact .accepted (by rw [map_apply, run]; rfl) change

theorem Yields.congr {x y : Step α} {event : Option Event} (h : Yields x d event) (run : y d = x d) :
    Yields y d event := by
  cases h with
  | refused hx => exact .refused (run.trans hx)
  | accepted hx change => exact .accepted (run.trans hx) change

/-! ## Edits that make a value -/

/-- `x` adds the value that `made` tells, or is refused if there is none. -/
def AddsValue (x : Step α) (d : Draft) (made : Option (Ty × ValueKind)) : Prop :=
  Yields x d (made.map fun (type, kind) => .value ⟨⟨d.types.length⟩, type, kind⟩)

theorem addsValue_add (type : Ty) (kind : ValueKind) : AddsValue (add type kind) d (some (type, kind)) :=
  .accepted rfl (.value type kind)

theorem addsValue_fail (e : Error) : AddsValue (fail e : Step α) d none := .refused rfl

theorem addsValue_require {o : Option β} {e : Error} {f : β → Step α}
    {made : β → Option (Ty × ValueKind)} (h : ∀ b, AddsValue (f b) d (made b)) :
    AddsValue (require e o >>= f) d (o.bind made) := by
  cases o with
  | none => exact addsValue_fail e
  | some b => exact h b

theorem typeOf_apply (v : ValueId) (d : Draft) :
    typeOf v d = require (.noValue d.types.length v) d.types[v.number]? d := rfl

theorem addsValue_typed {v : ValueId} {f : Ty → Step α} {made : Ty → Option (Ty × ValueKind)}
    (h : ∀ type, AddsValue (f type) d (made type)) :
    AddsValue (typeOf v >>= f) d (d.types[v.number]?.bind made) :=
  (addsValue_require h).congr (by rw [bind_apply, typeOf_apply, ← bind_apply])

theorem addsValue_silent (type : Ty) (kind : ValueKind) :
    AddsValue (do let _ ← add type kind : Step Unit) d (some (type, kind)) :=
  .accepted rfl (.value type kind)

/-- Every edit does what its event says, or is refused and does nothing. -/
theorem perform_yields (e : Edit) (d : Draft) : Yields (perform e) d (event? d e) := by
  cases e with
  | newBlock => exact .accepted rfl .opened
  | param type => exact .accepted rfl (.param type)
  | typeOf v =>
    refine Yields.map ?_ _
    refine Yields.congr ?_ (typeOf_apply v d)
    change Yields _ d (Option.map _ _)
    cases d.types[v.number]? with
    | none => exact .refused rfl
    | some type => exact .accepted rfl .looked
  | positionAt b =>
    refine Yields.map ?_ _
    by_cases h : b.number < d.blocks.length
    · rw [event?, if_pos h]
      exact .accepted (by rw [positionAt, dif_pos h]) (.moved b h)
    · rw [event?, if_neg h]
      exact .refused (by rw [positionAt, dif_neg h])
  | terminate t =>
    refine Yields.map ?_ _
    by_cases h : d.isTerminated
    · rw [event?, if_pos h]
      exact .refused (by rw [terminate, if_pos h])
    · rw [event?, if_neg h]
      exact .accepted (by rw [terminate, if_neg h]) (.closed t (Bool.eq_false_iff.mpr h))
  | add | constant | compare | convert | alloca | call | phi | gridIndex =>
    exact (addsValue_add _ _).map _
  | store | barrier => exact (addsValue_silent _ _).map _
  | binary | unary | select | elementAddress =>
    exact (addsValue_typed fun _ => addsValue_add _ _).map _
  | load | extractField =>
    exact (addsValue_typed fun _ => addsValue_require fun _ => addsValue_add _ _).map _
  | fieldAddress base field =>
    refine (addsValue_typed fun type => ?_).map _
    cases type with
    | pointer => exact addsValue_require fun _ => addsValue_add _ _
    | _ => exact addsValue_fail _

theorem perform_cases (e : Edit) (d : Draft) :
    (∃ error, perform e d = (.error error, d) ∧ event? d e = none) ∨
      ∃ out d' event, perform e d = (.ok out, d') ∧ event? d e = some event ∧ Change d event d' := by
  have hyields := perform_yields e d
  revert hyields
  generalize event? d e = event
  rintro (run | ⟨run, change⟩)
  · exact .inl ⟨_, run, rfl⟩
  · exact .inr ⟨_, _, _, run, rfl, change⟩

theorem perform_refused {e : Edit} {error : Error} {d' : Draft}
    (h : perform e d = (.error error, d')) : d' = d := by
  obtain ⟨error, run, -⟩ | ⟨out, d', event, run, -⟩ := perform_cases e d
  · exact (Prod.mk.inj (h.symm.trans run)).2
  · rw [h] at run
    cases run

/-! ## Runs -/

/-- The edits that are not refused. -/
def accepted (d : Draft) : List Edit → List Edit
  | [] => []
  | e :: edits => (if (perform e d).1.isOk then [e] else []) ++ accepted (perform e d).2 edits

/-- What every accepted edit keeps, with the edits accepted so far, holds after all edits. -/
theorem performAll_induction {P : List Edit → Draft → Prop}
    (step : ∀ done d e event d', event? d e = some event → Change d event d' → P done d →
      P (done ++ [e]) d') (start : P [] d) (edits : List Edit) :
    P (accepted d edits) (d.performAll edits) := by
  suffices ∀ done, P done d → P (done ++ accepted d edits) (d.performAll edits) from this [] start
  clear start
  induction edits generalizing d with
  | nil =>
    intro done h
    rw [accepted, List.append_nil]
    exact h
  | cons e edits ih =>
    intro done h
    rw [accepted, performAll, List.foldl_cons, ← performAll]
    obtain ⟨error, run, -⟩ | ⟨out, d', event, run, hevent, change⟩ := perform_cases e d
    · rw [run]
      exact ih done h
    · rw [run, ← List.append_assoc]
      exact ih _ (step done d e event d' hevent change h)

end SpirvKernel.Draft
