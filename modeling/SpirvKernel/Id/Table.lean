import SpirvKernel.Id.Supply

/-!
# Identifier tables

The table of a method gives each value and block its identifier, from a range of its own or from
outside, and never changes one that it gave.
-/

namespace SpirvKernel

structure IdTable where
  range : IdRange
  /-- What was given, the latest first. -/
  entries : List (Entity × Id)
  deriving DecidableEq, Repr

namespace IdTable

def new (range : IdRange) : IdTable := ⟨range, []⟩

def get? (t : IdTable) (e : Entity) : Option Id := t.entries.lookup e

def size (t : IdTable) : Nat := t.entries.length

/-- An identifier that names no entity. -/
def fresh : Attempt Fault IdTable Id :=
  Attempt.onPart (·.range) (fun t r => { t with range := r }) IdRange.take

/-- Names an entity by an identifier from elsewhere. -/
def bind (e : Entity) (id : Id) : Attempt Fault IdTable Unit := fun t =>
  if (t.get? e).isSome then (.error (.alreadyAllocated e), t)
  else (.ok (), { t with entries := (e, id) :: t.entries })

theorem get?_of_bind {t t' : IdTable} {e : Entity} {id : Id} (h : bind e id t = (.ok (), t'))
    (e' : Entity) : t'.get? e' = if e' = e then some id else t.get? e' := by
  unfold bind at h
  split at h
  · simp at h
  · obtain ⟨-, rfl⟩ := Prod.mk.inj h
    rw [get?, List.lookup_cons, get?]
    by_cases he : e' = e
    · simp [he]
    · simp [he, beq_eq_false_iff_ne.mpr he]

/-- Names an entity by the next identifier of the range. -/
def allocate (e : Entity) : Attempt Fault IdTable Id := do
  let t ← Attempt.state
  if (t.get? e).isSome then Attempt.fail (.alreadyAllocated e)
  else
    let id ← fresh
    bind e id
    pure id

def load (e : Entity) : Attempt Fault IdTable Id := do
  let t ← Attempt.state
  Attempt.require (.unallocated e) (t.get? e)

/-! ## Requests as data -/

inductive Request where
  | allocate (e : Entity)
  | bind (e : Entity) (id : Id)
  | load (e : Entity)
  | get (e : Entity)
  | fresh
  deriving DecidableEq, Repr

/-- Performs a request. Only `bind`, and `get` of an entity without a name, give nothing back. -/
def perform : Request → Attempt Fault IdTable (Option Id)
  | .allocate e => some <$> allocate e
  | .bind e id => (fun _ => none) <$> bind e id
  | .load e => some <$> load e
  | .get e => (·.get? e) <$> Attempt.state
  | .fresh => some <$> fresh

end IdTable

end SpirvKernel
