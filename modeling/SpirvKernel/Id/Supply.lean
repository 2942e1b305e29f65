import SpirvKernel.Attempt
import SpirvKernel.Fault

/-!
# The supply of identifiers

One supply serves a whole module. It hands out identifiers one at a time or in ranges, in ascending
order from 1 and below a fixed limit; a range is then used up on its own.
-/

namespace SpirvKernel

/-- Identifiers set aside, from `next` up to but without `stop`. -/
structure IdRange where
  next : Nat
  stop : Nat
  deriving DecidableEq, Repr

namespace IdRange

def remaining (r : IdRange) : Nat := r.stop - r.next

def take : Attempt Fault IdRange Id := fun r =>
  if r.next < r.stop then (.ok ⟨r.next⟩, { r with next := r.next + 1 })
  else (.error .rangeExhausted, r)

end IdRange

structure Supply where
  /-- The next identifier, one past all that were handed out. -/
  next : Nat
  deriving DecidableEq, Repr

namespace Supply

/-- No bound of a module exceeds this. -/
def limit : Nat := 0x3FFFFF

/-- Zero names nothing, so a supply starts at 1 at the earliest. -/
def startingAt (first : Nat) : Supply := ⟨max first 1⟩

def new : Supply := startingAt 1

/-- Sets `count` identifiers aside, or none if they would pass the limit. -/
def reserve (count : Nat) : Attempt Fault Supply IdRange := fun s =>
  if s.next + count ≤ limit then (.ok ⟨s.next, s.next + count⟩, ⟨s.next + count⟩)
  else (.error .spaceExhausted, s)

def draw : Attempt Fault Supply Id := do
  let range ← reserve 1
  pure ⟨range.next⟩

theorem draw_apply (s : Supply) :
    draw s = if s.next + 1 ≤ limit then (.ok ⟨s.next⟩, ⟨s.next + 1⟩)
      else (.error .spaceExhausted, s) := by
  by_cases h : s.next + 1 ≤ limit
  · rw [draw, Attempt.bind_apply, reserve, if_pos h, if_pos h]; rfl
  · rw [draw, Attempt.bind_apply, reserve, if_neg h, if_neg h]

end Supply

end SpirvKernel
