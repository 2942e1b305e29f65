import SpirvKernel.Id.Table

/-!
# Ledgers

A ledger is a supply together with the ranges reserved from it and the tables opened on them.
-/

namespace SpirvKernel

structure Ledger where
  supply : Supply
  /-- The reserved ranges, in order. -/
  ranges : List IdRange
  tables : List IdTable
  deriving DecidableEq, Repr

namespace Ledger

def new (supply : Supply) : Ledger := ⟨supply, [], []⟩

inductive Request where
  | reserve (count : Nat)
  | draw
  | take (range : Nat)
  | remaining (range : Nat)
  /-- Opens a table on what is left of a range. The range itself stays as it is. -/
  | openTable (range : Nat)
  | onTable (table : Nat) (request : IdTable.Request)
  deriving DecidableEq, Repr

inductive Outcome where
  | nothing
  | id (id : Id)
  | count (n : Nat)
  deriving DecidableEq, Repr

/-- Runs `x` on one member of a list. Where there is none, nothing happens. -/
def onMember {ε σ α : Type} (i : Nat) (missing : α) (x : Attempt ε σ α) : Attempt ε (List σ) α :=
  fun xs =>
    match xs[i]? with
    | some s =>
      let (r, s) := x s
      (r, xs.set i s)
    | none => (.ok missing, xs)

def onRange (i : Nat) (x : Attempt Fault IdRange Outcome) : Attempt Fault Ledger Outcome :=
  Attempt.onPart (·.ranges) (fun l rs => { l with ranges := rs }) (onMember i .nothing x)

def reserve (count : Nat) : Attempt Fault Ledger Outcome := do
  let range ← Attempt.onPart (·.supply) (fun l s => { l with supply := s }) (Supply.reserve count)
  Attempt.change fun l => { l with ranges := l.ranges ++ [range] }
  pure (.count range.remaining)

def openTable (i : Nat) : Attempt Fault Ledger Outcome := fun l =>
  match l.ranges[i]? with
  | some range => (.ok (.count l.tables.length), { l with tables := l.tables ++ [.new range] })
  | none => (.ok .nothing, l)

def perform : Request → Attempt Fault Ledger Outcome
  | .reserve count => reserve count
  | .draw =>
    .id <$> Attempt.onPart (·.supply) (fun l s => { l with supply := s }) Supply.draw
  | .take i => onRange i (.id <$> IdRange.take)
  | .remaining i => onRange i ((fun r => .count r.remaining) <$> Attempt.state)
  | .openTable i => openTable i
  | .onTable i request =>
    Attempt.onPart (·.tables) (fun l ts => { l with tables := ts }) <|
      onMember i .nothing <| (fun id => (id.map Outcome.id).getD .nothing) <$>
        IdTable.perform request

end Ledger

end SpirvKernel
