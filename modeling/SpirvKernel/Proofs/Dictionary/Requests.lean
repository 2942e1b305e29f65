import SpirvKernel.Proofs.Dictionary.Growth

/-!
# Runs of requests

A run of requests goes on whatever fails. The dictionary only grows, and what a request was answered
with stays known under its key.
-/

namespace SpirvKernel.Dictionary

/-- What a request asks to be declared at most once. -/
def Request.key? : Request → Option Declaration
  | .type t => some (.ofType t)
  | .pointer pointee storage => some (.pointer pointee storage)
  | .signature result params => some (.signature result params)
  | .constant c => some (.constant c.truncate)
  | .word n => some (.constant (Constant.ofWord n).truncate)
  | .builtin b => some (.builtin b)
  | .groupVariable .. => none

/-- The answers to requests made one after the other, and the dictionary in the end. -/
def performAll : List Request → Dictionary → List (Request × Except Fault Id) × Dictionary
  | [], d => ([], d)
  | r :: rs, d =>
    let (answer, d₁) := perform r d
    let (answers, d₂) := performAll rs d₁
    ((r, answer) :: answers, d₂)

variable {d : Dictionary} {r : Request} {rs : List Request} {key : Declaration} {id : Id}

theorem perform_declares (h : r.key? = some key) : Declares key (perform r) := by
  cases r with
  | groupVariable => cases h
  | type t => cases h; exact typeId_declares t
  | pointer pointee storage => cases h; exact pointerId_declares pointee storage
  | signature result params => cases h; exact signatureId_declares result params
  | constant c => cases h; exact constantId_declares c
  | word n => cases h; exact wordId_declares n
  | builtin b => cases h; exact builtinId_declares b

theorem perform_steps (r : Request) (d : Dictionary) : Steps d (perform r d).2 := by
  cases hk : r.key? with
  | some key => exact ((perform_declares hk).below d).steps
  | none =>
    cases r with
    | groupVariable elem extent => exact (groupVariable_runs elem extent d).steps
    | type | pointer | signature | constant | word | builtin => cases hk

theorem performAll_steps (rs : List Request) (d : Dictionary) : Steps d (performAll rs d).2 := by
  induction rs generalizing d with
  | nil => exact .refl d
  | cons r rs ih => exact (perform_steps r d).trans (ih (perform r d).2)

theorem performAll_known (h : (r, .ok id) ∈ (performAll rs d).1) (hk : r.key? = some key) :
    (performAll rs d).2.get? key = some id := by
  induction rs generalizing d with
  | nil => cases h
  | cons r' rs ih =>
    rcases List.mem_cons.mp h with h | h
    · obtain ⟨rfl, hanswer⟩ := Prod.mk.inj h
      have known := (perform_declares hk).known d id hanswer.symm
      exact (performAll_steps rs (perform r d).2).get? known
    · exact ih h

end SpirvKernel.Dictionary
