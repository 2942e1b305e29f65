/-!
# Attempts

An attempt changes a state and may fail. What it changed before it failed stays changed, so the state
stands beside the outcome and not inside it.
-/

namespace SpirvKernel

def Attempt (ε σ α : Type) : Type := σ → Except ε α × σ

namespace Attempt

variable {ε σ τ α β γ : Type}

instance : Monad (Attempt ε σ) where
  pure a := fun s => (.ok a, s)
  bind x f := fun s =>
    match x s with
    | (.ok a, s') => f a s'
    | (.error e, s') => (.error e, s')

@[simp] theorem pure_apply (a : α) (s : σ) : (pure a : Attempt ε σ α) s = (.ok a, s) := rfl

theorem bind_apply (x : Attempt ε σ α) (f : α → Attempt ε σ β) (s : σ) :
    (x >>= f) s = match x s with
      | (.ok a, s') => f a s'
      | (.error e, s') => (.error e, s') := rfl

instance : LawfulMonad (Attempt ε σ) :=
  LawfulMonad.mk' _
    (fun x => by
      funext s
      change (match x s with
        | (.ok a, s') => (.ok a, s')
        | (.error e, s') => (.error e, s')) = x s
      rcases x s with ⟨_ | _, _⟩ <;> rfl)
    (fun _ _ => rfl)
    (fun x f g => by
      funext s
      simp only [bind_apply]
      rcases x s with ⟨_ | _, _⟩ <;> rfl)

def fail (e : ε) : Attempt ε σ α := fun s => (.error e, s)

def state : Attempt ε σ σ := fun s => (.ok s, s)

def change (f : σ → σ) : Attempt ε σ Unit := fun s => (.ok (), f s)

/-- The value, or a failure with `e` if there is none. -/
def require (e : ε) : Option α → Attempt ε σ α
  | some a => pure a
  | none => fail e

def ofExcept : Except ε α → Attempt ε σ α
  | .ok a => pure a
  | .error e => fail e

/-- Runs `x` on the part of the state that `get` reads and `set` writes. -/
def onPart (get : σ → τ) (set : σ → τ → σ) (x : Attempt ε τ α) : Attempt ε σ α := fun s =>
  let (r, t) := x (get s)
  (r, set s t)

/-- Goes on after a failure that `p` holds of, with what was changed so far. -/
def tolerate (p : ε → Bool) (x : Attempt ε σ α) : Attempt ε σ Unit := fun s =>
  match x s with
  | (.ok _, s') => (.ok (), s')
  | (.error e, s') => if p e then (.ok (), s') else (.error e, s')

/-! ## What a run says about its steps -/

@[simp] theorem fail_apply (e : ε) (s : σ) : (fail e : Attempt ε σ α) s = (.error e, s) := rfl

@[simp] theorem state_apply (s : σ) : (state : Attempt ε σ σ) s = (.ok s, s) := rfl

@[simp] theorem change_apply (f : σ → σ) (s : σ) :
    (change f : Attempt ε σ Unit) s = (.ok (), f s) := rfl

@[simp] theorem map_apply (f : α → β) (x : Attempt ε σ α) (s : σ) :
    (f <$> x) s = ((x s).1.map f, (x s).2) := by
  rw [← bind_pure_comp, bind_apply]
  rcases x s with ⟨_ | _, _⟩ <;> rfl

@[simp] theorem onPart_apply (get : σ → τ) (set : σ → τ → σ) (x : Attempt ε τ α) (s : σ) :
    onPart get set x s = ((x (get s)).1, set s (x (get s)).2) := rfl

theorem bind_eq_ok_iff {x : Attempt ε σ α} {f : α → Attempt ε σ β} {s s'' : σ} {b : β} :
    (x >>= f) s = (.ok b, s'') ↔ ∃ a s', x s = (.ok a, s') ∧ f a s' = (.ok b, s'') := by
  rw [bind_apply]
  rcases x s with ⟨_ | a, s'⟩
  · simp
  · constructor
    · intro h; exact ⟨a, s', rfl, h⟩
    · rintro ⟨a', t, h, hf⟩
      cases h
      exact hf

theorem bind_eq_error_iff {x : Attempt ε σ α} {f : α → Attempt ε σ β} {s s'' : σ} {e : ε} :
    (x >>= f) s = (.error e, s'') ↔
      x s = (.error e, s'') ∨ ∃ a s', x s = (.ok a, s') ∧ f a s' = (.error e, s'') := by
  rw [bind_apply]
  rcases x s with ⟨_ | a, s'⟩
  · simp
  · simp only [Prod.mk.injEq, reduceCtorEq, false_and, false_or]
    constructor
    · intro h; exact ⟨a, s', ⟨rfl, rfl⟩, h⟩
    · rintro ⟨a', t, ⟨h, rfl⟩, hf⟩
      cases h
      exact hf

end Attempt

end SpirvKernel
