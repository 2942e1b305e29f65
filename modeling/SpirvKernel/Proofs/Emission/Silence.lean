import SpirvKernel.Proofs.Emission.Footprint

/-!
# Emission without names

Whether functions carry their names makes no difference to anything else. A run without names follows a
run with names step by step, in the state from which the names are erased, unless a name is too long to
be written.
-/

namespace SpirvKernel

namespace Attempt

variable {ε σ τ α β γ δ : Type} {μ : σ → τ} {excuse : ε → Prop}

/-- On the state `μ s` the attempt `y` ends as `x` does on `s`, unless `x` fails for an excuse. -/
def Follows (μ : σ → τ) (excuse : ε → Prop) (f : α → β) (x : Attempt ε σ α) (y : Attempt ε τ β) : Prop :=
  ∀ s, (∃ e, (x s).1 = .error e ∧ excuse e) ∨ y (μ s) = ((x s).1.map f, μ (x s).2)

theorem Follows.bind {f : α → β} {g : γ → δ} {x : Attempt ε σ α} {y : Attempt ε τ β}
    {k : α → Attempt ε σ γ} {l : β → Attempt ε τ δ} (first : Follows μ excuse f x y)
    (rest : ∀ a, Follows μ excuse g (k a) (l (f a))) : Follows μ excuse g (x >>= k) (y >>= l) := by
  intro s
  rw [bind_apply, bind_apply]
  rcases first s with ⟨e, hx, he⟩ | hy
  · left
    refine ⟨e, ?_, he⟩
    generalize x s = run at hx
    obtain ⟨r, s'⟩ := run
    obtain rfl : r = .error e := hx
    rfl
  · rw [hy]
    obtain ⟨r, s'⟩ := x s
    cases r with
    | error e => exact .inr rfl
    | ok a => exact rest a s'

theorem follows_pure {f : α → β} {a : α} {b : β} (h : f a = b) :
    Follows μ excuse f (pure a) (pure b) := fun _ => .inr (by subst h; rfl)

theorem follows_refl (x : Attempt ε σ α) : Follows id excuse id x x := by
  intro s
  right
  rw [id_eq]
  obtain ⟨r, s'⟩ := x s
  cases r <;> rfl

theorem follows_onPart {ρ : Type} {f : α → β} {get : σ → ρ} {set : σ → ρ → σ} {get' : τ → ρ}
    {set' : τ → ρ → τ} {x : Attempt ε ρ α} {y : Attempt ε ρ β} (hx : Follows id excuse f x y)
    (hget : ∀ s, get' (μ s) = get s) (hset : ∀ s r, set' (μ s) r = μ (set s r)) :
    Follows μ excuse f (onPart get set x) (onPart get' set' y) := by
  intro s
  rw [onPart_apply, onPart_apply, hget]
  rcases hx (get s) with failed | hy
  · exact .inl failed
  · right
    rw [id_eq] at hy
    rw [hy, hset]
    rfl

theorem follows_mapM {ι κ : Type} {h : ι → κ} {f : α → β} {k : ι → Attempt ε σ α}
    {l : κ → Attempt ε τ β} (each : ∀ i, Follows μ excuse f (k i) (l (h i))) (is : List ι) :
    Follows μ excuse (List.map f) (is.mapM k) ((is.map h).mapM l) := by
  induction is with
  | nil => exact follows_pure rfl
  | cons i is ih =>
    rw [List.map_cons, List.mapM_cons, List.mapM_cons]
    exact (each i).bind fun a => ih.bind fun as => follows_pure rfl

end Attempt

/-! ## Tasks without names -/

def Frame.silent (f : Frame) : Frame := { f with debugNames := false }

def Task.silent (t : Task) : Task := { t with frame := t.frame.silent }

namespace Layout

theorem bare_append_debug (l : Layout Instruction) (is : List Instruction) :
    (l.append .debug is).bare = l.bare := by
  ext1 sec
  by_cases h : sec = .debug <;> simp [get_bare, h]

theorem bare_merge (l m : Layout Instruction) : (l.merge m).bare = l.bare.merge m.bare := by
  ext1 sec
  by_cases h : sec = .debug <;> simp [get_bare, h]

end Layout

namespace Emission

open Attempt

theorem phiOperands_silent (t : Task) (start : Nat) (incoming : List (ValueId × BlockId)) :
    phiOperands t.silent start incoming = phiOperands t start incoming := by
  induction incoming generalizing start with
  | nil => rfl
  | cons x incoming ih =>
    unfold phiOperands
    rw [ih]
    rfl

theorem emitValue_silent (t : Task) : emitValue t.silent = emitValue t := by
  funext v
  unfold emitValue emitPhi
  simp only [phiOperands_silent]
  rfl

theorem emitBlock_silent (t : Task) : emitBlock t.silent = emitBlock t := by
  funext first b
  unfold emitBlock
  rw [emitValue_silent]
  rfl

theorem body_silent (t : Task) : body t.silent = body t := by
  unfold body
  rw [emitBlock_silent]
  rfl

/-! ## Runs without names -/

/-- The only failure that names add. -/
def NameTooLong (e : Fault) : Prop := e = .oversized .name

/-- In the state without names the attempt `y` ends as `x` does, unless `x` fails to write a name. -/
abbrev Silences {α : Type} (x y : Emit α) : Prop := Follows erased NameTooLong id x y

theorem silences_of_blind {α : Type} {x : Emit α} (h : ∀ s, x s.erased = ((x s).1, (x s).2.erased)) :
    Silences x x := by
  intro s
  right
  rw [h s]
  cases (x s).1 <;> rfl

theorem Made.silences {D : (α : Type) → Declare α → Prop} {α : Type} {x : Emit α} (h : Made D x) :
    Silences x x := by
  apply silences_of_blind
  induction h with
  | pure | fail | declare | onTable => exact fun _ => rfl
  | @bind α β x f _ _ first rest =>
    intro s
    rw [bind_apply, bind_apply, first s]
    obtain ⟨r, s'⟩ := x s
    cases r with
    | error e => rfl
    | ok a => exact rest a s'
  | @look α f _ blind rest =>
    intro s
    change f s.erased s.erased = _
    rw [blind s]
    exact rest s s
  | edit table stage blind =>
    intro s
    simp only [onWork, onPart_apply, change_apply, erased, blind]

/-- Any declarations at all. -/
def Unasked (α : Type) (_ : Declare α) : Prop := True

theorem unasked_keyed (r : Dictionary.Request) (_ : r.key?.isSome) : Unasked Id (Dictionary.perform r) :=
  trivial

theorem silences_setStage (stage : Stage) : Silences (setStage stage) (setStage stage) :=
  silences_of_blind fun _ => rfl

theorem silences_emitName (t : Task) : Silences (emitName t) (emitName t.silent) := by
  intro s
  unfold emitName emitTo
  dsimp only
  split
  · split
    · right
      simp [onWork, erased, Work.erased, Layout.bare_append_debug, Task.silent, Frame.silent]
    · exact .inl ⟨_, rfl, rfl⟩
  · exact .inr rfl

theorem silences_header (t : Task) : Silences (header t) (header t.silent) := by
  unfold header
  refine (made_expect (D := Unasked) _).silences.bind fun _ => ?_
  refine (made_checkResult (D := Unasked) t).silences.bind fun _ => ?_
  refine (made_typeWord (D := Unasked) trivial).silences.bind fun type => ?_
  refine Follows.bind (Made.declare (D := Unasked) trivial).silences fun signature => ?_
  refine Follows.bind (Made.declare (D := Unasked) trivial).silences fun _ => ?_
  refine (made_emit (D := Unasked) _ _).silences.bind fun _ => ?_
  refine (made_forM (made_emitParam unasked_keyed) _).silences.bind fun _ => ?_
  refine (silences_emitName t).bind fun _ => ?_
  exact (silences_setStage _).bind fun _ => (made_emitGroupSize (D := Unasked) t).silences

theorem silences_body (t : Task) : Silences (body t) (body t.silent) := by
  rw [body_silent]
  unfold body
  refine (made_expect (D := Unasked) _).silences.bind fun _ => ?_
  split
  · exact (Made.fail (D := Unasked) _).silences
  · refine (made_forM (made_allocateLabel (D := Unasked)) _).silences.bind fun _ => ?_
    have storage := made_emitStorage (D := Unasked) (fun _ => trivial) t
    refine (made_emitBlock storage fun _ _ _ _ => trivial).silences.bind fun _ => ?_
    refine (made_emitBlocks (D := Unasked) fun _ _ _ _ _ _ => trivial).silences.bind fun _ => ?_
    refine (made_resolveAll (D := Unasked)).silences.bind fun _ => ?_
    exact (made_emit (D := Unasked) _ _).silences.bind fun _ => silences_setStage _

theorem silences_merge : Silences merge merge := by
  refine (made_expect (D := Unasked) _).silences.bind fun _ => silences_of_blind fun s => ?_
  simp only [change_apply, erased, Work.erased, Layout.bare_merge]
  rfl

end Emission

end SpirvKernel
