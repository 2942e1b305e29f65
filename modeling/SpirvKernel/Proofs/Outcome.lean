import SpirvKernel.Proofs.Run

/-!
# Exact outcomes

When an attempt succeeds, and when it cannot: one condition decides, up to faults that are set apart.
-/

namespace SpirvKernel

namespace Attempt

variable {ε σ τ α β γ : Type} {spare : ε → Prop} {C E : Prop} {s : σ}

/-- An attempt succeeds only under `C`, with `Q`. Under `C` it fails for `spare` faults only. -/
def Settles (spare : ε → Prop) (C : Prop) (Q : α → σ → Prop) (x : Attempt ε σ α) (s : σ) : Prop :=
  match x s with
  | (.ok a, s') => C ∧ Q a s'
  | (.error e, _) => C → spare e

section

variable {P Q : α → σ → Prop} {x : Attempt ε σ α}

theorem Settles.ok (h : Settles spare C Q x s) {a : α} {s' : σ} (hx : x s = (.ok a, s')) :
    C ∧ Q a s' := by
  rwa [Settles, hx] at h

theorem Settles.error (h : Settles spare C Q x s) {e : ε} {s' : σ} (hx : x s = (.error e, s'))
    (hC : C) : spare e := by
  rw [Settles, hx] at h
  exact h hC

theorem settles_of (hok : ∀ a s', x s = (.ok a, s') → C ∧ Q a s')
    (herror : ∀ e s', x s = (.error e, s') → C → spare e) : Settles spare C Q x s := by
  unfold Settles
  split
  · rename_i a s' h
    exact hok a s' h
  · rename_i e s' h
    exact herror e s' h

theorem settles_of_iff (h : ∀ a s', x s = (.ok a, s') ↔ Q a s') :
    Settles spare (∃ a s', Q a s') Q x s := by
  refine settles_of (fun a s' hx => ?_) fun e s' hx hQ => ?_
  · have := (h a s').mp hx
    exact ⟨⟨a, s', this⟩, this⟩
  · obtain ⟨a, s'', hQ⟩ := hQ
    rw [(h a s'').mpr hQ] at hx
    cases hx

theorem Settles.imp (h : Settles spare C P x s) (hQ : ∀ a s', P a s' → Q a s') :
    Settles spare C Q x s :=
  settles_of (fun a s' hx => ⟨(h.ok hx).1, hQ a s' (h.ok hx).2⟩) fun _ _ hx => h.error hx

theorem Settles.tolerate {known : ε → Prop} (h : Settles spare C Q x s) (hspare : ∀ e, spare e → known e) :
    Settles known C Q x s :=
  settles_of (fun _ _ hx => h.ok hx) fun e _ hx hC => hspare e (h.error hx hC)

theorem Settles.congr (h : Settles spare C Q x s) (hC : C ↔ E) : Settles spare E Q x s := by
  rwa [← propext hC]

theorem Settles.also (h : Settles spare True Q x s) (hE : E) : Settles spare E Q x s :=
  h.congr ⟨fun _ => hE, fun _ => trivial⟩

theorem settles_pure {a : α} (hE : E) (hQ : Q a s) : Settles spare E Q (pure a) s := ⟨hE, hQ⟩

theorem settles_state : Settles (ε := ε) spare True (fun a s' => s = a ∧ s' = s) state s :=
  ⟨trivial, rfl, rfl⟩

theorem settles_fail {e : ε} (h : ¬ E) : Settles spare E Q (fail e) s := fun hE => absurd hE h

theorem settles_spare {e : ε} (h : spare e) : Settles spare E Q (fail e) s := fun _ => h

theorem settles_require {e : ε} {o : Option α} :
    Settles spare o.isSome (fun a s' => o = some a ∧ s' = s) (require e o) s := by
  cases o with
  | none => exact settles_fail (by simp)
  | some a => exact settles_pure rfl ⟨rfl, rfl⟩

theorem settles_ofExcept {o : Except ε α} :
    Settles spare (∃ a, o = .ok a) (fun a s' => o = .ok a ∧ s' = s) (ofExcept o) s := by
  cases o with
  | error e => exact settles_fail (by simp)
  | ok a => exact settles_pure ⟨a, rfl⟩ ⟨rfl, rfl⟩

theorem settles_choice {r : Except ε α} {o : Option α} (h : ∀ a, r = .ok a ↔ o = some a) (s : σ) :
    Settles spare o.isSome (fun a s' => o = some a ∧ s' = s) (ofExcept r) s := by
  have base : Settles spare _ _ (ofExcept r) s := settles_ofExcept
  refine (base.imp fun a _ hr => ⟨(h a).mp hr.1, hr.2⟩).congr ?_
  simp [h, Option.isSome_iff_exists]

/-- The condition `E` of a whole is that of its first step and that of the rest. -/
theorem Settles.bind {R : β → σ → Prop} {f : α → Attempt ε σ β} (hx : Settles spare C P x s)
    (needed : E → C) (hf : ∀ a s', C → P a s' → Settles spare E R (f a) s') :
    Settles spare E R (x >>= f) s := by
  refine settles_of (fun b s'' h => ?_) fun e s'' h hE => ?_
  · obtain ⟨a, s', ha, h⟩ := bind_eq_ok_iff.mp h
    obtain ⟨hC, hP⟩ := hx.ok ha
    exact (hf a s' hC hP).ok h
  · rcases bind_eq_error_iff.mp h with h | ⟨a, s', ha, h⟩
    · exact hx.error h (needed hE)
    · obtain ⟨hC, hP⟩ := hx.ok ha
      exact (hf a s' hC hP).error h hE

theorem Settles.read {R : β → σ → Prop} {f : α → Attempt ε σ β} {A : α → Prop}
    (hx : Settles spare C (fun a s' => A a ∧ s' = s) x s) (needed : E → C)
    (hf : ∀ a, C → A a → Settles spare E R (f a) s) : Settles spare E R (x >>= f) s :=
  hx.bind needed fun a s' hC h => by rw [h.2]; exact hf a hC h.1

theorem Settles.map {R : β → σ → Prop} {f : α → β} (hx : Settles spare C P x s)
    (hR : ∀ a s', P a s' → R (f a) s') : Settles spare C R (f <$> x) s := by
  rw [← bind_pure_comp]
  exact hx.bind id fun a s' hC hP => settles_pure hC (hR a s' hP)

theorem settles_onPart {get : τ → σ} {set : τ → σ → τ} {t : τ} (h : Settles spare C P x (get t)) :
    Settles spare C (fun a t' => ∃ s', P a s' ∧ t' = set t s') (onPart get set x) t := by
  refine settles_of (fun a t' run => ?_) fun e t' run hC => ?_
  · obtain ⟨s', hx, rfl⟩ := onPart_ok_iff.mp run
    exact ⟨(h.ok hx).1, s', (h.ok hx).2, rfl⟩
  · rw [onPart_apply] at run
    exact h.error (Prod.ext (Prod.mk.inj run).1 rfl) hC

end

/-! ## Lists of steps -/

end Attempt

/-- Every element of a list has the property `C`, which may depend on the elements before it. -/
def InTurn {β : Type} (C : List β → β → Prop) : List β → List β → Prop
  | _, [] => True
  | before, b :: bs => C before b ∧ InTurn C (before ++ [b]) bs

section

variable {β : Type} {C D : List β → β → Prop} {bs before : List β}

theorem InTurn.imp (h : InTurn C before bs) (hD : ∀ before, ∀ b ∈ bs, C before b → D before b) :
    InTurn D before bs := by
  induction bs generalizing before with
  | nil => trivial
  | cons b bs ih =>
    refine ⟨hD before b List.mem_cons_self h.1, ih h.2 fun before' c hc => ?_⟩
    exact hD before' c (List.mem_cons_of_mem b hc)

theorem InTurn.mem (h : InTurn C before bs) {b : β} (hb : b ∈ bs) : ∃ before, C before b := by
  induction bs generalizing before with
  | nil => cases hb
  | cons b' bs ih =>
    rcases List.mem_cons.mp hb with rfl | hb
    · exact ⟨before, h.1⟩
    · exact ih h.2 hb

end

namespace Attempt

variable {ε σ α β γ : Type} {spare : ε → Prop} {s : σ} {C : List β → β → Prop}

/-- A loop whose invariant speaks of the elements that are done. -/
theorem settles_forM {f : β → Attempt ε σ Unit} {I : List β → σ → Prop} {all bs before : List β}
    (step : ∀ before b rest s, all = before ++ b :: rest → I before s →
      Settles spare (C before b) (fun _ => I (before ++ [b])) (f b) s) (hall : all = before ++ bs)
    (h : I before s) : Settles spare (InTurn C before bs) (fun _ => I all) (bs.forM f) s := by
  induction bs generalizing before s with
  | nil => exact settles_pure trivial (by simpa [hall] using h)
  | cons b bs ih =>
    refine (step before b bs s hall h).bind And.left fun _ s' hC hI => ?_
    have rest := ih (by simpa using hall) hI
    exact rest.congr ⟨fun h => ⟨hC, h⟩, And.right⟩

theorem settles_mapM {f : β → Attempt ε σ γ} {C : β → Prop} {P : β → γ → Prop} {bs : List β}
    (step : ∀ b ∈ bs, ∀ s, Settles spare (C b) (fun c _ => P b c) (f b) s) :
    Settles spare (∀ b ∈ bs, C b) (fun cs _ => List.Forall₂ P bs cs) (bs.mapM f) s := by
  induction bs generalizing s with
  | nil => exact settles_pure nofun .nil
  | cons b bs ih =>
    rw [List.mapM_cons, List.forall_mem_cons]
    refine (step b List.mem_cons_self s).bind And.left fun c s₁ hb hc => ?_
    refine (ih fun b' hb' => step b' (List.mem_cons_of_mem b hb')).bind And.right
      fun cs s₂ hbs hcs => ?_
    exact settles_pure ⟨hb, hbs⟩ (.cons hc hcs)

end Attempt

end SpirvKernel
