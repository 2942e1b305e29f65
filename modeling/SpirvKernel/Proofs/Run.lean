import Mathlib.Data.List.Forall2
import SpirvKernel.Attempt

/-!
# Runs of attempts

When an attempt succeeds and with what; what holds of the state after a run, whether it succeeds or
fails.
-/

namespace SpirvKernel

namespace Attempt

variable {ε σ τ α β γ : Type}

/-! ## Successful runs -/

section

variable {s s' : σ}

theorem pure_ok_iff {a b : α} :
    (pure a : Attempt ε σ α) s = (.ok b, s') ↔ a = b ∧ s = s' := by
  simp

theorem fail_ok_iff {e : ε} {a : α} : (fail e : Attempt ε σ α) s = (.ok a, s') ↔ False := by
  simp

theorem state_ok_iff {t : σ} :
    (state : Attempt ε σ σ) s = (.ok t, s') ↔ s = t ∧ s = s' := by
  simp

theorem change_ok_iff {f : σ → σ} {u : Unit} :
    (change f : Attempt ε σ Unit) s = (.ok u, s') ↔ f s = s' := by
  simp

theorem require_ok_iff {e : ε} {o : Option α} {a : α} :
    (require e o : Attempt ε σ α) s = (.ok a, s') ↔ o = some a ∧ s = s' := by
  cases o <;> simp [require]

theorem ofExcept_ok_iff {x : Except ε α} {a : α} :
    (ofExcept x : Attempt ε σ α) s = (.ok a, s') ↔ x = .ok a ∧ s = s' := by
  cases x <;> simp [ofExcept]

theorem map_ok_iff {f : α → β} {x : Attempt ε σ α} {b : β} :
    (f <$> x) s = (.ok b, s') ↔ ∃ a, x s = (.ok a, s') ∧ f a = b := by
  rw [map_apply]
  rcases x s with ⟨_ | a, t⟩
  · simp [Except.map]
  · simp only [Except.map, Prod.mk.injEq, Except.ok.injEq]
    constructor
    · rintro ⟨hb, ht⟩; exact ⟨a, ⟨rfl, ht⟩, hb⟩
    · rintro ⟨_, ⟨rfl, ht⟩, hb⟩; exact ⟨hb, ht⟩

theorem onPart_ok_iff {get : σ → τ} {set : σ → τ → σ} {x : Attempt ε τ α} {a : α} :
    onPart get set x s = (.ok a, s') ↔ ∃ t, x (get s) = (.ok a, t) ∧ set s t = s' := by
  rw [onPart_apply]
  rcases x (get s) with ⟨_ | a', t⟩
  · simp
  · simp only [Prod.mk.injEq, Except.ok.injEq]
    constructor
    · rintro ⟨ha, hs⟩; exact ⟨t, ⟨ha, rfl⟩, hs⟩
    · rintro ⟨_, ⟨ha, rfl⟩, hs⟩; exact ⟨ha, hs⟩

theorem tolerate_ok {p : ε → Bool} {x : Attempt ε σ α} {u : Unit}
    (h : tolerate p x s = (.ok u, s')) : ∃ r, x s = (r, s') ∧ ∀ e, r = .error e → p e = true := by
  unfold tolerate at h
  split at h
  · rename_i a s₁ hx
    cases h
    refine ⟨_, hx, ?_⟩
    rintro _ ⟨⟩
  · rename_i e s₁ hx
    split at h
    · rename_i he
      cases h
      refine ⟨_, hx, ?_⟩
      rintro _ ⟨⟩
      exact he
    · cases h

theorem ite_ok_iff {p : Prop} [Decidable p] {x y : Attempt ε σ α} {a : α} :
    (if p then x else y) s = (.ok a, s') ↔
      (p ∧ x s = (.ok a, s')) ∨ (¬ p ∧ y s = (.ok a, s')) := by
  by_cases h : p <;> simp [h]

/-! ## Lists of steps -/

theorem forM_nil_ok_iff {f : β → Attempt ε σ Unit} {u : Unit} :
    ([].forM f) s = (.ok u, s') ↔ s = s' := by
  simp [List.forM]

theorem forM_cons_ok_iff {f : β → Attempt ε σ Unit} {b : β} {bs : List β} {u : Unit} :
    ((b :: bs).forM f) s = (.ok u, s') ↔
      ∃ s₁, f b s = (.ok (), s₁) ∧ (bs.forM f) s₁ = (.ok u, s') := by
  rw [List.forM, bind_eq_ok_iff]
  constructor
  · rintro ⟨_, s₁, h, hs⟩; exact ⟨s₁, h, hs⟩
  · rintro ⟨s₁, h, hs⟩; exact ⟨(), s₁, h, hs⟩

theorem mapM_nil_ok_iff {f : β → Attempt ε σ γ} {cs : List γ} :
    ([].mapM f) s = (.ok cs, s') ↔ cs = [] ∧ s = s' := by
  rw [List.mapM_nil, pure_ok_iff, eq_comm]

theorem mapM_cons_ok_iff {f : β → Attempt ε σ γ} {b : β} {bs : List β} {cs : List γ} :
    ((b :: bs).mapM f) s = (.ok cs, s') ↔
      ∃ c rest s₁, f b s = (.ok c, s₁) ∧ (bs.mapM f) s₁ = (.ok rest, s') ∧ cs = c :: rest := by
  simp only [List.mapM_cons, bind_eq_ok_iff, pure_ok_iff]
  constructor
  · rintro ⟨c, s₁, hc, rest, s₂, hr, rfl, rfl⟩; exact ⟨c, rest, s₁, hc, hr, rfl⟩
  · rintro ⟨c, rest, s₁, hc, hr, rfl⟩; exact ⟨c, s₁, hc, rest, s', hr, rfl, rfl⟩

theorem mapM_append_ok_iff {f : β → Attempt ε σ γ} {as bs : List β} {cs : List γ} :
    ((as ++ bs).mapM f) s = (.ok cs, s') ↔ ∃ cs₁ cs₂ s₁, as.mapM f s = (.ok cs₁, s₁) ∧
      bs.mapM f s₁ = (.ok cs₂, s') ∧ cs = cs₁ ++ cs₂ := by
  simp only [List.mapM_append, bind_eq_ok_iff, pure_ok_iff]
  constructor
  · rintro ⟨cs₁, s₁, h₁, cs₂, s₂, h₂, rfl, rfl⟩; exact ⟨cs₁, cs₂, s₁, h₁, h₂, rfl⟩
  · rintro ⟨cs₁, cs₂, s₁, h₁, h₂, rfl⟩; exact ⟨cs₁, s₁, h₁, cs₂, s', h₂, rfl, rfl⟩

theorem mapM_eq_error {f : β → Attempt ε σ γ} {bs : List β} {e : ε}
    (h : bs.mapM f s = (.error e, s')) : ∃ before b after cs s₁, bs = before ++ b :: after ∧
      before.mapM f s = (.ok cs, s₁) ∧ f b s₁ = (.error e, s') := by
  induction bs generalizing s with
  | nil => cases h
  | cons b bs ih =>
    rw [List.mapM_cons] at h
    rcases bind_eq_error_iff.mp h with h | ⟨c, s₁, hb, h⟩
    · exact ⟨[], b, bs, [], s, rfl, rfl, h⟩
    · rcases bind_eq_error_iff.mp h with h | ⟨_, _, -, h⟩
      · obtain ⟨before, b', after, cs, s₂, rfl, hbefore, hfail⟩ := ih h
        exact ⟨b :: before, b', after, c :: cs, s₂, rfl,
          mapM_cons_ok_iff.mpr ⟨c, cs, s₁, hb, hbefore, rfl⟩, hfail⟩
      · cases h

theorem mapM_ok_of_forall₂ {κ κ' δ : Type} {K : κ → κ' → Prop} {P : γ → δ → Prop}
    {f : κ → Attempt ε σ γ} {g : κ' → Attempt ε σ δ} {ks : List κ} {ks' : List κ'}
    (hks : List.Forall₂ K ks ks') {cs : List γ} (h : ks.mapM f s = (.ok cs, s'))
    (step : ∀ k k' s c s', K k k' → f k s = (.ok c, s') → ∃ d, g k' s = (.ok d, s') ∧ P c d) :
    ∃ ds, ks'.mapM g s = (.ok ds, s') ∧ List.Forall₂ P cs ds := by
  induction hks generalizing s cs with
  | nil =>
    obtain ⟨rfl, rfl⟩ := mapM_nil_ok_iff.mp h
    exact ⟨[], rfl, .nil⟩
  | cons hk _ ih =>
    obtain ⟨c, rest, s₁, hc, hrest, rfl⟩ := mapM_cons_ok_iff.mp h
    obtain ⟨d, hd, hcd⟩ := step _ _ _ _ _ hk hc
    obtain ⟨ds, hds, hrest⟩ := ih hrest
    exact ⟨d :: ds, mapM_cons_ok_iff.mpr ⟨d, ds, s₁, hd, hds, rfl⟩, .cons hcd hrest⟩

theorem map_of_mapM_ok {δ : Type} {f : β → Attempt ε σ γ} {g : γ → δ} {k : β → δ} {bs : List β}
    {cs : List γ} (each : ∀ b s c s', f b s = (.ok c, s') → g c = k b)
    (h : bs.mapM f s = (.ok cs, s')) : cs.map g = bs.map k := by
  induction bs generalizing s cs with
  | nil =>
    obtain ⟨rfl, -⟩ := mapM_nil_ok_iff.mp h
    rfl
  | cons b bs ih =>
    obtain ⟨c, cs, s₁, hc, hrest, rfl⟩ := mapM_cons_ok_iff.mp h
    rw [List.map_cons, List.map_cons, each b s c s₁ hc, ih hrest]

theorem length_of_mapM_ok {f : β → Attempt ε σ γ} {bs : List β} {cs : List γ}
    (h : bs.mapM f s = (.ok cs, s')) : cs.length = bs.length := by
  have units : cs.map (fun _ => ()) = bs.map fun _ => () := map_of_mapM_ok (fun _ _ _ _ _ => rfl) h
  simpa using congrArg List.length units

end

/-! ## The state after any run -/

/-- However a run of `x` ends, the state before and the state after are related. -/
def Respects (R : σ → σ → Prop) (x : Attempt ε σ α) : Prop := ∀ s, R s (x s).2

theorem Respects.of_ok {R : σ → σ → Prop} {x : Attempt ε σ α} (h : Respects R x) {s s' : σ} {a : α}
    (hx : x s = (.ok a, s')) : R s s' := by
  have := h s
  rwa [hx] at this

section

variable {R : σ → σ → Prop}

theorem respects_pure (hr : ∀ s, R s s) (a : α) : Respects R (pure a : Attempt ε σ α) := hr

theorem respects_bind (ht : ∀ a b c, R a b → R b c → R a c) {x : Attempt ε σ α}
    {f : α → Attempt ε σ β} (hx : Respects R x) (hf : ∀ a, Respects R (f a)) :
    Respects R (x >>= f) := by
  intro s
  have hs := hx s
  rw [bind_apply]
  rcases h : x s with ⟨_ | a, t⟩ <;> rw [h] at hs
  · exact hs
  · exact ht s t _ hs (hf a t)

theorem respects_fail (hr : ∀ s, R s s) (e : ε) : Respects R (fail e : Attempt ε σ α) := hr

theorem respects_state (hr : ∀ s, R s s) : Respects R (state : Attempt ε σ σ) := hr

theorem respects_require (hr : ∀ s, R s s) (e : ε) (o : Option α) :
    Respects R (require e o : Attempt ε σ α) := by
  cases o <;> exact hr

theorem respects_mapM (hr : ∀ s, R s s) (ht : ∀ a b c, R a b → R b c → R a c)
    {f : β → Attempt ε σ γ} (hf : ∀ b, Respects R (f b)) (bs : List β) :
    Respects R (bs.mapM f) := by
  induction bs with
  | nil => exact respects_pure hr []
  | cons b bs ih =>
    rw [List.mapM_cons]
    refine respects_bind ht (hf b) fun c => ?_
    exact respects_bind ht ih fun cs => respects_pure hr (c :: cs)

theorem respects_tolerate {p : ε → Bool} {x : Attempt ε σ α} (hx : Respects R x) :
    Respects R (tolerate p x) := by
  intro s
  have hs := hx s
  unfold tolerate
  rcases h : x s with ⟨e | a, t⟩ <;> rw [h] at hs
  · by_cases he : p e <;> simpa [he] using hs
  · exact hs

theorem respects_forM (hr : ∀ s, R s s) (ht : ∀ a b c, R a b → R b c → R a c)
    {f : β → Attempt ε σ Unit} (hf : ∀ b, Respects R (f b)) (bs : List β) :
    Respects R (bs.forM f) := by
  induction bs with
  | nil => exact respects_pure hr ()
  | cons b bs ih => exact respects_bind ht (hf b) fun _ => ih

/-- If a run of `x` fails, the state before and the state after are related. -/
def FailsWith (R : σ → σ → Prop) (x : Attempt ε σ α) : Prop := ∀ s e s', x s = (.error e, s') → R s s'

theorem Respects.failsWith {x : Attempt ε σ α} (h : Respects R x) : FailsWith R x := by
  intro s e s' hx
  have := h s
  rwa [hx] at this

theorem failsWith_bind (ht : ∀ a b c, R a b → R b c → R a c) {x : Attempt ε σ α}
    {f : α → Attempt ε σ β} (hx : Respects R x) (hf : ∀ a, FailsWith R (f a)) :
    FailsWith R (x >>= f) := by
  intro s e s' h
  rcases bind_eq_error_iff.mp h with h | ⟨a, s₁, h, hrest⟩
  · exact hx.failsWith s e s' h
  · exact ht s s₁ s' (hx.of_ok h) (hf a s₁ e s' hrest)

end

end Attempt

theorem Attempt.exists_runs_of_isSome {ε σ : Type} {x y : Attempt ε σ Unit} {s : σ}
    (h : ((x >>= fun _ => y) s).1.toOption.isSome = true) :
    ∃ s₁ s₂, x s = (.ok (), s₁) ∧ y s₁ = (.ok (), s₂) := by
  rcases hxy : (x >>= fun _ => y) s with ⟨_ | _, s₂⟩
  · rw [hxy] at h
    cases h
  · obtain ⟨_, s₁, hx, hy⟩ := bind_eq_ok_iff.mp hxy
    exact ⟨s₁, s₂, hx, hy⟩

theorem exists_ok_of_any {ε α : Type} {x : Except ε α} {f : α → Bool}
    (h : x.toOption.any f = true) : ∃ a, x = .ok a ∧ f a = true := by
  cases x with
  | error e => cases h
  | ok a => exact ⟨a, rfl, h⟩

theorem exists_run_of_any {ε σ α : Type} {x : Attempt ε σ α} {s : σ} {f : α → σ → Bool}
    (h : (x s).1.toOption.any (f · (x s).2) = true) : ∃ a s', x s = (.ok a, s') ∧ f a s' = true := by
  obtain ⟨a, ha, hf⟩ := exists_ok_of_any h
  exact ⟨a, (x s).2, Prod.ext ha rfl, hf⟩

/-! ## Lists of lookups -/

section

variable {α β : Type} {f g : α → Option β} {as : List α} {bs : List β}

theorem mapM_nil_some_iff : [].mapM f = some bs ↔ bs = [] := by
  rw [List.mapM_nil, Option.pure_def, Option.some.injEq, eq_comm]

theorem mapM_cons_some_iff {a : α} :
    (a :: as).mapM f = some bs ↔ ∃ b rest, f a = some b ∧ as.mapM f = some rest ∧ b :: rest = bs := by
  simp only [List.mapM_cons, Option.bind_eq_bind, Option.bind_eq_some_iff, Option.pure_def,
    Option.some.injEq]
  constructor
  · rintro ⟨b, hb, rest, hrest, h⟩; exact ⟨b, rest, hb, hrest, h⟩
  · rintro ⟨b, rest, hb, hrest, h⟩; exact ⟨b, hb, rest, hrest, h⟩

theorem length_of_mapM_some (h : as.mapM f = some bs) : bs.length = as.length := by
  induction as generalizing bs with
  | nil =>
    obtain rfl := mapM_nil_some_iff.mp h
    rfl
  | cons a as ih =>
    obtain ⟨b, rest, -, hrest, rfl⟩ := mapM_cons_some_iff.mp h
    rw [List.length_cons, List.length_cons, ih hrest]

theorem mapM_mono (h : ∀ a b, f a = some b → g a = some b) (hf : as.mapM f = some bs) :
    as.mapM g = some bs := by
  induction as generalizing bs with
  | nil => exact hf
  | cons a as ih =>
    obtain ⟨b, rest, hb, hrest, rfl⟩ := mapM_cons_some_iff.mp hf
    exact mapM_cons_some_iff.mpr ⟨b, rest, h a b hb, ih hrest, rfl⟩

theorem mem_of_mapM (h : as.mapM f = some bs) : ∀ b ∈ bs, ∃ a ∈ as, f a = some b := by
  induction as generalizing bs with
  | nil => simp [mapM_nil_some_iff.mp h]
  | cons a as ih =>
    obtain ⟨b, rest, hb, hrest, rfl⟩ := mapM_cons_some_iff.mp h
    intro c hc
    rcases List.mem_cons.mp hc with rfl | hc
    · exact ⟨a, List.mem_cons_self, hb⟩
    · obtain ⟨a', ha', hf⟩ := ih hrest c hc
      exact ⟨a', List.mem_cons_of_mem a ha', hf⟩

theorem isSome_mapM_iff : (as.mapM f).isSome ↔ ∀ a ∈ as, (f a).isSome := by
  induction as with
  | nil => simp
  | cons a as ih =>
    rw [List.forall_mem_cons, ← ih, List.mapM_cons]
    cases f a with
    | none => simp
    | some b => cases as.mapM f <;> simp

end

/-! ## Lists in step -/

section

variable {α β : Type} {R : α → β → Prop} {as : List α} {bs : List β}

theorem forall₂_append {as' : List α} {bs' : List β} (hlength : as.length = bs.length)
    (h : List.Forall₂ R (as ++ as') (bs ++ bs')) : List.Forall₂ R as bs ∧ List.Forall₂ R as' bs' := by
  have first := List.forall₂_take_append _ _ _ h
  have last := List.forall₂_drop_append _ _ _ h
  rw [List.take_left' hlength] at first
  rw [List.drop_left' hlength] at last
  exact ⟨first, last⟩

theorem forall₂_modify (h : List.Forall₂ R as bs) {i : Nat} {f : α → α} {g : β → β}
    (hfg : ∀ a b, as[i]? = some a → R a b → R (f a) (g b)) :
    List.Forall₂ R (as.modify i f) (bs.modify i g) := by
  induction h generalizing i with
  | nil => simp
  | cons hab h ih =>
    cases i with
    | zero => exact .cons (hfg _ _ rfl hab) h
    | succ i => exact .cons hab (ih hfg)

theorem exists_right_of_forall₂ (h : List.Forall₂ R as bs) {a : α} (ha : a ∈ as) :
    ∃ b ∈ bs, R a b := by
  induction h with
  | nil => cases ha
  | @cons a' b as bs hab _ ih =>
    rcases List.mem_cons.mp ha with rfl | ha
    · exact ⟨b, List.mem_cons_self, hab⟩
    · obtain ⟨b', hb', hr⟩ := ih ha
      exact ⟨b', List.mem_cons_of_mem b hb', hr⟩

theorem exists_zip_of_forall₂ (h : List.Forall₂ R as bs) {b : β} (hb : b ∈ bs) :
    ∃ a, (a, b) ∈ as.zip bs ∧ R a b := by
  induction h with
  | nil => cases hb
  | @cons a b' as bs hab _ ih =>
    rcases List.mem_cons.mp hb with rfl | hb
    · exact ⟨a, List.mem_cons_self, hab⟩
    · obtain ⟨a', hmem, hr⟩ := ih hb
      exact ⟨a', List.mem_cons_of_mem _ hmem, hr⟩

theorem exists_left_of_forall₂ (h : List.Forall₂ R as bs) {b : β} (hb : b ∈ bs) :
    ∃ a ∈ as, R a b := by
  obtain ⟨a, hmem, hr⟩ := exists_zip_of_forall₂ h hb
  exact ⟨a, (List.of_mem_zip hmem).1, hr⟩

theorem exists_zip_trans {γ : Type} {cs : List γ} {c : γ} (h : List.Forall₂ R as bs) {a : α}
    (hca : (c, a) ∈ cs.zip as) : ∃ b, (c, b) ∈ cs.zip bs ∧ R a b := by
  induction h generalizing cs with
  | nil => simp at hca
  | @cons a' b as bs hab _ ih =>
    cases cs with
    | nil => cases hca
    | cons c' cs =>
      rw [List.zip_cons_cons] at hca ⊢
      rcases List.mem_cons.mp hca with heq | hca
      · cases heq
        exact ⟨b, List.mem_cons_self, hab⟩
      · obtain ⟨b', hmem, hr⟩ := ih hca
        exact ⟨b', List.mem_cons_of_mem _ hmem, hr⟩

end

end SpirvKernel
