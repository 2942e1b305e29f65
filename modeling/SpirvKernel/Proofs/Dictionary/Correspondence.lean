import Mathlib.Data.Finite.Prod
import Mathlib.Logic.Equiv.Fintype
import SpirvKernel.Proofs.Dictionary.Order
import SpirvKernel.Proofs.Naming

/-!
# Identifiers that correspond

Two runs of the same requests in different orders give different identifiers. Those of the one
correspond to those of the other by a bijection, which leaves what was drawn before the runs as it is.
-/

namespace SpirvKernel.Dictionary

open Attempt Instruction

variable {d d₁ F F' : Dictionary} {k : Declaration} {id : Id}

/-! ## What is new -/

theorem Orderly.toNat_lt (hd : d.Orderly) (hk : d.get? k = some id) : id.word.toNat < d.supply.next :=
  hd.readable.below _ (hd.sound.known hk)

theorem loose_of_variable {x : Declare Id} (hx : Respects Steps x) (hd : d.Orderly)
    (run : (x >>= fun p => define .variable (some p) [StorageClass.workgroup.number]) d = (.ok id, d₁)) :
    d₁.Loose id.word ∧ d.supply.next ≤ id.word.toNat := by
  obtain ⟨p, d₂, run₂, run₁⟩ := bind_eq_ok_iff.mp run
  have steps := hx.of_ok run₂
  have hd₂ := steps.orderly hd
  rw [define_apply] at run₁
  dsimp only at run₁
  split at run₁
  · rename_i room
    split at run₁
    · cases run₁
      have next := toNat_nextId room
      have below := steps.next_le
      refine ⟨⟨?_, fun k id hk hword => ?_⟩, by omega⟩
      · simp only [extend, results_append]
        refine List.mem_append_right _ ?_
        simp [results, Instruction.result?, inSlot_of, Opcode.format, Format.read]
      · have := hd₂.toNat_lt hk
        rw [hword] at this
        omega
    · cases run₁
  · cases run₁

theorem loose_of_perform {r : Request} (hr : r.key? = none) (hd : d.Orderly)
    (run : perform r d = (.ok id, d₁)) : d₁.Loose id.word ∧ d.supply.next ≤ id.word.toNat := by
  cases r with
  | type | pointer | signature | constant | word | builtin => cases hr
  | groupVariable elem extent =>
    have pointer (pointee : Ty) : Respects Steps (pointerId pointee .workgroup) := fun d =>
      ((pointerId_declares pointee .workgroup).below d).steps
    cases extent with
    | single => exact loose_of_variable (pointer elem) hd run
    | fixed n => exact loose_of_variable (pointer (.array elem n)) hd run
    | dynamic => exact loose_of_variable (fun d => (dynamicArrayPointer_runs elem d).steps) hd run

/-! ## What a run gives -/

theorem known_of_requests {zs : List (Request × Id)}
    (run : (zs.map Prod.fst).mapM perform d = (.ok (zs.map Prod.snd), F)) {r : Request}
    (hz : (r, id) ∈ zs) (hr : r.key? = some k) : F.get? k = some id := by
  induction zs generalizing d with
  | nil => cases hz
  | cons z zs ih =>
    obtain ⟨_, _, d₁, hperform, rest, heq⟩ := mapM_cons_ok_iff.mp run
    obtain ⟨rfl, rfl⟩ := List.cons.inj heq
    rcases List.mem_cons.mp hz with rfl | hz
    · have known := (perform_declares hr).known d id (by rw [hperform])
      rw [hperform] at known
      exact (steps_of_requests rest).get? known
    · exact ih rest hz

/-- The identifiers of variables, in the order of the requests. -/
def looseWords (zs : List (Request × Id)) : List Word :=
  (zs.filter fun z => z.1.key?.isNone).map fun z => z.2.word

theorem looseWords_of_requests {zs : List (Request × Id)} (hd : d.Orderly)
    (run : (zs.map Prod.fst).mapM perform d = (.ok (zs.map Prod.snd), F)) :
    (looseWords zs).Nodup ∧ ∀ w ∈ looseWords zs, F.Loose w ∧ d.supply.next ≤ w.toNat := by
  induction zs generalizing d with
  | nil => exact ⟨.nil, nofun⟩
  | cons z zs ih =>
    obtain ⟨_, _, d₁, hperform, rest, heq⟩ := mapM_cons_ok_iff.mp run
    obtain ⟨rfl, rfl⟩ := List.cons.inj heq
    have steps : Steps d d₁ := by
      have := perform_steps z.1 d
      rwa [hperform] at this
    have hd₁ := steps.orderly hd
    obtain ⟨nodup, loose⟩ := ih hd₁ rest
    have later : ∀ w ∈ looseWords zs, F.Loose w ∧ d.supply.next ≤ w.toNat := fun w hw =>
      ⟨(loose w hw).1, steps.next_le.trans (loose w hw).2⟩
    cases hr : z.1.key? with
    | some k =>
      have same : looseWords (z :: zs) = looseWords zs := by simp [looseWords, hr]
      rw [same]
      exact ⟨nodup, later⟩
    | none =>
      have cons : looseWords (z :: zs) = z.2.word :: looseWords zs := by simp [looseWords, hr]
      obtain ⟨first, above⟩ := loose_of_perform hr hd hperform
      have below := hd₁.readable.below _ first.declared
      rw [cons, List.nodup_cons, List.forall_mem_cons]
      refine ⟨⟨fun hw => ?_, nodup⟩, ⟨first.steps hd₁ (steps_of_requests rest), above⟩, later⟩
      have := (loose _ hw).2
      omega

/-! ## Two runs -/

/-- A request with the identifiers that it gets in two runs. -/
structure Exchange where
  request : Request
  first : Id
  second : Id

def Exchange.swap (x : Exchange) : Exchange := ⟨x.request, x.second, x.first⟩

/-- The requests of the log lead from `d` to `F`, and in some order to `F'`. -/
structure Exchanged (d F F' : Dictionary) (log : List Exchange) : Prop where
  whole : d.Whole
  run : (log.map (·.request)).mapM perform d = (.ok (log.map (·.first)), F)
  other : ∃ log' : List Exchange, log'.Perm log ∧
    (log'.map (·.request)).mapM perform d = (.ok (log'.map (·.second)), F')

/-- Old identifiers to themselves, those of one key, and those of one request for a variable. -/
def Corresponds (d F F' : Dictionary) (log : List Exchange) (a b : Word) : Prop :=
  (a = b ∧ a.toNat < d.supply.next) ∨
    (∃ k i j, F.get? k = some i ∧ F'.get? k = some j ∧ i.word = a ∧ j.word = b) ∨
    ∃ x ∈ log, x.request.key? = none ∧ x.first.word = a ∧ x.second.word = b

variable {log : List Exchange} {a b b' : Word}

theorem Exchanged.swap (h : Exchanged d F F' log) : ∃ log' : List Exchange, log'.Perm log ∧
    Exchanged d F' F (log'.map Exchange.swap) := by
  obtain ⟨log', perm, run'⟩ := h.other
  refine ⟨log', perm, h.whole, ?_, log.map Exchange.swap, (perm.map _).symm, ?_⟩
  · simpa [Exchange.swap, Function.comp_def] using run'
  · simpa [Exchange.swap, Function.comp_def] using h.run

theorem Corresponds.swap {log' : List Exchange} (perm : log'.Perm log)
    (h : Corresponds d F F' log a b) : Corresponds d F' F (log'.map Exchange.swap) b a := by
  rcases h with ⟨rfl, h⟩ | ⟨k, i, j, hi, hj, ha, hb⟩ | ⟨x, hx, hr, ha, hb⟩
  · exact .inl ⟨rfl, h⟩
  · exact .inr (.inl ⟨k, j, i, hj, hi, hb, ha⟩)
  · exact .inr (.inr ⟨x.swap, List.mem_map_of_mem (perm.mem_iff.mpr hx), hr, hb, ha⟩)

theorem Steps.eq_of_lt (steps : Steps d F) (steps' : Steps d F') {i j : Id}
    (hi : F.get? k = some i) (hj : F'.get? k = some j) (h : i.word.toNat < d.supply.next) : i = j := by
  cases hold : d.get? k with
  | some id =>
    rw [steps.get? hold] at hi
    rw [steps'.get? hold] at hj
    cases hi
    cases hj
    rfl
  | none =>
    have := steps.le_toNat hold hi
    omega

theorem Exchanged.run_first (h : Exchanged d F F' log) :
    ((log.map fun x => (x.request, x.first)).map Prod.fst).mapM perform d =
      (.ok ((log.map fun x => (x.request, x.first)).map Prod.snd), F) := by
  simpa [Function.comp_def] using h.run

theorem Exchanged.loose (h : Exchanged d F F' log) :
    ((log.filter fun x => x.request.key?.isNone).map (·.first.word)).Nodup ∧
      ∀ x ∈ log, x.request.key? = none → F.Loose x.first.word ∧ d.supply.next ≤ x.first.word.toNat := by
  obtain ⟨nodup, loose⟩ := looseWords_of_requests h.whole.distinct.orderly h.run_first
  have words : looseWords (log.map fun x => (x.request, x.first)) =
      (log.filter fun x => x.request.key?.isNone).map (·.first.word) := by
    simp [looseWords, List.filter_map, Function.comp_def]
  rw [words] at nodup loose
  refine ⟨nodup, fun x hx hr => loose _ (List.mem_map_of_mem ?_)⟩
  exact List.mem_filter.mpr ⟨hx, by simp [hr]⟩

theorem Exchanged.functional (h : Exchanged d F F' log) (hab : Corresponds d F F' log a b)
    (hab' : Corresponds d F F' log a b') : b = b' := by
  obtain ⟨log', perm, run'⟩ := h.other
  have steps := steps_of_requests h.run
  have steps' := steps_of_requests run'
  have hF := (h.whole.requests h.run).distinct.orderly
  obtain ⟨nodup, loose⟩ := h.loose
  rcases hab with ⟨rfl, old⟩ | ⟨k, i, j, hi, hj, rfl, rfl⟩ | ⟨x, hx, hr, rfl, rfl⟩ <;>
    rcases hab' with ⟨rfl, old'⟩ | ⟨k', i', j', hi', hj', hword, rfl⟩ | ⟨x', hx', hr', hword, rfl⟩
  · rfl
  · rw [← hword] at old
    rw [← hword, steps.eq_of_lt steps' hi' hj' old]
  · -- A loose word is new, and `a` is old.
    have := (loose x' hx' hr').2
    rw [hword] at this
    omega
  · rw [steps.eq_of_lt steps' hi hj old']
  · -- Two keys with one identifier are one key.
    have hmem := (mem_known_iff hF.keys).mpr hi
    have hmem' := (mem_known_iff hF.keys).mpr hi'
    cases List.inj_on_of_nodup_map hF.ids hmem hmem' hword.symm
    rw [hj] at hj'
    cases hj'
    rfl
  · exact absurd hword.symm ((loose x' hx' hr').1.unkeyed k i hi)
  · have := (loose x hx hr).2
    omega
  · exact absurd hword ((loose x hx hr).1.unkeyed k' i' hi')
  · -- Two requests for variables that got one word are one request.
    have unkeyed : ∀ y ∈ log, y.request.key? = none →
        y ∈ log.filter fun x => x.request.key?.isNone := fun y hy hr =>
      List.mem_filter.mpr ⟨hy, by simp [hr]⟩
    rw [List.inj_on_of_nodup_map nodup (unkeyed x hx hr) (unkeyed x' hx' hr') hword.symm]

theorem Exchanged.oneToOne (h : Exchanged d F F' log) : OneToOne (Corresponds d F F' log) := by
  intro a a' b b' hab hab'
  constructor
  · rintro rfl
    exact h.functional hab hab'
  · rintro rfl
    obtain ⟨log', perm, swapped⟩ := h.swap
    exact swapped.functional (hab.swap perm) (hab'.swap perm)

theorem Exchanged.answered (h : Exchanged d F F' log) {x : Exchange} (hx : x ∈ log) :
    Corresponds d F F' log x.first.word x.second.word := by
  cases hr : x.request.key? with
  | none => exact .inr (.inr ⟨x, hx, hr, rfl, rfl⟩)
  | some k =>
    obtain ⟨log', perm, swapped⟩ := h.swap
    have first := known_of_requests h.run_first
      (List.mem_map_of_mem (f := fun x => (x.request, x.first)) hx) hr
    have second := known_of_requests swapped.run_first
      (List.mem_map_of_mem (f := fun x => (x.request, x.first))
        (List.mem_map_of_mem (f := Exchange.swap) (perm.mem_iff.mpr hx))) hr
    exact .inr (.inl ⟨k, x.first, x.second, first, second, rfl, rfl⟩)

/-- The identifiers of the two runs correspond by a bijection. -/
theorem Exchanged.exists_perm (h : Exchanged d F F' log) :
    ∃ σ : Equiv.Perm Word, (∀ w, w.toNat < d.supply.next → σ w = w) ∧
      ∀ x ∈ log, σ x.first.word = x.second.word := by
  have finite : Finite Word := Finite.of_injective UInt32.toFin fun _ _ => UInt32.toFin_inj.mp
  obtain ⟨σ, hσ⟩ := Equiv.Perm.exists_extending_pair
    (fun x : {x : Word × Word // Corresponds d F F' log x.1 x.2} => x.1.1) (fun x => x.1.2)
    (fun x y hxy => Subtype.ext (Prod.ext hxy ((h.oneToOne _ _ _ _ x.2 y.2).mp hxy)))
    fun x y hxy => Subtype.ext (Prod.ext ((h.oneToOne _ _ _ _ x.2 y.2).mpr hxy) hxy)
  refine ⟨σ, fun w hw => ?_, fun x hx => ?_⟩
  · exact hσ ⟨(w, w), .inl ⟨rfl, hw⟩⟩
  · exact hσ ⟨(x.first.word, x.second.word), h.answered hx⟩

end SpirvKernel.Dictionary
