import SpirvKernel.Proofs.Dictionary.Distinctness

/-!
# The order of declarations

Identifiers go up in the order of the declarations, whatever else takes identifiers from the supply
in between, and each declaration rests on earlier ones. Only variables and the lengths that the host
sets are decorated, each of them once.
-/

namespace SpirvKernel

open Instruction

/-- Whether an instruction declares what annotations are made for. -/
def Instruction.isDecorated (i : Instruction) : Bool :=
  i.opcode? = some .variable || i.opcode? = some .specConstant

/-- The identifier that an annotation is about. -/
def Instruction.target? (i : Instruction) : Option Word := i.operands.head?

namespace Dictionary

/-- A dictionary is asked for something, or its supply is used by others. -/
inductive Event where
  | request (r : Request)
  | reserve (count : Nat)
  deriving DecidableEq, Repr

/-- The dictionary after an event, which may have failed. -/
def Event.act : Event → Dictionary → Dictionary
  | .request r, d => (perform r d).2
  | .reserve count, d => (onSupply (Supply.reserve count) d).2

def actAll (events : List Event) (d : Dictionary) : Dictionary :=
  events.foldl (fun d e => e.act d) d

variable {d d₁ : Dictionary}

theorem Event.act_steps (e : Event) (d : Dictionary) : Steps d (e.act d) := by
  cases e with
  | request r => exact perform_steps r d
  | reserve count =>
    simp only [Event.act, onSupply, Attempt.onPart_apply, Supply.reserve]
    split
    · rename_i room; exact (Step.reserve count room).steps
    · exact .refl d

theorem actAll_steps (events : List Event) (d : Dictionary) : Steps d (actAll events d) := by
  induction events generalizing d with
  | nil => exact .refl d
  | cons e events ih => exact (e.act_steps d).trans (ih (e.act d))

/-! ## Annotations -/

theorem Step.annotates (h : Step d d₁) : d₁.annotations = d.annotations ∨
    ∃ i a b, d₁.annotations = d.annotations ++ [.of .decorate [d.nextId.word, a, b]] ∧
      i ∈ d₁.declarations ∧ i.result? = some d.nextId.word ∧ i.isDecorated ∧
      d.supply.next + 1 ≤ Supply.limit := by
  cases h with
  | need | reserve | unnamed => exact .inl rfl
  | @record key i new made fits room =>
    cases key with
    | type | pointer | constant | signature => exact .inl (List.append_nil _)
    | builtin b =>
      obtain ⟨p, -, made⟩ := Option.bind_eq_some_iff.mp made
      cases made
      exact .inr ⟨_, _, _, rfl, List.mem_append_right _ List.mem_cons_self, rfl, rfl, room⟩
  | length known room =>
    exact .inr ⟨_, _, _, rfl, List.mem_append_right _ List.mem_cons_self, rfl, rfl, room⟩

/-- An instruction decorates something that is declared. -/
def Decorates (d : Dictionary) (i : Instruction) : Prop :=
  ∃ w a b, i = .of .decorate [w, a, b] ∧ ∃ j ∈ d.declarations, j.result? = some w ∧ j.isDecorated

theorem Step.decorates (h : Step d d₁) {i : Instruction} (hi : d.Decorates i) : d₁.Decorates i := by
  obtain ⟨w, a, b, rfl, j, hj, hw⟩ := hi
  refine ⟨w, a, b, rfl, j, ?_, hw⟩
  rcases h.extends with hsame | ⟨k, hnew, -⟩
  · rwa [hsame]
  · rw [hnew]; exact List.mem_append_left _ hj

structure Arranged (d : Dictionary) : Prop where
  orderly : d.Orderly
  ascending : ((results d.declarations).map UInt32.toNat).Pairwise (· < ·)
  annotated : ∀ i ∈ d.annotations, d.Decorates i
  once : (d.annotations.map target?).Nodup

theorem arranged_new (supply : Supply) : (new supply).Arranged :=
  ⟨orderly_new supply, .nil, nofun, .nil⟩

theorem Step.arranged (h : Step d d₁) (hd : d.Arranged) : d₁.Arranged := by
  refine ⟨h.orderly hd.orderly, ?_, ?_, ?_⟩
  · rcases h.extends with hsame | ⟨i, hnew, hi, room⟩
    · rw [hsame]; exact hd.ascending
    · have above : ∀ w ∈ results d.declarations, w.toNat < d.nextId.word.toNat := by
        rw [toNat_nextId room]
        exact hd.orderly.readable.below
      simpa [hnew, hi, List.pairwise_append] using ⟨hd.ascending, above⟩
  · intro i hi
    rcases h.annotates with hsame | ⟨j, a, b, hnew, hj, hresult, hdecorated, -⟩
    · rw [hsame] at hi
      exact h.decorates (hd.annotated i hi)
    · rw [hnew] at hi
      rcases List.mem_append.mp hi with hi | hi
      · exact h.decorates (hd.annotated i hi)
      · exact ⟨_, a, b, List.mem_singleton.mp hi, j, hj, hresult, hdecorated⟩
  · rcases h.annotates with hsame | ⟨j, a, b, hnew, -, -, -, room⟩
    · rw [hsame]; exact hd.once
    · rw [hnew, List.map_append, List.nodup_append]
      refine ⟨hd.once, by simp, fun x hx y hy => ?_⟩
      obtain rfl : y = some d.nextId.word := by simpa [target?, of] using hy
      obtain ⟨i, hi, rfl⟩ := List.mem_map.mp hx
      obtain ⟨w, a, b, rfl, k, hk, hw, -⟩ := hd.annotated i hi
      -- The target was declared before, so it is not the identifier drawn now.
      intro heq
      obtain rfl : w = d.nextId.word := by simpa [target?, of] using heq
      exact hd.orderly.readable.nextId_not_mem room (mem_results.mpr ⟨k, hk, hw⟩)

theorem Steps.arranged (h : Steps d d₁) (hd : d.Arranged) : d₁.Arranged := by
  induction h with
  | refl => exact hd
  | tail _ hs ih => exact hs.arranged ih

/-- Declarations name only earlier ones, whatever fails in between. -/
theorem actAll_declares_in_order (first : Nat) (events : List Event) :
    let d := actAll events (new (.startingAt first))
    (∀ i ∈ d.declarations, i.result?.isSome) ∧
    ((results d.declarations).map UInt32.toNat).Pairwise (· < ·) ∧
    (∀ before i after, d.declarations = before ++ i :: after →
      ∀ w wide, w ∈ i.uses ++ i.mentions wide → w ∈ results before) ∧
    (∀ i ∈ d.annotations, ∃ w a b, i = .of .decorate [w, a, b] ∧
      ∃ j ∈ d.declarations, j.result? = some w ∧
        (j.opcode? = some .variable ∨ j.opcode? = some .specConstant)) ∧
    (d.annotations.map target?).Nodup := by
  intro d
  have arranged : d.Arranged := (actAll_steps events _).arranged (arranged_new _)
  refine ⟨fun i hi => ?_, arranged.ascending, fun before i after hd w wide hw => ?_,
    fun i hi => ?_, arranged.once⟩
  · obtain ⟨w, hw⟩ := arranged.orderly.named i hi
    exact Option.isSome_iff_exists.mpr ⟨w, hw⟩
  · have ordered := arranged.orderly.sound.ordered
    have quiet := arranged.orderly.sound.mentions i (by rw [hd]; simp) wide
    rw [quiet, List.append_nil] at hw
    rw [hd] at ordered
    simpa using ordered.uses_defined w hw
  · obtain ⟨w, a, b, rfl, j, hj, hw, hdecorated⟩ := arranged.annotated i hi
    exact ⟨w, a, b, rfl, j, hj, hw, by simpa [isDecorated] using hdecorated⟩

-- A reservation that fails and one that succeeds come between two requests.
example :
    let d := actAll [.request (.groupVariable (.int .i32) .dynamic), .reserve 0x400000, .reserve 3,
      .request (.builtin .globalInvocationId)] (new .new)
    d.annotations.map target? = [some 2, some 12] := by
  decide

end Dictionary

end SpirvKernel
