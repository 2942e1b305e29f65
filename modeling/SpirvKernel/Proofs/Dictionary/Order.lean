import Mathlib.Algebra.GroupWithZero.Nat
import Mathlib.Data.List.Perm.Subperm
import SpirvKernel.Proofs.Dictionary.Distinctness

/-!
# The order of requests

Requests that are answered in one order are answered in any other. Which of them makes a declaration
depends on the order, and so do the identifiers. But the keys that are known in the end, the
capabilities and the number of identifiers drawn are the same.
-/

namespace SpirvKernel.Dictionary

open Attempt

/-! ## Dictionaries in good order -/

/-- What holds of a dictionary after any requests: all that is known could be declared again. -/
structure Whole (d : Dictionary) : Prop where
  distinct : d.Distinct
  noted : d.CapabilitiesNoted
  fits : ∀ i ∈ d.declarations, i.Fits
  limit : d.supply.next ≤ Supply.limit

def Knows (d : Dictionary) (k : Declaration) : Prop := (d.get? k).isSome

variable {d d₁ F e : Dictionary} {key k : Declaration}

theorem knows_iff : d.Knows k ↔ k ∈ d.known.map Prod.fst := by
  unfold Knows get?
  rw [List.lookup_isSome_iff, List.mem_map]
  simp only [beq_iff_eq, eq_comm (a := k)]

theorem Whole.parts (hd : d.Whole) {id : Id} (hk : d.get? k = some id) :
    ∃ parts, k.parts.mapM d.get? = some parts ∧ (k.instruction id parts).Fits := by
  obtain ⟨i, hi, made⟩ := hd.distinct.orderly.sound.filed k id hk
  rw [Declaration.instruction?_eq (hd.distinct.regular k id hk)] at made
  obtain ⟨parts, hparts, rfl⟩ := Option.map_eq_some_iff.mp made
  exact ⟨parts, hparts, hd.fits _ hi⟩

theorem Whole.of_steps (hd : d.Whole) (steps : Steps d d₁) (distinct : d₁.Distinct)
    (noted : d₁.CapabilitiesNoted) : d₁.Whole := by
  obtain ⟨is, ids, ascends⟩ := steps.ascends
  refine ⟨distinct, noted, fun i hi => ?_, ascends.limit hd.limit⟩
  rw [ascends.declarations] at hi
  exact (List.mem_append.mp hi).elim (hd.fits i) (ascends.fits i)

theorem whole_new (supply : Supply) (limit : supply.next ≤ Supply.limit) : (new supply).Whole :=
  ⟨distinct_new supply, nofun, nofun, limit⟩

theorem Whole.reserve (hd : d.Whole) {n : Nat} (room : d.supply.next + n ≤ Supply.limit) :
    Whole { d with supply := ⟨d.supply.next + n⟩ } :=
  ⟨hd.distinct.of_same ((Step.reserve n room).orderly hd.distinct.orderly) rfl rfl, hd.noted, hd.fits, room⟩

/-- However a request for a key ends, the dictionary stays whole. -/
theorem Whole.file (hd : d.Whole) (regular : key.Regular) : (file key d).2.Whole := by
  have distinct := (file_leaves regular hd.distinct).distinct
  have ends := file_ends regular d
  generalize Dictionary.file key d = r at ends distinct
  cases ends with
  | done files | failed files => exact hd.of_steps files.steps distinct (files.noted hd.noted)
  | wasted files room =>
    exact hd.of_steps (files.steps.trans (Step.reserve 1 room).steps) distinct (files.noted hd.noted)

/-! ## What requests ask for -/

/-- So many numbers more, each counted on from the last. -/
def numbered : Nat → List Word → List Word
  | 0, ws => ws
  | n + 1, ws => numbered n (ws ++ [UInt32.ofNat ws.length])

theorem numbered_add (m n : Nat) (ws : List Word) : numbered n (numbered m ws) = numbered (m + n) ws := by
  induction m generalizing ws with
  | zero => rw [Nat.zero_add, numbered]
  | succ m ih => rw [Nat.succ_add, numbered, numbered, ih]

/-- The change when `keys` are asked for, and `n` without a key, `m` of them host numbers. -/
structure KeysAdded (keys : List Declaration) (n m : Nat) (d d₁ : Dictionary) : Prop where
  kept : ∀ k, d.Knows k → d₁.Knows k
  known : ∀ k ∈ keys, d₁.Knows k
  noted : d.CapabilitiesNoted → d₁.CapabilitiesNoted
  surplus : d₁.surplus = d.surplus + n
  specIds : d₁.specIds = numbered m d.specIds

/-- What `e` knows is in `F`, with `spare` identifiers to draw for declarations without a key. -/
structure PartOf (F : Dictionary) (spare : Nat) (e : Dictionary) : Prop where
  keys : (e.known.map Prod.fst).Nodup
  known : ∀ k, e.Knows k → F.Knows k
  capabilities : ∀ c ∈ e.capabilities, c ∈ F.capabilities
  surplus : e.surplus + spare ≤ F.surplus

/-- What `x` asks for. It succeeds in every dictionary on its way to one that holds all of it. -/
structure Asks {α : Type} (keys : List Declaration) (n m : Nat) (x : Declare α) : Prop where
  done : ∀ d a d₁, x d = (.ok a, d₁) → KeysAdded keys n m d d₁
  goes : ∀ F : Dictionary, F.Whole → (∀ k ∈ keys, F.Knows k) → ∀ spare e, PartOf F (spare + n) e →
    ∃ a e₁, x e = (.ok a, e₁) ∧ PartOf F spare e₁

section

variable {α β : Type} {ks ks' : List Declaration} {n n' m m' : Nat}

theorem KeysAdded.trans {d₂ : Dictionary} (h : KeysAdded ks n m d d₁) (h' : KeysAdded ks' n' m' d₁ d₂) :
    KeysAdded (ks ++ ks') (n + n') (m + m') d d₂ where
  kept k hk := h'.kept k (h.kept k hk)
  known k hk := (List.mem_append.mp hk).elim (fun hk => h'.kept k (h.known k hk)) (h'.known k)
  noted hd := h'.noted (h.noted hd)
  surplus := by rw [h'.surplus, h.surplus]; omega
  specIds := by rw [h'.specIds, h.specIds, numbered_add]

theorem asks_pure (a : α) : Asks [] 0 0 (pure a : Declare α) where
  done := by
    rintro d _ _ ⟨⟩
    exact ⟨fun _ => id, nofun, id, (Int.add_zero _).symm, rfl⟩
  goes F _ _ spare e he := ⟨a, e, rfl, he⟩

theorem Asks.bind {x : Declare α} {f : α → Declare β} (hx : Asks ks n m x)
    (hf : ∀ a, Asks ks' n' m' (f a)) : Asks (ks ++ ks') (n + n') (m + m') (x >>= f) where
  done d b d₂ run := by
    obtain ⟨a, d₁, run₁, run₂⟩ := bind_eq_ok_iff.mp run
    exact (hx.done d a d₁ run₁).trans ((hf a).done d₁ b d₂ run₂)
  goes F hF known spare e he := by
    rw [Nat.add_comm n, ← Nat.add_assoc] at he
    obtain ⟨a, e₁, run₁, he₁⟩ :=
      hx.goes F hF (fun k hk => known k (List.mem_append_left _ hk)) (spare + n') e he
    obtain ⟨b, e₂, run₂, he₂⟩ :=
      (hf a).goes F hF (fun k hk => known k (List.mem_append_right _ hk)) spare e₁ he₁
    exact ⟨b, e₂, bind_eq_ok_iff.mpr ⟨a, e₁, run₁, run₂⟩, he₂⟩

end

/-! ## Room -/

theorem PartOf.size_le {n : Nat} (h : PartOf F n e) : e.size ≤ F.size := by
  have subset : e.known.map Prod.fst ⊆ F.known.map Prod.fst := fun k hk =>
    knows_iff.mp (h.known k (knows_iff.mpr hk))
  have := (h.keys.subperm subset).length_le
  simpa [size] using this

theorem PartOf.size_lt {n : Nat} (h : PartOf F n e) (new : ¬ e.Knows k) (hk : F.Knows k) :
    e.size < F.size := by
  have keys : (k :: e.known.map Prod.fst).Nodup :=
    List.nodup_cons.mpr ⟨fun hk => new (knows_iff.mpr hk), h.keys⟩
  have subset : k :: e.known.map Prod.fst ⊆ F.known.map Prod.fst :=
    List.cons_subset.mpr ⟨knows_iff.mp hk, fun k hk => knows_iff.mp (h.known k (knows_iff.mpr hk))⟩
  have := (keys.subperm subset).length_le
  simp only [List.length_cons, List.length_map] at this
  exact this

theorem PartOf.room {n : Nat} (h : PartOf F n e) (hF : F.Whole) :
    e.supply.next + n ≤ Supply.limit := by
  have size := h.size_le
  have surplus := h.surplus
  have limit := hF.limit
  unfold Dictionary.surplus at surplus
  omega

theorem PartOf.room_for_key {n : Nat} (h : PartOf F n e) (hF : F.Whole) (new : ¬ e.Knows k)
    (hk : F.Knows k) : e.supply.next + 1 ≤ Supply.limit := by
  have size := h.size_lt new hk
  have surplus := h.surplus
  have limit := hF.limit
  unfold Dictionary.surplus at surplus
  omega

/-! ## Keys -/

theorem need_goes {n : Nat} (hF : F.Whole) {id : Id} (hk : F.get? key = some id) (he : PartOf F n e) :
    ∃ e₁, need key.capability? e = (.ok (), e₁) ∧ e₁.known = e.known ∧ PartOf F n e₁ := by
  cases hc : key.capability? with
  | none => exact ⟨e, rfl, rfl, he⟩
  | some c =>
    refine ⟨_, rfl, rfl, { he with capabilities := fun c' hc' => ?_ }⟩
    rcases CapabilitySet.mem_insert.mp hc' with rfl | hc'
    · exact hF.noted key id c' hk hc
    · exact he.capabilities c' hc'

theorem mapM_file_goes {n : Nat} {keys : List Declaration}
    (h : ∀ k ∈ keys, ∀ e, PartOf F n e → ∃ id e₁, file k e = (.ok id, e₁) ∧ PartOf F n e₁)
    (he : PartOf F n e) : ∃ ids e₁, keys.mapM file e = (.ok ids, e₁) ∧ PartOf F n e₁ := by
  induction keys generalizing e with
  | nil => exact ⟨[], e, rfl, he⟩
  | cons k keys ih =>
    obtain ⟨id, e₁, run₁, he₁⟩ := h k List.mem_cons_self e he
    obtain ⟨ids, e₂, run₂, he₂⟩ := ih (fun k hk => h k (List.mem_cons_of_mem _ hk)) he₁
    exact ⟨id :: ids, e₂, mapM_cons_ok_iff.mpr ⟨id, ids, e₁, run₁, run₂, rfl⟩, he₂⟩

theorem PartOf.record {n : Nat} (h : PartOf F n e) (new : e.get? key = none) (hk : F.Knows key)
    (i : Instruction) : PartOf F n (e.record key i) where
  keys := by
    have : key ∉ e.known.map Prod.fst := by
      rw [← knows_iff, Knows, new]
      nofun
    exact List.nodup_cons.mpr ⟨this, h.keys⟩
  known k := by
    unfold Knows
    rw [get?_record]
    split
    · rename_i heq
      exact fun _ => heq ▸ hk
    · exact h.known k
  capabilities := h.capabilities
  surplus := by
    have := h.surplus
    simp only [Dictionary.surplus, Dictionary.record, extend, size, List.length_cons] at this ⊢
    omega

theorem file_goes {n : Nat} (hF : F.Whole) (hk : F.Knows key) (he : PartOf F n e) :
    ∃ id e₁, file key e = (.ok id, e₁) ∧ PartOf F n e₁ := by
  induction hw : key.weight using Nat.strongRecOn generalizing key e with
  | _ w ih =>
    subst hw
    obtain ⟨id, hid⟩ := Option.isSome_iff_exists.mp hk
    have regular := hF.distinct.regular key id hid
    obtain ⟨parts, hparts, fits⟩ := hF.parts hid
    rw [file_eq, once, bind_apply, state_apply]
    dsimp only
    cases hnew : e.get? key with
    | some id' => exact ⟨id', e, rfl, he⟩
    | none =>
      obtain ⟨e₁, hneed, same, he₁⟩ := need_goes hF hid he
      have known : ∀ part ∈ key.parts, F.Knows part := isSome_mapM_iff.mp (by rw [hparts]; rfl)
      obtain ⟨ids, e₂, hfile, he₂⟩ := mapM_file_goes
        (fun part hp e he => ih part.weight (Declaration.weight_of_mem_parts hp) (known part hp) he rfl) he₁
      obtain ⟨files, hids⟩ := files_parts hfile
      -- The parts weigh less, so filing them did not file the key.
      have new : e₂.get? key = none := by
        rw [files.get?_of_lt (Nat.sub_lt key.one_le_weight Nat.one_pos), get?_eq_of_known same, hnew]
      have room : e₂.supply.next + 1 ≤ Supply.limit :=
        he₂.room_for_key hF (by simp [Knows, new]) hk
      have length : parts.length = ids.length := by
        rw [length_of_mapM_some hparts, length_of_mapM_some hids]
      have fits := Declaration.fits_instruction (b := e₂.nextId) length fits
      refine ⟨e₂.nextId, e₂.record key (key.instruction e₂.nextId ids), ?_, he₂.record new hk _⟩
      simp only [bind_assoc]
      rw [bind_apply, hneed]
      dsimp only
      rw [bind_apply, hfile]
      dsimp only
      rw [bind_apply, make, if_pos room, if_pos fits]
      rfl

theorem asks_file (regular : key.Regular) : Asks [key] 0 0 (file key) where
  done d id d₁ run := by
    have ends := file_ends regular d
    rw [run] at ends
    cases ends with
    | done files known =>
      refine ⟨fun k hk => ?_, fun k hk => ?_, files.noted, ?_, files.specIds⟩
      · obtain ⟨id', hid'⟩ := Option.isSome_iff_exists.mp hk
        exact Option.isSome_iff_exists.mpr ⟨id', files.steps.get? hid'⟩
      · rw [List.mem_singleton.mp hk]
        exact Option.isSome_iff_exists.mpr ⟨id, known⟩
      · rw [files.surplus]
        simp
  goes F hF known spare e he := file_goes hF (known key List.mem_cons_self) he

/-! ## Declarations without a key -/

theorem keysAdded_nil {n m : Nat} (known : d₁.known = d.known)
    (capabilities : d₁.capabilities = d.capabilities) (next : d₁.supply.next = d.supply.next + n)
    (specIds : d₁.specIds = numbered m d.specIds) : KeysAdded [] n m d d₁ where
  kept k hk := by rwa [Knows, get?_eq_of_known known]
  known := nofun
  noted hd := by rwa [CapabilitiesNoted, get?_eq_of_known known, capabilities]
  surplus := by
    simp only [Dictionary.surplus, size, known, next]
    omega
  specIds := specIds

theorem PartOf.loose {spare n : Nat} (h : PartOf F (spare + n) e) {e₁ : Dictionary}
    (known : e₁.known = e.known) (capabilities : e₁.capabilities = e.capabilities)
    (next : e₁.supply.next = e.supply.next + n) : PartOf F spare e₁ where
  keys := known ▸ h.keys
  known k := by
    rw [Knows, get?_eq_of_known known]
    exact h.known k
  capabilities := capabilities ▸ h.capabilities
  surplus := by
    have := h.surplus
    simp only [Dictionary.surplus, size, known, next] at this ⊢
    omega

theorem asks_define {op : Opcode} {type : Option Id} {operands : List Word}
    (small : operands.length ≤ 2) : Asks [] 1 0 (define op type operands) where
  done d id d₁ run := by
    rw [define_apply] at run
    dsimp only at run
    split at run
    · split at run
      · cases run
        exact keysAdded_nil rfl rfl rfl rfl
      · cases run
    · cases run
  goes F hF _ spare e he := by
    have room := he.room hF
    have fits : (Instruction.of op ((type.map Id.word).toList ++ e.nextId.word :: operands)).Fits := by
      apply Instruction.fits_of
      cases type <;> simp [Instruction.maxSize] <;> omega
    rw [define_apply]
    dsimp only
    rw [if_pos (by omega), if_pos fits]
    exact ⟨_, _, rfl, he.loose rfl rfl rfl⟩

theorem asks_hostNumber (word : Id) : Asks [] 1 1 (hostNumber word) := by
  have note (id : Id) : Asks [] 0 1 (do
      let d ← Attempt.state
      let spec := UInt32.ofNat d.specIds.length
      decorate id .specId spec
      Attempt.change fun d => { d with specIds := d.specIds ++ [spec] }
      pure id) := by
    constructor
    · rintro d _ _ ⟨⟩
      exact keysAdded_nil rfl rfl rfl rfl
    · intro F _ _ spare e he
      exact ⟨_, _, rfl, he.loose rfl rfl rfl⟩
  exact (asks_define (by simp)).bind note

/-! ## Requests -/

/-- The keys that a request asks for itself. -/
def Request.keys : Request → List Declaration
  | .groupVariable elem .single => [.pointer elem .workgroup]
  | .groupVariable elem (.fixed n) => [.pointer (.array elem n) .workgroup]
  | .groupVariable elem .dynamic => [.ofType .i32, .ofType elem]
  | r => r.key?.toList

/-- How many identifiers it draws for declarations without a key. -/
def Request.loose : Request → Nat
  | .groupVariable _ .dynamic => 4
  | .groupVariable .. => 1
  | _ => 0

/-- How many host numbers are among them. -/
def Request.numbers : Request → Nat
  | .groupVariable _ .dynamic => 1
  | _ => 0

theorem asks_dynamicArrayPointer (elem : Ty) :
    Asks [.ofType .i32, .ofType elem] 3 1 (dynamicArrayPointer elem) := by
  have pointer (element length : Id) : Asks [] 2 0 (do
      let array ← define .typeArray none [element.word, length.word]
      define .typePointer none [StorageClass.workgroup.number, array.word]) :=
    (asks_define (by simp)).bind fun _ => asks_define (by simp)
  have array (word : Id) : Asks [.ofType elem] 3 1 (do
      let element ← file (.ofType elem)
      let length ← hostNumber word
      let array ← define .typeArray none [element.word, length.word]
      define .typePointer none [StorageClass.workgroup.number, array.word]) :=
    (asks_file (Declaration.regular_ofType _)).bind fun element =>
      (asks_hostNumber word).bind (pointer element)
  rw [dynamicArrayPointer, typeId_eq_file, typeId_eq_file]
  exact (asks_file (Declaration.regular_ofType _)).bind array

theorem asks_groupVariable (elem : Ty) (extent : Extent) :
    Asks (Request.keys (.groupVariable elem extent)) (Request.loose (.groupVariable elem extent))
      (Request.numbers (.groupVariable elem extent)) (groupVariable elem extent) := by
  have last (pointer : Id) :
      Asks [] 1 0 (define .variable (some pointer) [StorageClass.workgroup.number]) :=
    asks_define (by simp)
  cases extent with
  | single =>
    change Asks _ _ _ (pointerId elem .workgroup >>= _)
    rw [pointerId_eq_file]
    exact (asks_file (Declaration.regular_pointer _ _)).bind last
  | fixed n =>
    change Asks _ _ _ (pointerId (.array elem n) .workgroup >>= _)
    rw [pointerId_eq_file]
    exact (asks_file (Declaration.regular_pointer _ _)).bind last
  | dynamic =>
    change Asks _ _ _ (dynamicArrayPointer elem >>= _)
    exact (asks_dynamicArrayPointer elem).bind last

theorem Request.keys_of_key? {r : Request} (h : r.key? = some key) :
    r.keys = [key] ∧ r.loose = 0 ∧ r.numbers = 0 := by
  cases r <;> cases h <;> exact ⟨rfl, rfl, rfl⟩

theorem asks_perform (r : Request) : Asks r.keys r.loose r.numbers (perform r) := by
  cases hk : r.key? with
  | some key =>
    have keys := Request.keys_of_key? hk
    rw [perform_eq_file hk, keys.1, keys.2.1, keys.2.2]
    exact asks_file (regular_of_key? hk)
  | none =>
    cases r with
    | type | pointer | signature | constant | word | builtin => cases hk
    | groupVariable elem extent => exact asks_groupVariable elem extent

theorem asks_requests (rs : List Request) : Asks (rs.flatMap Request.keys) (rs.map Request.loose).sum
    (rs.map Request.numbers).sum (rs.mapM perform) := by
  induction rs with
  | nil => exact asks_pure []
  | cons r rs ih =>
    rw [List.mapM_cons, List.flatMap_cons, List.map_cons, List.map_cons, List.sum_cons, List.sum_cons]
    apply (asks_perform r).bind
    intro id
    have last := ih.bind fun ids => asks_pure (id :: ids)
    rwa [List.append_nil] at last

/-! ## Requests in any order -/

section

variable {rs rs' : List Request} {ids ids' : List Id} {F' : Dictionary}

theorem steps_of_requests (run : rs.mapM perform d = (.ok ids, d₁)) : Steps d d₁ :=
  (respects_mapM Steps.refl (fun _ _ _ => Steps.trans) perform_steps rs).of_ok run

theorem Whole.requests (hd : d.Whole) (run : rs.mapM perform d = (.ok ids, d₁)) : d₁.Whole := by
  have distinct : Respects (fun d d₁ : Dictionary => d.Distinct → d₁.Distinct) (rs.mapM perform) :=
    respects_mapM (fun _ => id) (fun _ _ _ h h' hd => h' (h hd)) (fun r _ => perform_distinct r) rs
  have taken := (asks_requests rs).done d ids d₁ run
  exact hd.of_steps (steps_of_requests run) (distinct.of_ok run hd.distinct) (taken.noted hd.noted)

theorem partOf_of_steps (hd : d.Whole) (steps : Steps d F) {n : Nat}
    (surplus : F.surplus = d.surplus + n) : PartOf F n d where
  keys := hd.distinct.orderly.keys
  known k hk := by
    obtain ⟨id, hid⟩ := Option.isSome_iff_exists.mp hk
    exact Option.isSome_iff_exists.mpr ⟨id, steps.get? hid⟩
  capabilities _ hc := steps.capabilities hc
  surplus := by omega

/-- Requests that succeed in one order succeed in any other, and nothing more is declared. -/
theorem requests_perm (hd : d.Whole) (run : rs.mapM perform d = (.ok ids, F)) (perm : rs'.Perm rs) :
    ∃ ids' F', rs'.mapM perform d = (.ok ids', F') ∧ PartOf F 0 F' := by
  have taken := (asks_requests rs).done d ids F run
  apply (asks_requests rs').goes F (hd.requests run)
  · intro k hk
    exact taken.known k ((perm.flatMap_right _).mem_iff.mp hk)
  · rw [Nat.zero_add, (perm.map _).sum_nat]
    exact partOf_of_steps hd (steps_of_requests run) taken.surplus

/-- The same keys, capabilities and numbers. -/
structure Agrees (d d' : Dictionary) : Prop where
  known : ∀ k, d.Knows k ↔ d'.Knows k
  next : d'.supply.next = d.supply.next
  size : d'.size = d.size
  capabilities : d'.capabilities = d.capabilities
  specIds : d'.specIds = d.specIds

theorem agrees_of_partOf (toward : PartOf F 0 F') (toward' : PartOf F' 0 F)
    (specIds : F'.specIds = F.specIds) : F.Agrees F' := by
  have size : F'.size = F.size := Nat.le_antisymm toward.size_le toward'.size_le
  refine ⟨fun k => ⟨toward'.known k, toward.known k⟩, ?_, size, ?_, specIds⟩
  · have surplus := toward.surplus
    have surplus' := toward'.surplus
    unfold Dictionary.surplus at surplus surplus'
    omega
  · ext c
    have iff : c ∈ F'.capabilities ↔ c ∈ F.capabilities :=
      ⟨toward.capabilities c, toward'.capabilities c⟩
    exact Bool.eq_iff_iff.mpr iff

theorem requests_agree (hd : d.Whole) (perm : rs'.Perm rs) (run : rs.mapM perform d = (.ok ids, F))
    (run' : rs'.mapM perform d = (.ok ids', F')) : F.Agrees F' := by
  have toward : PartOf F 0 F' := by
    obtain ⟨_, _, again, toward⟩ := requests_perm hd run perm
    rw [run'] at again
    cases again
    exact toward
  have toward' : PartOf F' 0 F := by
    obtain ⟨_, _, again, toward⟩ := requests_perm hd run' perm.symm
    rw [run] at again
    cases again
    exact toward
  have taken := (asks_requests rs).done d ids F run
  have taken' := (asks_requests rs').done d ids' F' run'
  refine agrees_of_partOf toward toward' ?_
  rw [taken'.specIds, taken.specIds, (perm.map _).sum_nat]

end

end SpirvKernel.Dictionary
