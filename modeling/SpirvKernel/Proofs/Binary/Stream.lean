import SpirvKernel.Binary.Instruction

/-!
# Cutting any stream

A stream of words from anywhere is read one instruction at a time, until none can be cut off. Reading
comes to an end on every stream and loses no word. There is no other way to write the stream as
instructions followed by words that start with none.
-/

namespace SpirvKernel.Instruction

/-! ## Words as bits -/

theorem toNat_upper (w : Word) : (w >>> 16).toNat = w.toNat / 65536 := by
  rw [UInt32.toNat_shiftRight, Nat.shiftRight_eq_div_pow]
  rfl

theorem lower_eq (w : Word) : (w &&& 0xFFFF).toUInt16 = UInt16.ofNat w.toNat := by
  apply UInt16.toNat_inj.mp
  have hmask : UInt32.toNat 0xFFFF = 2 ^ 16 - 1 := rfl
  rw [UInt32.toNat_toUInt16, UInt32.toNat_and, UInt16.toNat_ofNat', hmask,
    Nat.and_two_pow_sub_one_eq_mod, Nat.mod_mod]

theorem head_eq_or (i : Instruction) :
    i.head = UInt32.ofNat i.size <<< 16 ||| i.code.toUInt32 := by
  have hcode := i.code.toNat_lt
  -- What the shift leaves of the size has room for the code below it.
  have hshift : (UInt32.ofNat i.size <<< 16).toNat = (i.size % 65536) <<< 16 := by
    rw [UInt32.toNat_shiftLeft, UInt32.toNat_ofNat']
    simp only [UInt32.reduceToNat, Nat.reduceMod, Nat.shiftLeft_eq]
    omega
  apply UInt32.toNat_inj.mp
  rw [UInt32.toNat_or, hshift, UInt16.toNat_toUInt32, ← Nat.shiftLeft_add_eq_or_of_lt hcode,
    Nat.shiftLeft_eq, head, UInt32.toNat_ofNat']
  omega

/-! ## One instruction -/

/-- Cuts one instruction off. The upper half of the first word says how many words it takes. -/
def next? : List Word → Option (Instruction × List Word)
  | [] => none
  | w :: ws =>
    let size := (w >>> 16).toNat
    if size = 0 ∨ ws.length + 1 < size then none
    else some (⟨(w &&& 0xFFFF).toUInt16, ws.take (size - 1)⟩, ws.drop (size - 1))

/-- No instruction starts here: the first word is missing, or counts no word or too many. -/
def Stuck (ws : List Word) : Prop :=
  ws = [] ∨ ∃ w, ws.head? = some w ∧ (w >>> 16 = 0 ∨ ws.length < (w >>> 16).toNat)

theorem next?_eq_none_iff (ws : List Word) : next? ws = none ↔ Stuck ws := by
  cases ws with
  | nil => simp [next?, Stuck]
  | cons w ws =>
    have hzero : w >>> 16 = 0 ↔ (w >>> 16).toNat = 0 := UInt32.toNat_inj.symm
    simp only [next?, Stuck, hzero, ite_eq_left_iff, reduceCtorEq, imp_false, Decidable.not_not,
      List.head?_cons, Option.some.injEq, exists_eq_left', List.length_cons, false_or]

theorem next?_cons (w : Word) (ws : List Word) :
    next? (w :: ws) =
      if w.toNat / 65536 = 0 ∨ ws.length + 1 < w.toNat / 65536 then none
      else some (⟨UInt16.ofNat w.toNat, ws.take (w.toNat / 65536 - 1)⟩,
        ws.drop (w.toNat / 65536 - 1)) := by
  rw [next?, lower_eq, toNat_upper]

theorem fits_of_next? {ws ws' : List Word} {i : Instruction} (h : next? ws = some (i, ws')) :
    i.Fits := by
  cases ws with
  | nil => cases h
  | cons w ws =>
    have hw := w.toNat_lt
    rw [next?_cons] at h
    split at h
    · cases h
    · obtain ⟨rfl, -⟩ := Prod.mk.inj (Option.some.inj h)
      simp only [Fits, maxSize, size, List.length_take]
      omega

/-! ## The whole stream -/

/-- Instructions are cut off one after the other, until that is no longer possible. -/
inductive CutsOff : List Word → List Instruction → List Word → Prop
  | stop {ws : List Word} (h : next? ws = none) : CutsOff ws [] ws
  | step {ws ws' rest : List Word} {i : Instruction} {is : List Instruction}
      (h : next? ws = some (i, ws')) (tail : CutsOff ws' is rest) : CutsOff ws (i :: is) rest

/-- A way to write a stream: instructions that can be written, and then words that start with none. -/
structure IsCut (ws : List Word) (is : List Instruction) (rest : List Word) : Prop where
  fits : ∀ i ∈ is, i.Fits
  words : is.flatMap (fun i => (UInt32.ofNat (i.operands.length + 1) <<< 16 ||| i.code.toUInt32) ::
    i.operands) ++ rest = ws
  stuck : Stuck rest

variable {ws rest : List Word} {is : List Instruction}

theorem isCut_iff : IsCut ws is rest ↔
    (∀ i ∈ is, i.Fits) ∧ encodeAll is ++ rest = ws ∧ Stuck rest := by
  have hencode : encodeAll is = is.flatMap fun i =>
      (UInt32.ofNat (i.operands.length + 1) <<< 16 ||| i.code.toUInt32) :: i.operands := by
    unfold encodeAll
    congr 1
    funext i
    rw [encode, head_eq_or, size]
  rw [hencode]
  constructor
  · intro h
    exact ⟨h.fits, h.words, h.stuck⟩
  · rintro ⟨fits, words, stuck⟩
    exact ⟨fits, words, stuck⟩

theorem decodeAll_of_stuck (h : Stuck ws) : decodeAll ws = ([], ws) := by
  have hnext := (next?_eq_none_iff ws).mpr h
  cases ws with
  | nil => rw [decodeAll]
  | cons w ws =>
    rw [next?_cons] at hnext
    split at hnext
    next hcount => rw [decodeAll, if_pos hcount]
    next => cases hnext

/-- Any cut is the one that is read. -/
theorem IsCut.decodeAll_eq (h : IsCut ws is rest) : decodeAll ws = (is, rest) := by
  obtain ⟨fits, rfl, stuck⟩ := isCut_iff.mp h
  clear h
  induction is with
  | nil => exact decodeAll_of_stuck stuck
  | cons i is ih =>
    rw [encodeAll, List.flatMap_cons, List.append_assoc, ← encodeAll,
      decodeAll_encode_append i (fits i List.mem_cons_self),
      ih fun j hj => fits j (List.mem_cons_of_mem i hj)]

theorem CutsOff.fits (h : CutsOff ws is rest) : ∀ i ∈ is, i.Fits := by
  induction h with
  | stop => simp
  | step hnext _ ih =>
    intro j hj
    rcases List.mem_cons.mp hj with rfl | hj
    · exact fits_of_next? hnext
    · exact ih j hj

theorem CutsOff.stuck (h : CutsOff ws is rest) : Stuck rest := by
  induction h with
  | stop hnext => exact (next?_eq_none_iff _).mp hnext
  | step _ _ ih => exact ih

theorem cutsOff_decodeAll (ws : List Word) : CutsOff ws (decodeAll ws).1 (decodeAll ws).2 := by
  -- Each instruction takes a word, so reading ends.
  fun_induction decodeAll ws with
  | case1 => exact .stop rfl
  | case2 w ws size h =>
    refine .stop ?_
    rw [next?_cons, if_pos h]
  | case3 w ws size h is rest hd ih =>
    rw [hd] at ih
    refine .step ?_ ih
    rw [next?_cons, if_neg h]

/-- Every stream is cut into instructions in one way. -/
theorem decodeAll_sole_cut (ws : List Word) :
    ∃ is rest, decodeAll ws = (is, rest) ∧ CutsOff ws is rest ∧ IsCut ws is rest ∧
      ∀ js others, IsCut ws js others → js = is ∧ others = rest := by
  have hreads := cutsOff_decodeAll ws
  refine ⟨_, _, rfl, hreads, isCut_iff.mpr ⟨hreads.fits, encodeAll_decodeAll ws, hreads.stuck⟩, ?_⟩
  intro js others h
  rw [h.decodeAll_eq]
  exact ⟨rfl, rfl⟩

-- The last instruction asks for three words where two are left.
example : decodeAll [0x2008B, 5, 0x300F8, 1] = ([⟨139, [5]⟩], [0x300F8, 1]) := by decide +kernel

end SpirvKernel.Instruction
