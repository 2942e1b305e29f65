import SpirvKernel.Binary.Opcode
import SpirvKernel.Binary.Word

/-!
# Instructions

An instruction is a head word, its total word count over its opcode, followed by its operands. A
stream of words is cut into instructions from the left, as far as the word counts make sense.
-/

namespace SpirvKernel

structure Instruction where
  code : UInt16
  operands : List Word
  deriving DecidableEq, Repr

namespace Instruction

def of (op : Opcode) (operands : List Word) : Instruction := ⟨op.code, operands⟩

/-- The number of words, the head included. -/
def size (i : Instruction) : Nat := i.operands.length + 1

/-- The word count takes 16 bits. -/
def maxSize : Nat := 0xFFFF

def Fits (i : Instruction) : Prop := i.size ≤ maxSize

instance (i : Instruction) : Decidable i.Fits := inferInstanceAs (Decidable (_ ≤ _))

def head (i : Instruction) : Word := UInt32.ofNat (i.size * 65536 + i.code.toNat)

def encode (i : Instruction) : List Word := i.head :: i.operands

def encodeAll (is : List Instruction) : List Word := is.flatMap encode

/-- Cuts a stream into instructions, up to a word count that is zero or runs past the end. -/
def decodeAll : List Word → List Instruction × List Word
  | [] => ([], [])
  | w :: ws =>
    let size := w.toNat / 65536
    if size = 0 ∨ ws.length + 1 < size then ([], w :: ws)
    else
      let (is, rest) := decodeAll (ws.drop (size - 1))
      (⟨UInt16.ofNat w.toNat, ws.take (size - 1)⟩ :: is, rest)
termination_by ws => ws.length
decreasing_by simp only [List.length_cons, List.length_drop]; omega

/-! ## Reading back what was written -/

theorem encodeAll_append (is js : List Instruction) :
    encodeAll (is ++ js) = encodeAll is ++ encodeAll js := List.flatMap_append

theorem toNat_head (i : Instruction) (h : i.Fits) :
    i.head.toNat = i.size * 65536 + i.code.toNat := by
  have hc := i.code.toNat_lt
  unfold Fits maxSize at h
  rw [head, UInt32.toNat_ofNat_of_lt' (by unfold UInt32.size; omega)]

theorem decodeAll_encode_append (i : Instruction) (h : i.Fits) (ws : List Word) :
    decodeAll (i.encode ++ ws) = (i :: (decodeAll ws).1, (decodeAll ws).2) := by
  have hc := i.code.toNat_lt
  have hs : i.head.toNat / 65536 = i.operands.length + 1 := by
    rw [toNat_head i h, size]; omega
  have hk : UInt16.ofNat i.head.toNat = i.code := by
    rw [← UInt16.toNat_inj, toNat_head i h, UInt16.toNat_ofNat']; omega
  rw [encode, List.cons_append, decodeAll]
  simp only [hs, hk, Nat.add_sub_cancel, List.length_append]
  rw [if_neg (by omega), List.drop_left, List.take_left]

theorem decodeAll_encodeAll (is : List Instruction) (h : ∀ i ∈ is, i.Fits) :
    decodeAll (encodeAll is) = (is, []) := by
  induction is with
  | nil => rw [encodeAll, List.flatMap_nil, decodeAll]
  | cons i is ih =>
    rw [encodeAll, List.flatMap_cons, decodeAll_encode_append i (h i List.mem_cons_self),
      ← encodeAll, ih fun j hj => h j (List.mem_cons_of_mem i hj)]

/-- Cutting loses nothing: the instructions and the rest are the stream. -/
theorem encodeAll_decodeAll (ws : List Word) :
    encodeAll (decodeAll ws).1 ++ (decodeAll ws).2 = ws := by
  fun_induction decodeAll ws with
  | case1 => rfl
  | case2 w ws size h => rfl
  | case3 w ws size h is rest hd ih =>
    rw [hd] at ih
    have hw := w.toNat_lt
    have hl : (ws.take (size - 1)).length = size - 1 := by rw [List.length_take]; omega
    have hh : head ⟨UInt16.ofNat w.toNat, ws.take (size - 1)⟩ = w := by
      rw [← UInt32.toNat_inj, head, Instruction.size]
      simp only [hl, UInt32.toNat_ofNat', UInt16.toNat_ofNat']
      omega
    rw [encodeAll, List.flatMap_cons, ← encodeAll, encode, hh]
    simp only [List.cons_append, List.append_assoc, ih, List.take_append_drop]

end Instruction

end SpirvKernel
