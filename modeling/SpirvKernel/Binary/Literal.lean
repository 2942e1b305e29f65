import SpirvKernel.Binary.Word
import SpirvKernel.Text.Utf8

/-!
# String literals

A string operand is its UTF-8 bytes packed four to a word, closed by at least one zero byte.
-/

namespace SpirvKernel.Literal

/-- Four bytes to a word, with one to four zero bytes after the last. -/
def pack : List UInt8 → List Word
  | a :: b :: c :: d :: bytes => .ofBytes a b c d :: pack bytes
  | [a, b, c] => [.ofBytes a b c 0]
  | [a, b] => [.ofBytes a b 0 0]
  | [a] => [.ofBytes a 0 0 0]
  | [] => [0]

/-- The bytes before the first zero byte and the number of words read to find it. -/
def unpack? : List Word → Option (List UInt8 × Nat)
  | [] => none
  | w :: ws =>
    let text := (Word.bytes w).takeWhile (· ≠ 0)
    if text.length < 4 then some (text, 1)
    else (unpack? ws).map fun (bytes, used) => (text ++ bytes, used + 1)

def encode (s : String) : List Word := pack (Text.Utf8.encode s.toList)

/-- The text that starts a word sequence and the number of words it takes. -/
def decode? (ws : List Word) : Option (String × Nat) :=
  (unpack? ws).map fun (bytes, used) => (String.ofList (Text.Utf8.decode bytes), used)

/-! ## Reading back what was written -/

theorem length_pack (bytes : List UInt8) : (pack bytes).length = bytes.length / 4 + 1 := by
  fun_induction pack bytes with
  | case1 a b c d bytes ih => simp only [List.length_cons, ih]; omega
  | case2 | case3 | case4 | case5 => simp

theorem unpack?_cons (a b c d : UInt8) (ws : List Word) :
    unpack? (.ofBytes a b c d :: ws) =
      let text := [a, b, c, d].takeWhile (· ≠ 0)
      if text.length < 4 then some (text, 1)
      else (unpack? ws).map fun (bytes, used) => (text ++ bytes, used + 1) := by
  rw [unpack?, Word.bytes_ofBytes]

/-- What is read back ends at the first zero byte, which may be one of the text's own. -/
theorem unpack?_pack_append (bytes : List UInt8) (ws : List Word) :
    unpack? (pack bytes ++ ws) =
      some (bytes.takeWhile (· ≠ 0), (bytes.takeWhile (· ≠ 0)).length / 4 + 1) := by
  fun_induction pack bytes with
  | case1 a b c d bytes ih =>
    rw [List.cons_append, unpack?_cons, ih]
    simp only [List.takeWhile_cons, List.takeWhile_nil]
    by_cases ha : a = 0 <;> by_cases hb : b = 0 <;> by_cases hc : c = 0 <;>
      by_cases hd : d = 0 <;> simp [ha, hb, hc, hd]
    omega
  | case2 a b c =>
    rw [List.cons_append, unpack?_cons]
    by_cases ha : a = 0 <;> by_cases hb : b = 0 <;> by_cases hc : c = 0 <;> simp [ha, hb, hc]
  | case3 a b =>
    rw [List.cons_append, unpack?_cons]
    by_cases ha : a = 0 <;> by_cases hb : b = 0 <;> simp [ha, hb]
  | case4 a =>
    rw [List.cons_append, unpack?_cons]
    by_cases ha : a = 0 <;> simp [ha]
  | case5 => rfl

end SpirvKernel.Literal
