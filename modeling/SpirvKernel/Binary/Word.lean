/-!
# Words

A SPIR-V module is a sequence of 32-bit words. In a file a word takes four bytes, the low byte
first.
-/

namespace SpirvKernel

abbrev Word := UInt32

namespace Word

/-- The four bytes of a word, the low byte first. -/
def bytes (w : Word) : List UInt8 :=
  [UInt8.ofNat w.toNat, UInt8.ofNat (w.toNat / 256), UInt8.ofNat (w.toNat / 65536),
    UInt8.ofNat (w.toNat / 16777216)]

def ofBytes (a b c d : UInt8) : Word :=
  UInt32.ofNat (a.toNat + 256 * b.toNat + 65536 * c.toNat + 16777216 * d.toNat)

theorem toNat_ofBytes (a b c d : UInt8) :
    (ofBytes a b c d).toNat = a.toNat + 256 * b.toNat + 65536 * c.toNat + 16777216 * d.toNat := by
  have ha := a.toNat_lt; have hb := b.toNat_lt; have hc := c.toNat_lt; have hd := d.toNat_lt
  rw [ofBytes, UInt32.toNat_ofNat_of_lt' (by unfold UInt32.size; omega)]

@[simp] theorem bytes_ofBytes (a b c d : UInt8) : bytes (ofBytes a b c d) = [a, b, c, d] := by
  have ha := a.toNat_lt; have hb := b.toNat_lt; have hc := c.toNat_lt; have hd := d.toNat_lt
  simp only [bytes, toNat_ofBytes, List.cons.injEq, and_true, ← UInt8.toNat_inj,
    UInt8.toNat_ofNat']
  omega

/-- Low 32 bits first; a value of more than 32 bits takes two words. -/
def ofLiteral (bits : UInt64) (wide : Bool) : List Word :=
  if wide then [bits.toUInt32, (bits >>> 32).toUInt32] else [bits.toUInt32]

end Word

end SpirvKernel
