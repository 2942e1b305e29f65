/-!
# UTF-8

Encoding is the standard one. Decoding accepts every byte sequence: where the bytes are ill-formed,
the longest start of a well-formed sequence (or one byte, if there is none) is read as U+FFFD.
-/

namespace SpirvKernel.Text.Utf8

def encode (cs : List Char) : List UInt8 := cs.flatMap String.utf8EncodeChar

/-- U+FFFD, which stands for bytes that encode no character. -/
def replacement : Char := Char.ofNat 0xFFFD

def IsContinuation (b : UInt8) : Prop := 0x80 ≤ b ∧ b ≤ 0xBF

instance (b : UInt8) : Decidable (IsContinuation b) := inferInstanceAs (Decidable (_ ∧ _))

/-- Whether `b` may come second after the lead byte `a`. The last four conditions rule out overlong
forms, surrogates and numbers past U+10FFFF. -/
def IsSecond (a b : UInt8) : Prop :=
  0xC2 ≤ a ∧ a ≤ 0xF4 ∧ IsContinuation b ∧ (a = 0xE0 → 0xA0 ≤ b) ∧ (a = 0xED → b ≤ 0x9F) ∧
    (a = 0xF0 → 0x90 ≤ b) ∧ (a = 0xF4 → b ≤ 0x8F)

instance (a b : UInt8) : Decidable (IsSecond a b) := by unfold IsSecond; infer_instance

/-- The low six bits, which a continuation byte carries. -/
def payload (b : UInt8) : Nat := b.toNat % 64

def decode : List UInt8 → List Char
  | [] => []
  | a :: bytes =>
    if a < 0x80 then Char.ofNat a.toNat :: decode bytes
    else match bytes with
      | [] => [replacement]
      | b :: bytes₂ =>
        if ¬ IsSecond a b then replacement :: decode (b :: bytes₂)
        else if a < 0xE0 then Char.ofNat (a.toNat % 32 * 64 + payload b) :: decode bytes₂
        else match bytes₂ with
          | [] => [replacement]
          | c :: bytes₃ =>
            if ¬ IsContinuation c then replacement :: decode (c :: bytes₃)
            else if a < 0xF0 then
              Char.ofNat (a.toNat % 16 * 4096 + payload b * 64 + payload c) :: decode bytes₃
            else match bytes₃ with
              | [] => [replacement]
              | d :: bytes₄ =>
                if ¬ IsContinuation d then replacement :: decode (d :: bytes₄)
                else
                  Char.ofNat
                    (a.toNat % 8 * 262144 + payload b * 4096 + payload c * 64 + payload d) ::
                      decode bytes₄

/-! ## Reading back what was written -/

theorem toNat_byte (n : Nat) (h : n < 256) : (UInt8.ofNat n).toNat = n :=
  UInt8.toNat_ofNat_of_lt' h

theorem isContinuation_iff (b : UInt8) : IsContinuation b ↔ 128 ≤ b.toNat ∧ b.toNat ≤ 191 := by
  simp only [IsContinuation, UInt8.le_iff_toNat_le, UInt8.reduceToNat]

theorem isSecond_iff (a b : UInt8) :
    IsSecond a b ↔ 194 ≤ a.toNat ∧ a.toNat ≤ 244 ∧ (128 ≤ b.toNat ∧ b.toNat ≤ 191) ∧
      (a.toNat = 224 → 160 ≤ b.toNat) ∧ (a.toNat = 237 → b.toNat ≤ 159) ∧
      (a.toNat = 240 → 144 ≤ b.toNat) ∧ (a.toNat = 244 → b.toNat ≤ 143) := by
  simp only [IsSecond, isContinuation_iff, UInt8.le_iff_toNat_le, ← UInt8.toNat_inj,
    UInt8.reduceToNat]

theorem decode_one (a : UInt8) (bytes : List UInt8) (h : a.toNat < 128) :
    decode (a :: bytes) = Char.ofNat a.toNat :: decode bytes := by
  rw [decode.eq_def]
  simp only [UInt8.lt_iff_toNat_lt, UInt8.reduceToNat, h, if_true]

theorem decode_two (a b : UInt8) (bytes : List UInt8) (h : IsSecond a b) (ha : a.toNat < 224) :
    decode (a :: b :: bytes) = Char.ofNat (a.toNat % 32 * 64 + payload b) :: decode bytes := by
  have h' := (isSecond_iff a b).mp h
  rw [decode.eq_def]
  simp only [UInt8.lt_iff_toNat_lt, UInt8.reduceToNat, h, ha, not_true, if_true, if_false]
  rw [if_neg (by omega)]

theorem decode_three (a b c : UInt8) (bytes : List UInt8) (h : IsSecond a b) (hc : IsContinuation c)
    (ha : 224 ≤ a.toNat) (ha' : a.toNat < 240) :
    decode (a :: b :: c :: bytes) =
      Char.ofNat (a.toNat % 16 * 4096 + payload b * 64 + payload c) :: decode bytes := by
  rw [decode.eq_def]
  simp only [UInt8.lt_iff_toNat_lt, UInt8.reduceToNat, h, hc, ha', not_true, if_true, if_false]
  rw [if_neg (by omega), if_neg (by omega)]

theorem decode_four (a b c d : UInt8) (bytes : List UInt8) (h : IsSecond a b)
    (hc : IsContinuation c) (hd : IsContinuation d) (ha : 240 ≤ a.toNat) :
    decode (a :: b :: c :: d :: bytes) =
      Char.ofNat (a.toNat % 8 * 262144 + payload b * 4096 + payload c * 64 + payload d) ::
        decode bytes := by
  rw [decode.eq_def]
  simp only [UInt8.lt_iff_toNat_lt, UInt8.reduceToNat, h, hc, hd, not_true, if_false]
  rw [if_neg (by omega), if_neg (by omega), if_neg (by omega)]

theorem char_ofNat_eq (c : Char) (n : Nat) (h : n = c.val.toNat) : Char.ofNat n = c := by
  rw [h]; exact Char.ofNat_toNat c

theorem decode_encodeChar_append (c : Char) (bytes : List UInt8) :
    decode (String.utf8EncodeChar c ++ bytes) = c :: decode bytes := by
  have hv : c.val.toNat < 0xD800 ∨ 0xDFFF < c.val.toNat ∧ c.val.toNat < 0x110000 := c.valid
  unfold String.utf8EncodeChar
  dsimp only
  split
  · rw [List.singleton_append, decode_one _ _ (by rw [toNat_byte _ (by omega)]; omega),
      toNat_byte _ (by omega), char_ofNat_eq c _ rfl]
  · split
    · rw [List.cons_append, List.singleton_append, decode_two, char_ofNat_eq c]
      · rw [payload, toNat_byte _ (by omega), toNat_byte _ (by omega)]; omega
      · rw [isSecond_iff, toNat_byte _ (by omega), toNat_byte _ (by omega)]; omega
      · rw [toNat_byte _ (by omega)]; omega
    · split
      · simp only [List.cons_append, List.nil_append]
        rw [decode_three, char_ofNat_eq c]
        · simp only [payload, toNat_byte (c.val.toNat / 4096 % 16 + 224) (by omega),
            toNat_byte (c.val.toNat / 64 % 64 + 128) (by omega),
            toNat_byte (c.val.toNat % 64 + 128) (by omega)]
          omega
        · rw [isSecond_iff, toNat_byte _ (by omega), toNat_byte _ (by omega)]; omega
        · rw [isContinuation_iff, toNat_byte _ (by omega)]; omega
        · rw [toNat_byte _ (by omega)]; omega
        · rw [toNat_byte _ (by omega)]; omega
      · simp only [List.cons_append, List.nil_append]
        rw [decode_four, char_ofNat_eq c]
        · simp only [payload, toNat_byte (c.val.toNat / 262144 % 8 + 240) (by omega),
            toNat_byte (c.val.toNat / 4096 % 64 + 128) (by omega),
            toNat_byte (c.val.toNat / 64 % 64 + 128) (by omega),
            toNat_byte (c.val.toNat % 64 + 128) (by omega)]
          omega
        · rw [isSecond_iff, toNat_byte _ (by omega), toNat_byte _ (by omega)]; omega
        · rw [isContinuation_iff, toNat_byte _ (by omega)]; omega
        · rw [isContinuation_iff, toNat_byte _ (by omega)]; omega
        · rw [toNat_byte _ (by omega)]; omega

/-- Encoding loses nothing, whatever bytes follow. -/
theorem decode_encode_append (cs : List Char) (bytes : List UInt8) :
    decode (encode cs ++ bytes) = cs ++ decode bytes := by
  induction cs with
  | nil => rfl
  | cons c cs ih =>
    rw [encode, List.flatMap_cons, List.append_assoc, decode_encodeChar_append, ← encode, ih]
    rfl
end SpirvKernel.Text.Utf8
