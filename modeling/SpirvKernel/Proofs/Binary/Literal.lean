import Mathlib.Data.List.TakeWhile
import SpirvKernel.Binary.Literal

/-!
# String literals there and back

A text that was written reads back up to its first U+0000, whatever words follow. A text that was read
is written as the words it was read from, if these are UTF-8 with nothing but zeros after its end, and
only then.
-/

namespace SpirvKernel.Literal

/-! ## Text as bytes -/

theorem ne_zero_of_mem_utf8EncodeChar {c : Char} (hc : c ≠ '\x00') :
    ∀ b ∈ String.utf8EncodeChar c, b ≠ 0 := by
  have hv : c.val.toNat < 0xD800 ∨ 0xDFFF < c.val.toNat ∧ c.val.toNat < 0x110000 := c.valid
  have hpos : c.val.toNat ≠ 0 := by
    intro h
    exact hc (Char.ext (UInt32.toNat_inj.mp h))
  have byte : ∀ n, 0 < n → n < 256 → UInt8.ofNat n ≠ 0 := by
    intro n h0 hn h
    have := congrArg UInt8.toNat h
    rw [Text.Utf8.toNat_byte n hn, UInt8.toNat_zero] at this
    omega
  unfold String.utf8EncodeChar
  dsimp only
  intro b hb
  split at hb
  · simp only [List.mem_singleton] at hb
    exact hb ▸ byte _ (by omega) (by omega)
  · split at hb
    · simp only [List.mem_cons, List.not_mem_nil, or_false] at hb
      rcases hb with rfl | rfl <;> exact byte _ (by omega) (by omega)
    · split at hb <;> simp only [List.mem_cons, List.not_mem_nil, or_false] at hb
      · rcases hb with rfl | rfl | rfl <;> exact byte _ (by omega) (by omega)
      · rcases hb with rfl | rfl | rfl | rfl <;> exact byte _ (by omega) (by omega)

theorem takeWhile_encode (cs : List Char) :
    (Text.Utf8.encode cs).takeWhile (· ≠ 0) = Text.Utf8.encode (cs.takeWhile (· ≠ '\x00')) := by
  -- Only U+0000 has a zero byte in its encoding.
  induction cs with
  | nil => rfl
  | cons c cs ih =>
    rw [Text.Utf8.encode, List.flatMap_cons, List.takeWhile_cons]
    by_cases hc : c = '\x00'
    · subst hc
      rfl
    · rw [List.takeWhile_append_of_pos, ← Text.Utf8.encode, ih]
      · simp [hc, Text.Utf8.encode]
      · intro b hb
        simpa using ne_zero_of_mem_utf8EncodeChar hc b hb

theorem decode_encode (cs : List Char) : Text.Utf8.decode (Text.Utf8.encode cs) = cs := by
  have h := Text.Utf8.decode_encode_append cs []
  rwa [List.append_nil, Text.Utf8.decode, List.append_nil] at h

theorem isValidUTF8_iff (bytes : List UInt8) :
    bytes.toByteArray.IsValidUTF8 ↔ ∃ cs, bytes = Text.Utf8.encode cs := by
  constructor
  · rintro ⟨cs, h⟩
    refine ⟨cs, ?_⟩
    have := congrArg (fun b => b.data.toList) h
    simpa [List.utf8Encode, Text.Utf8.encode] using this
  · rintro ⟨cs, rfl⟩
    exact ⟨cs, rfl⟩

theorem length_encode (s : String) : (encode s).length = s.utf8ByteSize / 4 + 1 := by
  obtain ⟨cs, rfl⟩ : ∃ cs, s = String.ofList cs := ⟨s.toList, String.ofList_toList.symm⟩
  rw [encode, length_pack, String.toList_ofList, String.utf8ByteSize, String.toByteArray_ofList,
    List.utf8Encode, List.size_toByteArray]
  rfl

/-! ## Reading what was written -/

/-- What a reader takes for the text: what stands before the first U+0000. -/
theorem decode?_encode_append (s : String) (ws : List Word) :
    decode? (encode s ++ ws) = some (String.ofList (s.toList.takeWhile (· ≠ '\x00')),
      (encode (String.ofList (s.toList.takeWhile (· ≠ '\x00')))).length) := by
  rw [decode?, encode, unpack?_pack_append, takeWhile_encode, Option.map_some]
  simp only [decode_encode, encode, length_pack, String.toList_ofList]

theorem takeWhile_of_notMem {s : String} (hs : '\x00' ∉ s.toList) :
    s.toList.takeWhile (· ≠ '\x00') = s.toList := by
  rw [List.takeWhile_eq_self_iff]
  intro c hc
  exact decide_eq_true fun heq => hs (heq ▸ hc)

theorem decode?_encode_append_of_notMem {s : String} (hs : '\x00' ∉ s.toList) (ws : List Word) :
    decode? (encode s ++ ws) = some (s, (encode s).length) := by
  rw [decode?_encode_append, takeWhile_of_notMem hs, String.ofList_toList]

/-! ## Writing what was read -/

theorem exists_ofBytes (w : Word) : ∃ a b c d, w = .ofBytes a b c d := by
  have hw := w.toNat_lt
  refine ⟨.ofNat w.toNat, .ofNat (w.toNat / 256), .ofNat (w.toNat / 65536),
    .ofNat (w.toNat / 16777216), ?_⟩
  apply UInt32.toNat_inj.mp
  rw [Word.toNat_ofBytes]
  simp only [UInt8.toNat_ofNat']
  omega

theorem pack_bytes_append (w : Word) (bytes : List UInt8) :
    pack (Word.bytes w ++ bytes) = w :: pack bytes := by
  obtain ⟨a, b, c, d, rfl⟩ := exists_ofBytes w
  rw [Word.bytes_ofBytes]
  rfl

theorem bytes_injective {v w : Word} (h : Word.bytes v = Word.bytes w) : v = w := by
  obtain ⟨a, b, c, d, rfl⟩ := exists_ofBytes v
  obtain ⟨a', b', c', d', rfl⟩ := exists_ofBytes w
  simp only [Word.bytes_ofBytes, List.cons.injEq, and_true] at h
  obtain ⟨rfl, rfl, rfl, rfl⟩ := h
  rfl

theorem bytes_pack (bytes : List UInt8) :
    (pack bytes).flatMap Word.bytes = bytes ++ List.replicate (4 - bytes.length % 4) 0 := by
  fun_induction pack bytes with
  | case1 a b c d bytes ih =>
    rw [List.flatMap_cons, Word.bytes_ofBytes, ih]
    simp [Nat.add_assoc]
  | case2 | case3 | case4 => simp [List.replicate]
  | case5 => rfl

variable {w : Word} {ws : List Word} {bytes : List UInt8} {n : Nat}

theorem length_bytes (w : Word) : (Word.bytes w).length = 4 := rfl

theorem takeWhile_bytes (h : 0 ∉ Word.bytes w) :
    (Word.bytes w).takeWhile (· ≠ 0) = Word.bytes w := by
  rw [List.takeWhile_eq_self_iff]
  intro b hb
  exact decide_eq_true fun heq => h (heq ▸ hb)

theorem length_takeWhile_bytes (h : 0 ∈ Word.bytes w) :
    ((Word.bytes w).takeWhile (· ≠ 0)).length < 4 := by
  have hstart := List.takeWhile_prefix (l := Word.bytes w) (· ≠ 0)
  refine Nat.lt_of_le_of_ne hstart.length_le fun hfull => ?_
  have hall := List.takeWhile_eq_self_iff.mp (hstart.eq_of_length hfull)
  simpa using hall 0 h

theorem unpack?_cons_of_mem (h : 0 ∈ Word.bytes w) :
    unpack? (w :: ws) = some ((Word.bytes w).takeWhile (· ≠ 0), 1) := by
  rw [unpack?, if_pos (length_takeWhile_bytes h)]

theorem unpack?_cons_of_notMem (h : 0 ∉ Word.bytes w) :
    unpack? (w :: ws) = (unpack? ws).map fun (more, k) => (Word.bytes w ++ more, k + 1) := by
  simp only [unpack?, takeWhile_bytes h]
  rw [length_bytes, if_neg (Nat.lt_irrefl 4)]

theorem unpack?_cons_eq_some (h : unpack? (w :: ws) = some (bytes, n)) :
    0 ∈ Word.bytes w ∧ bytes = (Word.bytes w).takeWhile (· ≠ 0) ∧ n = 1 ∨
      0 ∉ Word.bytes w ∧ ∃ more k, unpack? ws = some (more, k) ∧ bytes = Word.bytes w ++ more ∧
        n = k + 1 := by
  by_cases hzero : 0 ∈ Word.bytes w
  · left
    rw [unpack?_cons_of_mem hzero, Option.some.injEq, Prod.mk.injEq] at h
    exact ⟨hzero, h.1.symm, h.2.symm⟩
  · right
    rw [unpack?_cons_of_notMem hzero, Option.map_eq_some_iff] at h
    obtain ⟨⟨more, k⟩, hrest, heq⟩ := h
    obtain ⟨rfl, rfl⟩ := Prod.mk.inj heq
    exact ⟨hzero, more, k, hrest, rfl, rfl⟩

theorem unpack?_eq_takeWhile (h : unpack? ws = some (bytes, n)) :
    bytes = (ws.flatMap Word.bytes).takeWhile (· ≠ 0) := by
  induction ws generalizing bytes n with
  | nil => cases h
  | cons w ws ih =>
    rw [List.flatMap_cons, List.takeWhile_append, length_bytes]
    rcases unpack?_cons_eq_some h with ⟨hzero, rfl, -⟩ | ⟨hzero, more, k, hrest, rfl, -⟩
    · rw [if_neg (Nat.ne_of_lt (length_takeWhile_bytes hzero))]
    · rw [takeWhile_bytes hzero, length_bytes, if_pos rfl, ← ih hrest]

theorem unpack?_le_length (h : unpack? ws = some (bytes, n)) : 0 < n ∧ n ≤ ws.length := by
  induction ws generalizing bytes n with
  | nil => cases h
  | cons w ws ih =>
    rcases unpack?_cons_eq_some h with ⟨-, -, rfl⟩ | ⟨-, more, k, hrest, -, rfl⟩
    · simp
    · have := ih hrest
      simp only [List.length_cons]
      omega

theorem unpack?_take (h : unpack? ws = some (bytes, n)) : unpack? (ws.take n) = some (bytes, n) := by
  induction ws generalizing bytes n with
  | nil => cases h
  | cons w ws ih =>
    rcases unpack?_cons_eq_some h with ⟨hzero, rfl, rfl⟩ | ⟨hzero, more, k, hrest, rfl, rfl⟩
    · exact unpack?_cons_of_mem hzero
    · rw [List.take_succ_cons, unpack?_cons_of_notMem hzero, ih hrest]
      rfl

theorem pack_takeWhile_bytes_iff (h : 0 ∈ Word.bytes w) :
    pack ((Word.bytes w).takeWhile (· ≠ 0)) = [w] ↔
      ∀ b ∈ (Word.bytes w).dropWhile (· ≠ 0), b = 0 := by
  have hshort := length_takeWhile_bytes h
  have hsplit := List.takeWhile_append_dropWhile (p := (· ≠ 0)) (l := Word.bytes w)
  generalize (Word.bytes w).takeWhile (· ≠ 0) = text at *
  generalize (Word.bytes w).dropWhile (· ≠ 0) = after at *
  have hafter : after.length = 4 - text.length % 4 := by
    have := congrArg List.length hsplit
    rw [List.length_append, length_bytes] at this
    omega
  obtain ⟨v, hv⟩ : ∃ v, pack text = [v] := by
    rw [← List.length_eq_one_iff, length_pack]
    omega
  have hbytes : Word.bytes v = text ++ List.replicate after.length 0 := by
    have := bytes_pack text
    rwa [hv, ← hafter, List.flatMap_singleton] at this
  calc
    pack text = [w] ↔ v = w := by rw [hv, List.singleton_inj]
    _ ↔ Word.bytes v = Word.bytes w := ⟨congrArg Word.bytes, bytes_injective⟩
    _ ↔ after = List.replicate after.length 0 := by
      rw [hbytes, ← hsplit, List.append_cancel_left_eq, eq_comm]
    _ ↔ ∀ b ∈ after, b = 0 := by simp [List.eq_replicate_iff]

/-- Packing gives back the words exactly if only zeros follow the end of the text. -/
theorem pack_eq_take_iff (h : unpack? ws = some (bytes, n)) :
    pack bytes = ws.take n ↔ ∀ w ∈ ws[n - 1]?, ∀ b ∈ (Word.bytes w).dropWhile (· ≠ 0), b = 0 := by
  induction ws generalizing bytes n with
  | nil => cases h
  | cons w ws ih =>
    rcases unpack?_cons_eq_some h with ⟨hzero, rfl, rfl⟩ | ⟨-, more, k, hrest, rfl, rfl⟩
    · simpa using pack_takeWhile_bytes_iff hzero
    · obtain ⟨hpos, -⟩ := unpack?_le_length hrest
      obtain ⟨k, rfl⟩ := Nat.exists_eq_succ_of_ne_zero (Nat.ne_of_gt hpos)
      rw [pack_bytes_append, List.take_succ_cons, List.cons_inj_right, ih hrest]
      rfl

theorem decode?_eq_some_iff {t : String} : decode? ws = some (t, n) ↔
    ∃ bytes, unpack? ws = some (bytes, n) ∧ t = String.ofList (Text.Utf8.decode bytes) := by
  rw [decode?, Option.map_eq_some_iff]
  constructor
  · rintro ⟨⟨bytes, k⟩, hread, heq⟩
    obtain ⟨rfl, rfl⟩ := Prod.mk.inj heq
    exact ⟨bytes, hread, rfl⟩
  · rintro ⟨bytes, hread, rfl⟩
    exact ⟨(bytes, n), hread, rfl⟩

theorem decode?_le_length {t : String} (h : decode? ws = some (t, n)) :
    0 < n ∧ n ≤ ws.length := by
  obtain ⟨bytes, hread, -⟩ := decode?_eq_some_iff.mp h
  exact unpack?_le_length hread

theorem decode?_take {t : String} (h : decode? ws = some (t, n)) :
    decode? (ws.take n) = some (t, n) := by
  obtain ⟨bytes, hread, rfl⟩ := decode?_eq_some_iff.mp h
  exact decode?_eq_some_iff.mpr ⟨bytes, unpack?_take hread, rfl⟩

theorem encode_decode_of_encode_eq (h : unpack? ws = some (bytes, n))
    (heq : pack (Text.Utf8.encode (Text.Utf8.decode bytes)) = ws.take n) :
    Text.Utf8.encode (Text.Utf8.decode bytes) = bytes := by
  have hagain := unpack?_pack_append (Text.Utf8.encode (Text.Utf8.decode bytes)) (ws.drop n)
  rw [heq, List.take_append_drop, h, Option.some.injEq, Prod.mk.injEq, takeWhile_encode] at hagain
  have hcs := congrArg Text.Utf8.decode hagain.1
  rw [decode_encode] at hcs
  rw [hcs, ← hagain.1]

theorem encode_eq_take_iff {t : String} (h : decode? ws = some (t, n)) :
    encode t = ws.take n ↔
      ((ws.flatMap Word.bytes).takeWhile (· ≠ 0)).toByteArray.IsValidUTF8 ∧
        ∀ w ∈ ws[n - 1]?, ∀ b ∈ (Word.bytes w).dropWhile (· ≠ 0), b = 0 := by
  obtain ⟨bytes, hread, rfl⟩ := decode?_eq_some_iff.mp h
  rw [← unpack?_eq_takeWhile hread, ← pack_eq_take_iff hread, isValidUTF8_iff, encode,
    String.toList_ofList]
  constructor
  · intro heq
    have hbytes := encode_decode_of_encode_eq hread heq
    rw [hbytes] at heq
    exact ⟨⟨_, hbytes.symm⟩, heq⟩
  · rintro ⟨⟨cs, rfl⟩, heq⟩
    rw [decode_encode, heq]

/-- Texts read back up to U+0000, and words are written back if they are UTF-8 and end in zeros. -/
theorem literal_round_trip :
    (∀ (s : String) (r : List Word), ∃ p : String,
      decode? (encode s ++ r) = some (p, p.utf8ByteSize / 4 + 1) ∧
      p.toList <+: s.toList ∧ '\x00' ∉ p.toList ∧
      (∀ q : String, q.toList <+: s.toList → '\x00' ∉ q.toList → q.toList <+: p.toList) ∧
      ('\x00' ∉ s.toList → p = s ∧ p.utf8ByteSize / 4 + 1 = (encode s).length)) ∧
    ∀ (ws : List Word) (t : String) (n : Nat), decode? ws = some (t, n) →
      n ≤ ws.length ∧
      (encode t = ws.take n ↔
        ((ws.flatMap Word.bytes).takeWhile (· ≠ 0)).toByteArray.IsValidUTF8 ∧
          ∀ w ∈ ws[n - 1]?, ∀ b ∈ (Word.bytes w).dropWhile (· ≠ 0), b = 0) := by
  refine ⟨fun s r => ?_, fun ws t n h => ⟨(decode?_le_length h).2, encode_eq_take_iff h⟩⟩
  refine ⟨String.ofList (s.toList.takeWhile (· ≠ '\x00')), ?_⟩
  rw [decode?_encode_append, length_encode, String.toList_ofList]
  refine ⟨rfl, List.takeWhile_prefix _, fun hzero => ?_, fun q hq hfree => ?_, fun hfree => ?_⟩
  · simpa using List.mem_takeWhile_imp hzero
  · obtain ⟨after, hq⟩ := hq
    refine ⟨after.takeWhile (· ≠ '\x00'), ?_⟩
    rw [← hq, List.takeWhile_append_of_pos (List.takeWhile_eq_self_iff.mp (takeWhile_of_notMem hfree))]
  · rw [takeWhile_of_notMem hfree, String.ofList_toList, length_encode]
    exact ⟨rfl, rfl⟩

end SpirvKernel.Literal
