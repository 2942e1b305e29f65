import Mathlib.Algebra.Group.Nat.Defs
import SpirvKernel.Proofs.Dictionary.Requests
import SpirvKernel.Proofs.Dictionary.Soundness
import SpirvKernel.Proofs.Kernel.ScalarClass

/-!
# Reading declarations back

What an identifier stands for can be read from the declarations alone: its instruction says how it is
made from what was declared before. Every type, signature and constant that was requested reads back
as itself, however the dictionary grew afterwards.
-/

namespace SpirvKernel

open Instruction

/-! ## Numbers read back -/

namespace StorageClass

def all : List StorageClass :=
  [.uniformConstant, .input, .workgroup, .crossWorkgroup, .function, .generic]

def ofNumber? (n : Word) : Option StorageClass := all.find? (·.number = n)

/-- The memory of the language that is kept in a storage class. -/
def space? (s : StorageClass) : Option AddressSpace := AddressSpace.all.find? (·.storage = s)

@[simp] theorem ofNumber?_number (s : StorageClass) : ofNumber? s.number = some s := by
  cases s <;> rfl

@[simp] theorem space?_storage (a : AddressSpace) : a.storage.space? = some a := by
  cases a <;> rfl

end StorageClass

def IntWidth.ofBits? (n : Nat) : Option IntWidth := all.find? (·.bits = n)

def FloatWidth.ofBits? (n : Nat) : Option FloatWidth := all.find? (·.bits = n)

theorem toNat_and_ones {mask : UInt64} {bits : Nat} (ones : mask.toNat = 2 ^ bits - 1)
    (n : UInt64) : (n &&& mask).toNat = n.toNat % 2 ^ bits := by
  rw [UInt64.toNat_and, ones, Nat.and_two_pow_sub_one_eq_mod]

theorem IntWidth.toNat_and_mask (w : IntWidth) (n : UInt64) :
    (n &&& w.mask).toNat = n.toNat % 2 ^ w.bits :=
  toNat_and_ones (by cases w <;> rfl) n

theorem FloatWidth.toNat_and_mask (w : FloatWidth) (n : UInt64) :
    (n &&& w.mask).toNat = n.toNat % 2 ^ w.bits :=
  toNat_and_ones (by cases w <;> rfl) n

/-- The number that the words of a literal spell, the low word first. -/
def Word.spelled? (bits : Nat) : List Word → Option Nat
  | [low] => if bits ≤ 32 then some low.toNat else none
  | [low, high] => if 32 < bits then some (low.toNat + 2 ^ 32 * high.toNat) else none
  | _ => none

/-- A literal of at most 32 bits is one word. -/
def Word.kept (bits : Nat) (n : UInt64) : Nat := if 32 < bits then n.toNat else n.toNat % 2 ^ 32

theorem Word.spelled?_ofLiteral (bits : Nat) (n : UInt64) :
    spelled? bits (ofLiteral n (bits > 32)) = some (kept bits n) := by
  by_cases hb : 32 < bits
  · have hn := n.toNat_lt
    have hsplit : n.toNat % 2 ^ 32 + 2 ^ 32 * (n.toNat / 2 ^ 32 % 2 ^ 32) = n.toNat := by omega
    have hhigh : (n >>> 32).toNat = n.toNat / 2 ^ 32 := by
      rw [UInt64.toNat_shiftRight, Nat.shiftRight_eq_div_pow]
      rfl
    simp only [ofLiteral, kept, hb, decide_true, if_true, spelled?, UInt64.toNat_toUInt32, hhigh,
      hsplit]
  · simp [ofLiteral, kept, spelled?, hb, Nat.not_lt.mp hb]

theorem Word.kept_eq {bits : Nat} {n : UInt64} (h : n.toNat < 2 ^ bits) : kept bits n = n.toNat := by
  by_cases hb : 32 < bits
  · exact if_pos hb
  · have hle : 2 ^ bits ≤ 2 ^ 32 := Nat.pow_le_pow_right (by decide) (by omega)
    rw [kept, if_neg hb, Nat.mod_eq_of_lt (by omega)]

namespace Constant

/-- The bits of a constant, reduced to its width. Null has none. -/
def residue? : Constant → Option Nat
  | .bool value => some value.toNat
  | .int w bits => some (bits.toNat % 2 ^ w.bits)
  | .float w bits => some (bits.toNat % 2 ^ w.bits)
  | .null _ => none

/-- The number that the instruction of a constant spells. -/
def spelled? : Constant → Option Nat
  | .bool value => some value.toNat
  | .int w bits => some (Word.kept w.bits bits)
  | .float w bits => some (Word.kept w.bits bits)
  | .null _ => none

theorem spelled?_truncate (c : Constant) : c.truncate.spelled? = c.residue? := by
  cases c with
  | bool | null => rfl
  | int w bits | float w bits =>
    have hbits := w.toNat_and_mask bits
    have hlt : (bits &&& w.mask).toNat < 2 ^ w.bits := hbits ▸ Nat.mod_lt _ (Nat.two_pow_pos _)
    rw [truncate, spelled?, Word.kept_eq hlt, hbits, residue?]

theorem residue?_ofWord (n : UInt32) : (ofWord n).residue? = some n.toNat := by
  have hn := n.toNat_lt
  simp only [residue?, ofWord, IntWidth.bits, UInt32.toNat_toUInt64, Option.some.injEq]
  omega

theorem truncate_eq_of {b c : Constant} (ht : b.type = c.type) (hr : b.residue? = c.residue?) :
    b.truncate = c.truncate := by
  cases b <;> cases c <;> cases ht <;>
    simp only [residue?, Option.some.injEq, reduceCtorEq, ← IntWidth.toNat_and_mask,
      ← FloatWidth.toNat_and_mask, UInt64.toNat_inj] at hr
  · rename_i b c
    cases b <;> cases c <;> first | rfl | cases hr
  · rw [truncate, hr, truncate]
  · rw [truncate, hr, truncate]
  · rfl

end Constant

/-! ## Meanings -/

inductive Meaning where
  /-- A type other than a pointer. -/
  | type (t : Ty)
  | pointer (pointee : Ty) (storage : StorageClass)
  | signature (result : Ty) (params : List Ty)
  | constant (type : Ty) (bits : Option Nat)
  deriving DecidableEq, Repr

namespace Meaning

/-- The type of the language. A pointer has one if its storage class is that of an address space. -/
def type? : Meaning → Option Ty
  | .type t => some t
  | .pointer pointee storage => storage.space?.map (.pointer pointee)
  | .signature .. | .constant .. => none

/-- The length of an array is a constant of 32 bits. -/
def length? : Meaning → Option UInt32
  | .constant (.int .i32) (some n) => some (UInt32.ofNat n)
  | _ => none

section

variable (look : Word → Option Meaning)

def typeAt? (w : Word) : Option Ty := (look w).bind type?

def constantAt? (w : Word) (bits : Option Nat) : Option Meaning :=
  (typeAt? look w).map fun t => .constant t bits

/-- What an instruction declares, given what the identifiers in it stand for. -/
def ofInstruction? (i : Instruction) : Option Meaning :=
  match Opcode.ofCode? i.code, i.operands with
  | some .typeVoid, [_] => some (.type .void)
  | some .typeBool, [_] => some (.type .bool)
  | some .typeInt, [_, bits, 0] => (IntWidth.ofBits? bits.toNat).map fun w => .type (.int w)
  | some .typeFloat, [_, bits] => (FloatWidth.ofBits? bits.toNat).map fun w => .type (.float w)
  | some .typeVector, [_, elem, count] => do
    let t ← typeAt? look elem
    some (.type (.vector t count))
  | some .typeArray, [_, elem, length] => do
    let t ← typeAt? look elem
    let n ← (look length).bind length?
    some (.type (.array t n))
  | some .typeStruct, _ :: fields => do
    let ts ← fields.mapM (typeAt? look)
    some (.type (.struct ts))
  | some .typePointer, [_, storage, pointee] => do
    let s ← StorageClass.ofNumber? storage
    let t ← typeAt? look pointee
    some (.pointer t s)
  | some .typeFunction, _ :: result :: params => do
    let t ← typeAt? look result
    let ts ← params.mapM (typeAt? look)
    some (.signature t ts)
  | some .constantTrue, [t, _] => constantAt? look t (some 1)
  | some .constantFalse, [t, _] => constantAt? look t (some 0)
  | some .constantNull, [t, _] => constantAt? look t none
  | some .constant, w :: _ :: literal => do
    let t ← typeAt? look w
    let bits ← t.bits?
    let n ← Word.spelled? bits literal
    some (.constant t (some n))
  | _, _ => none

end

/-- Reads the instruction that defines the word, with those before it for its operands. -/
def readBack : List Instruction → Word → Option Meaning
  | [], _ => none
  | i :: before, w =>
    if i.result? = some w then ofInstruction? (readBack before) i else readBack before w

/-- What a word stands for in a section of declarations. -/
def read (declarations : List Instruction) (w : Word) : Option Meaning :=
  readBack declarations.reverse w

variable {is : List Instruction} {i : Instruction} {w : Word} {x : Meaning}

theorem read_concat (is : List Instruction) (i : Instruction) (w : Word) :
    read (is ++ [i]) w = if i.result? = some w then ofInstruction? (read is) i else read is w := by
  rw [read, List.reverse_append, List.reverse_singleton, List.singleton_append, readBack]
  rfl

theorem mem_results_of_read (h : read is w = some x) : w ∈ results is := by
  rw [mem_results]
  suffices ∃ i ∈ is.reverse, i.result? = some w by simpa using this
  rw [read] at h
  generalize is.reverse = before at h
  induction before with
  | nil => cases h
  | cons i before ih =>
    rw [readBack] at h
    by_cases hi : i.result? = some w
    · exact ⟨i, List.mem_cons_self, hi⟩
    · rw [if_neg hi] at h
      obtain ⟨j, hj, hr⟩ := ih h
      exact ⟨j, List.mem_cons_of_mem i hj, hr⟩

end Meaning

/-! ## The instruction of a key reads back as the key -/

namespace Declaration

/-- What a key stands for, if it is a type, a signature or a constant. -/
def meaning? : Declaration → Option Meaning
  | .type t => some (.type t)
  | .pointer pointee storage => some (.pointer pointee storage)
  | .signature result params => some (.signature result params)
  | .constant c => some (.constant c.type c.spelled?)
  | .builtin _ => none

theorem meaning?_ofType (t : Ty) : ∃ x, (ofType t).meaning? = some x ∧ x.type? = some t := by
  cases t with
  | pointer pointee space => exact ⟨_, rfl, by simp [Meaning.type?]⟩
  | _ => exact ⟨_, rfl, rfl⟩

theorem length?_ofWord (n : UInt32) :
    (Meaning.constant (.int .i32) (Constant.ofWord n).truncate.spelled?).length? = some n := by
  rw [Constant.spelled?_truncate, Constant.residue?_ofWord]
  simp [Meaning.length?]

section

variable {look : Declaration → Option Id} {see : Word → Option Meaning}
  (agree : ∀ k x id, look k = some id → k.meaning? = some x → see id.word = some x)
include agree

theorem typeAt?_ofType {t : Ty} {id : Id} (h : look (ofType t) = some id) :
    Meaning.typeAt? see id.word = some t := by
  obtain ⟨x, hx, ht⟩ := meaning?_ofType t
  rw [Meaning.typeAt?, agree _ x id h hx]
  exact ht

theorem mapM_typeAt? {ts : List Ty} {ids : List Id}
    (h : (ts.mapM fun t => look (ofType t)) = some ids) :
    (ids.map Id.word).mapM (Meaning.typeAt? see) = some ts := by
  induction ts generalizing ids with
  | nil => rw [mapM_nil_some_iff.mp h]; rfl
  | cons t ts ih =>
    obtain ⟨id, rest, hid, hrest, rfl⟩ := mapM_cons_some_iff.mp h
    rw [List.map_cons, mapM_cons_some_iff]
    exact ⟨t, ts, typeAt?_ofType agree hid, ih hrest, rfl⟩

theorem ofInstruction?_constant {c : Constant} {id type : Id}
    (h : look (ofType c.type) = some type) :
    Meaning.ofInstruction? see (.of c.opcode (type.word :: id.word :: c.literal)) =
      some (.constant c.type c.spelled?) := by
  have ht := typeAt?_ofType agree h
  cases c with
  | bool b =>
    cases b <;> simp only [Constant.opcode, Constant.literal, of, Meaning.ofInstruction?,
      Opcode.ofCode?_code, Meaning.constantAt?, ht] <;> rfl
  | int w bits | float w bits =>
    simp only [Constant.opcode, Constant.literal, of, Meaning.ofInstruction?,
      Opcode.ofCode?_code, ht]
    simp [Constant.type, Ty.bits?, Constant.spelled?, Word.spelled?_ofLiteral]
  | null t =>
    simp only [Constant.opcode, Constant.literal, of, Meaning.ofInstruction?,
      Opcode.ofCode?_code, Meaning.constantAt?, ht]
    rfl

/-- One layer: if what a key rests on reads back, so does the key. -/
theorem ofInstruction?_of {key : Declaration} {id : Id} {i : Instruction} {x : Meaning}
    (h : key.instruction? look id = some i) (hx : key.meaning? = some x) :
    Meaning.ofInstruction? see i = some x := by
  cases key with
  | builtin => cases hx
  | type t =>
    cases hx
    cases t with
    | void | bool => cases h; rfl
    | int w | float w => cases h; cases w <;> rfl
    | vector elem count =>
      obtain ⟨e, he, h⟩ := Option.bind_eq_some_iff.mp h
      cases h
      simp [Meaning.ofInstruction?, of, typeAt?_ofType agree he]
    | array elem length =>
      obtain ⟨e, he, h⟩ := Option.bind_eq_some_iff.mp h
      obtain ⟨n, hn, h⟩ := Option.bind_eq_some_iff.mp h
      cases h
      simp [Meaning.ofInstruction?, of, typeAt?_ofType agree he, agree _ _ n hn rfl,
        length?_ofWord]
    | struct fields =>
      obtain ⟨ids, hids, h⟩ := Option.bind_eq_some_iff.mp h
      cases h
      simp [Meaning.ofInstruction?, of, mapM_typeAt? agree hids]
    | pointer => cases h
  | pointer pointee storage =>
    cases hx
    obtain ⟨p, hp, h⟩ := Option.bind_eq_some_iff.mp h
    cases h
    simp [Meaning.ofInstruction?, of, typeAt?_ofType agree hp]
  | signature result params =>
    cases hx
    obtain ⟨ids, hids, h⟩ := Option.bind_eq_some_iff.mp h
    cases h
    obtain ⟨r, rest, hr, hrest, rfl⟩ := mapM_cons_some_iff.mp hids
    simp [Meaning.ofInstruction?, of, typeAt?_ofType agree hr, mapM_typeAt? agree hrest]
  | constant c =>
    cases hx
    obtain ⟨t, ht, h⟩ := Option.bind_eq_some_iff.mp h
    cases h
    exact ofInstruction?_constant agree ht

end

end Declaration

/-! ## Reading while the dictionary grows -/

namespace Dictionary

variable {d d₁ : Dictionary} {i : Instruction} {key : Declaration} {id : Id} {w : Word}
  {x : Meaning}

def read (d : Dictionary) (id : Id) : Option Meaning := Meaning.read d.declarations id.word

structure Readable (d : Dictionary) : Prop where
  below : ∀ w ∈ results d.declarations, w.toNat < d.supply.next
  known : ∀ k x id, d.get? k = some id → k.meaning? = some x → d.read id = some x

theorem toNat_nextId (room : d.supply.next + 1 ≤ Supply.limit) :
    d.nextId.word.toNat = d.supply.next := by
  have hlimit : Supply.limit < UInt32.size := by decide
  have hlt : d.supply.next < UInt32.size := by omega
  exact UInt32.toNat_ofNat_of_lt' hlt

theorem Readable.extend (hd : d.Readable) (room : d.supply.next + 1 ≤ Supply.limit)
    (hi : i.result? = some d.nextId.word) :
    (∀ w ∈ results (d.extend i).declarations, w.toNat < (d.extend i).supply.next) ∧
      ∀ id x, d.read id = some x → (d.extend i).read id = some x := by
  -- The new declaration takes a word that no declaration had, so it hides none.
  have hnext := toNat_nextId room
  constructor
  · intro w hw
    change w.toNat < d.supply.next + 1
    rcases List.mem_append.mp (results_append _ _ ▸ hw) with hw | hw
    · have := hd.below w hw
      omega
    · simp only [results_cons, hi, results_nil, Option.toList_some, List.append_nil,
        List.mem_singleton] at hw
      rw [hw, hnext]
      omega
  · intro id x hx
    have hold := hd.below _ (Meaning.mem_results_of_read hx)
    have hne : i.result? ≠ some id.word := by
      rw [hi, ne_eq, Option.some.injEq]
      intro h
      rw [← h, hnext] at hold
      omega
    exact (Meaning.read_concat _ i _).trans (if_neg hne ▸ hx)

theorem Step.readable (h : Step d d₁) (hd : d.Readable) : d₁.Readable := by
  cases h with
  | need => exact ⟨hd.below, hd.known⟩
  | reserve n =>
    refine ⟨fun w hw => ?_, hd.known⟩
    exact Nat.lt_of_lt_of_le (hd.below w hw) (Nat.le_add_right _ n)
  | @length word _ room =>
    obtain ⟨below, keep⟩ :=
      hd.extend (i := .of .specConstant [word.word, d.nextId.word, 1]) room rfl
    exact ⟨below, fun k x id hk hx => keep id x (hd.known k x id hk hx)⟩
  | unnamed made room =>
    obtain ⟨below, keep⟩ := hd.extend room made.operands.1
    exact ⟨below, fun k x id hk hx => keep id x (hd.known k x id hk hx)⟩
  | @record key i new made fits room =>
    have hi := (Declaration.instruction?_operands made).1
    obtain ⟨below, keep⟩ := hd.extend room hi
    refine ⟨below, fun k x id hk hx => ?_⟩
    rw [get?_record] at hk
    by_cases h : k = key
    · rw [if_pos h] at hk
      cases hk
      have hread := Declaration.ofInstruction?_of hd.known (h ▸ made) hx
      exact (Meaning.read_concat _ i _).trans (if_pos hi ▸ hread)
    · rw [if_neg h] at hk
      exact keep id x (hd.known k x id hk hx)

theorem readable_new (supply : Supply) : (new supply).Readable := by
  constructor <;> simp [new, get?]

theorem Steps.readable (h : Steps d d₁) (hd : d.Readable) : d₁.Readable := by
  induction h with
  | refl => exact hd
  | tail _ hs ih => exact hs.readable ih

/-! ## Requests -/

/-- Under `id` the declarations hold what was requested. A variable has no meaning of its own. -/
def Denotes (d : Dictionary) (id : Id) : Request → Prop
  | .type t => (d.read id).bind Meaning.type? = some t
  | .pointer pointee storage => d.read id = some (.pointer pointee storage)
  | .signature result params => d.read id = some (.signature result params)
  | .constant c => d.read id = some (.constant c.type c.residue?)
  | .word n => d.read id = some (.constant .i32 (some n.toNat))
  | .builtin _ | .groupVariable .. => True

theorem Readable.denotes (hd : d.Readable) {r : Request}
    (h : ∀ key, r.key? = some key → d.get? key = some id) : d.Denotes id r := by
  cases r with
  | type t =>
    obtain ⟨x, hx, ht⟩ := Declaration.meaning?_ofType t
    rw [Denotes, hd.known _ x id (h _ rfl) hx]
    exact ht
  | pointer | signature => exact hd.known _ _ id (h _ rfl) rfl
  | constant c =>
    have hread := hd.known _ _ id (h _ rfl) rfl
    rwa [Constant.spelled?_truncate, Constant.type_truncate] at hread
  | word n =>
    have hread := hd.known _ _ id (h _ rfl) rfl
    rwa [Constant.spelled?_truncate, Constant.residue?_ofWord] at hread
  | builtin | groupVariable => trivial

theorem denotes_performAll {supply : Supply} {requests : List Request} {r : Request}
    (h : (r, .ok id) ∈ (performAll requests (new supply)).1) :
    (performAll requests (new supply)).2.Denotes id r :=
  ((performAll_steps requests _).readable (readable_new supply)).denotes
    fun _ hk => performAll_known h hk

theorem Denotes.type_inj {t u : Ty} {j : Id} (ht : d.Denotes id (.type t))
    (hu : d.Denotes j (.type u)) (h : id.word = j.word) : t = u := by
  have hsame : d.read id = d.read j := congrArg (Meaning.read d.declarations) h
  rw [Denotes, hsame, hu] at ht
  exact (Option.some.inj ht).symm

theorem Denotes.constant_inj {b c : Constant} {j : Id} (hb : d.Denotes id (.constant b))
    (hc : d.Denotes j (.constant c)) (h : id.word = j.word) : b.truncate = c.truncate := by
  have hsame : d.read id = d.read j := congrArg (Meaning.read d.declarations) h
  rw [Denotes, hsame, hc, Option.some.injEq, Meaning.constant.injEq] at hb
  exact Constant.truncate_eq_of hb.1.symm hb.2.symm

/-- Every identifier reads back as what was requested, up to bits beyond its width. -/
theorem requests_read_back (first : Nat) (requests : List Request) :
    let run := performAll requests (new (.startingAt first))
    (∀ r id, (r, .ok id) ∈ run.1 → run.2.Denotes id r) ∧
      (∀ t u i j, (.type t, .ok i) ∈ run.1 → (.type u, .ok j) ∈ run.1 → t ≠ u → i.word ≠ j.word) ∧
      ∀ b c i j, (.constant b, .ok i) ∈ run.1 → (.constant c, .ok j) ∈ run.1 →
        b.truncate ≠ c.truncate → i.word ≠ j.word := by
  refine ⟨fun r id => denotes_performAll, ?_, ?_⟩
  · intro t u i j ht hu hne hword
    exact hne ((denotes_performAll ht).type_inj (denotes_performAll hu) hword)
  · intro b c i j hb hc hne hword
    exact hne ((denotes_performAll hb).constant_inj (denotes_performAll hc) hword)

/-- Shared storage of the rows of a matrix with a mark for each. -/
def markedRows : Ty := .pointer (.struct [.array (.vector (.float .f32) 4) 3, .int .i8]) .shared

/-- The requests run up to the limit of the supply, where the last one fails. -/
def crowdedRequests : List Request :=
  [.type markedRows, .signature .void [markedRows, .i32], .constant (.int .i8 0x1FF),
    .constant (.int .i8 0xFE), .type (.vector .i64 2)]

theorem markedRows_read_back :
    let run := performAll crowdedRequests (new (.startingAt (Supply.limit - 12)))
    ((.type markedRows, .ok ⟨4194298⟩) ∈ run.1 ∧ run.2.Denotes ⟨4194298⟩ (.type markedRows)) ∧
      ((.constant (.int .i8 0x1FF), .ok ⟨4194301⟩) ∈ run.1 ∧
        run.2.Denotes ⟨4194301⟩ (.constant (.int .i8 0x1FF))) ∧
      (.type (.vector .i64 2), .error .spaceExhausted) ∈ run.1 := by
  intro run
  have rows : (.type markedRows, .ok ⟨4194298⟩) ∈ run.1 := by decide +kernel
  have mark : (.constant (.int .i8 0x1FF), .ok ⟨4194301⟩) ∈ run.1 := by decide +kernel
  have full : (.type (.vector .i64 2), .error .spaceExhausted) ∈ run.1 := by decide +kernel
  obtain ⟨denotes, -⟩ := requests_read_back (Supply.limit - 12) crowdedRequests
  exact ⟨⟨rows, denotes _ _ rows⟩, ⟨mark, denotes _ _ mark⟩, full⟩

end Dictionary

end SpirvKernel
