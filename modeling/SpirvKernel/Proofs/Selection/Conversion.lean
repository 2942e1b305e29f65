import SpirvKernel.Proofs.Kernel.ScalarClass
import SpirvKernel.Selection.Conversion

/-!
# The shape of numeric conversions

An instruction that converts numbers works on scalars or lane by lane on two vectors of one size, and
resizing takes two widths. Which instruction is taken follows from the lanes alone. No two numeric types
are refused, so the shapes agree only where the method makes them agree.
-/

namespace SpirvKernel

theorem IntWidth.bits_inj {v w : IntWidth} : v.bits = w.bits ↔ v = w := by
  cases v <;> cases w <;> decide

theorem FloatWidth.bits_inj {v w : FloatWidth} : v.bits = w.bits ↔ v = w := by
  cases v <;> cases w <;> decide

namespace Ty

def isNumeric (t : Ty) : Bool :=
  match t.lane with
  | .int _ | .float _ => true
  | _ => false

theorem isNumeric_iff {t : Ty} :
    t.isNumeric = true ↔ (∃ w, t.lane = .int w) ∨ ∃ w, t.lane = .float w := by
  unfold isNumeric
  cases t.lane <;> simp

theorem scalarClass_int_iff {t : Ty} {w : IntWidth} : t.scalarClass = .int w ↔ t.lane = .int w :=
  @scalarClass_eq_iff_lane t (.int w) rfl

theorem scalarClass_float_iff {t : Ty} {w : FloatWidth} :
    t.scalarClass = .float w ↔ t.lane = .float w :=
  @scalarClass_eq_iff_lane t (.float w) rfl

/-- Both are scalars, or both are vectors of one size. -/
def sameShape : Ty → Ty → Bool
  | .vector _ m, .vector _ n => m = n
  | s, t => s.isScalar && t.isScalar

end Ty

namespace Opcode

def convertsNumbers : Opcode → Bool
  | .uConvert | .sConvert | .fConvert => true
  | .convertSToF | .convertUToF | .convertFToS | .convertFToU => true
  | _ => false

/-- Whether the instruction makes integers of integers or floats of floats. -/
def resizes : Opcode → Bool
  | .uConvert | .sConvert | .fConvert => true
  | _ => false

end Opcode

namespace Conversion

/-- The instruction that converts one scalar number to another. -/
inductive ConvertsBy (flags : ConvertFlags) : Ty → Ty → Opcode → Prop
  | cut {v w : IntWidth} (shrinks : w.bits < v.bits) : ConvertsBy flags (.int v) (.int w) .uConvert
  | fillZeros {v w : IntWidth} (fits : v.bits ≤ w.bits) (unsigned : flags.sourceUnsigned = true) :
      ConvertsBy flags (.int v) (.int w) .uConvert
  | fillSign {v w : IntWidth} (fits : v.bits ≤ w.bits) (signed : flags.sourceUnsigned = false) :
      ConvertsBy flags (.int v) (.int w) .sConvert
  | round (v w : FloatWidth) : ConvertsBy flags (.float v) (.float w) .fConvert
  | ofUnsigned (v : IntWidth) (w : FloatWidth) (unsigned : flags.sourceUnsigned = true) :
      ConvertsBy flags (.int v) (.float w) .convertUToF
  | ofSigned (v : IntWidth) (w : FloatWidth) (signed : flags.sourceUnsigned = false) :
      ConvertsBy flags (.int v) (.float w) .convertSToF
  | toUnsigned (v : FloatWidth) (w : IntWidth) (unsigned : flags.targetUnsigned = true) :
      ConvertsBy flags (.float v) (.int w) .convertFToU
  | toSigned (v : FloatWidth) (w : IntWidth) (signed : flags.targetUnsigned = false) :
      ConvertsBy flags (.float v) (.int w) .convertFToS

/-- Convert between types of one shape, resize between two widths, refuse other numeric pairs. -/
structure KeepsShape (source target : Ty) (flags : ConvertFlags) : Prop where
  kept : ∀ op, op.convertsNumbers = true → between source target flags = .ok (.direct op) →
    source.sameShape target = true ∧
      (op.resizes = true → source.lane.bits? ≠ target.lane.bits?)
  refused : source ≠ target → source.isNumeric = true → target.isNumeric = true →
    ¬ (source.sameShape target = true ∧ source.lane ≠ target.lane) →
      between source target flags = .error (.unsupported (.conversion source target))

variable {source target a b : Ty} {flags : ConvertFlags} {op : Opcode}

/-! ## Lanes -/

theorem ConvertsBy.convertsNumbers (h : ConvertsBy flags a b op) : op.convertsNumbers = true := by
  cases h <;> rfl

theorem ConvertsBy.isNumeric (h : ConvertsBy flags source.lane target.lane op) :
    source.isNumeric = true ∧ target.isNumeric = true := by
  unfold Ty.isNumeric
  generalize source.lane = a at h
  generalize target.lane = b at h
  cases h <;> exact ⟨rfl, rfl⟩

theorem exists_convertsBy (flags : ConvertFlags) (hs : source.isNumeric = true)
    (ht : target.isNumeric = true) : ∃ op, ConvertsBy flags source.lane target.lane op := by
  obtain ⟨v, hv⟩ | ⟨v, hv⟩ := Ty.isNumeric_iff.mp hs <;>
    obtain ⟨w, hw⟩ | ⟨w, hw⟩ := Ty.isNumeric_iff.mp ht <;> rw [hv, hw]
  · by_cases shrinks : w.bits < v.bits
    · exact ⟨_, .cut shrinks⟩
    · have fits : v.bits ≤ w.bits := Nat.not_lt.mp shrinks
      cases sign : flags.sourceUnsigned with
      | true => exact ⟨_, .fillZeros fits sign⟩
      | false => exact ⟨_, .fillSign fits sign⟩
  · cases sign : flags.sourceUnsigned with
    | true => exact ⟨_, .ofUnsigned v w sign⟩
    | false => exact ⟨_, .ofSigned v w sign⟩
  · cases sign : flags.targetUnsigned with
    | true => exact ⟨_, .toUnsigned v w sign⟩
    | false => exact ⟨_, .toSigned v w sign⟩
  · exact ⟨_, .round v w⟩

theorem ConvertsBy.lane_ne_iff (h : ConvertsBy flags a b op) :
    a ≠ b ↔ (op.resizes = true → a.bits? ≠ b.bits?) := by
  cases h with
  | cut | fillZeros | fillSign => simp [Opcode.resizes, Ty.bits?, IntWidth.bits_inj]
  | round => simp [Opcode.resizes, Ty.bits?, FloatWidth.bits_inj]
  | ofUnsigned | ofSigned | toUnsigned | toSigned => simp [Opcode.resizes]

/-! ## The choice of instructions -/

theorem between_ok_iff {c : Conversion} :
    between source target flags = .ok c ↔ between? source target flags = some c := by
  unfold between
  split <;> simp_all

theorem between?_of_convertsBy (hne : source ≠ target)
    (h : ConvertsBy flags source.lane target.lane op) :
    between? source target flags = some (.direct op) := by
  rw [between?, if_neg hne]
  generalize hs : source.lane = a at h
  generalize ht : target.lane = b at h
  cases h with
  | cut shrinks =>
    rw [Ty.scalarClass_int_iff.mpr hs, Ty.scalarClass_int_iff.mpr ht]
    simp [shrinks]
  | fillZeros fits sign =>
    rw [Ty.scalarClass_int_iff.mpr hs, Ty.scalarClass_int_iff.mpr ht]
    simp [sign]
  | fillSign fits sign =>
    rw [Ty.scalarClass_int_iff.mpr hs, Ty.scalarClass_int_iff.mpr ht]
    simp [Nat.not_lt.mpr fits, sign]
  | round => rw [Ty.scalarClass_float_iff.mpr hs, Ty.scalarClass_float_iff.mpr ht]
  | ofUnsigned _ _ sign | ofSigned _ _ sign =>
    rw [Ty.scalarClass_int_iff.mpr hs, Ty.scalarClass_float_iff.mpr ht]
    simp [sign]
  | toUnsigned _ _ sign | toSigned _ _ sign =>
    rw [Ty.scalarClass_float_iff.mpr hs, Ty.scalarClass_int_iff.mpr ht]
    simp [sign]

theorem convertsNumbers_ofSpaces? {given wanted : AddressSpace} (h : ofSpaces? given wanted = some op) :
    op.convertsNumbers = false := by
  unfold ofSpaces? at h
  grind [Opcode.convertsNumbers]

theorem isNumeric_of_between? (hop : op.convertsNumbers = true)
    (h : between? source target flags = some (.direct op)) :
    source ≠ target ∧ source.isNumeric = true ∧ target.isNumeric = true := by
  unfold between? at h
  split at h
  · cases h
    cases hop
  · rename_i hne
    refine ⟨hne, ?_⟩
    simp only [Ty.isNumeric_iff, ← Ty.scalarClass_int_iff, ← Ty.scalarClass_float_iff]
    split at h
    case h_1 hs ht => exact ⟨.inl ⟨_, hs⟩, .inl ⟨_, ht⟩⟩
    case h_2 hs ht => exact ⟨.inr ⟨_, hs⟩, .inr ⟨_, ht⟩⟩
    case h_3 hs ht => exact ⟨.inl ⟨_, hs⟩, .inr ⟨_, ht⟩⟩
    case h_4 hs ht => exact ⟨.inr ⟨_, hs⟩, .inl ⟨_, ht⟩⟩
    case h_9 =>
      simp only [Option.bind_eq_bind, Option.bind_eq_some_iff] at h
      obtain ⟨_, -, _, -, _, hspaces, h⟩ := h
      cases h
      rw [convertsNumbers_ofSpaces? hspaces] at hop
      cases hop
    all_goals cases h <;> cases hop

/-- The instructions that convert numbers are chosen by the lanes of two different types. -/
theorem between_direct_iff (hop : op.convertsNumbers = true) :
    between source target flags = .ok (.direct op) ↔
      source ≠ target ∧ ConvertsBy flags source.lane target.lane op := by
  rw [between_ok_iff]
  constructor
  · intro h
    obtain ⟨hne, hs, ht⟩ := isNumeric_of_between? hop h
    obtain ⟨op', hconverts⟩ := exists_convertsBy flags hs ht
    rw [between?_of_convertsBy hne hconverts] at h
    cases h
    exact ⟨hne, hconverts⟩
  · rintro ⟨hne, hconverts⟩
    exact between?_of_convertsBy hne hconverts

/-- Shapes are kept exactly between types of one shape with different lanes. -/
theorem conversion_keepsShape_iff (source target : Ty) (flags : ConvertFlags) :
    (∀ op, op.convertsNumbers = true →
      (between source target flags = .ok (.direct op) ↔
        source ≠ target ∧ ConvertsBy flags source.lane target.lane op)) ∧
    (KeepsShape source target flags ↔
      (source ≠ target → source.isNumeric = true → target.isNumeric = true →
        source.sameShape target = true ∧ source.lane ≠ target.lane)) := by
  refine ⟨fun op hop => between_direct_iff hop, fun h hne hs ht => ?_, fun h => ⟨?_, ?_⟩⟩
  · obtain ⟨op, hconverts⟩ := exists_convertsBy flags hs ht
    have hop := hconverts.convertsNumbers
    obtain ⟨hshape, hwidths⟩ := h.kept op hop ((between_direct_iff hop).mpr ⟨hne, hconverts⟩)
    exact ⟨hshape, hconverts.lane_ne_iff.mpr hwidths⟩
  · intro op hop hchoice
    obtain ⟨hne, hconverts⟩ := (between_direct_iff hop).mp hchoice
    obtain ⟨hs, ht⟩ := hconverts.isNumeric
    obtain ⟨hshape, hlanes⟩ := h hne hs ht
    exact ⟨hshape, hconverts.lane_ne_iff.mp hlanes⟩
  · intro hne hs ht hother
    exact absurd (h hne hs ht) hother

theorem spread_shape_not_kept :
    between .i32 (.vector .i32 2) ⟨0⟩ = .ok (.direct .sConvert) ∧
      ¬ KeepsShape .i32 (.vector .i32 2) ⟨0⟩ := by
  obtain ⟨hchoice, hkept⟩ := conversion_keepsShape_iff .i32 (.vector .i32 2) ⟨0⟩
  refine ⟨(hchoice .sConvert rfl).mpr ⟨by decide, .fillSign (Nat.le_refl _) rfl⟩, fun h => ?_⟩
  exact (hkept.mp h (by decide) rfl rfl).2 rfl

end Conversion

end SpirvKernel
