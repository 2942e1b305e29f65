import SpirvKernel.Kernel.Ty

/-!
# Scalar classes and lanes

Vectors are meant to hold scalars, so the class of a type should say that it is a scalar or a vector of
scalars. Classification looks through vectors of vectors as well, and gives every type over scalars the
class of its lane, the type under all vectors.
-/

namespace SpirvKernel.Ty

/-- The type under all vectors. -/
def lane : Ty → Ty
  | .vector elem _ => elem.lane
  | t => t

def isScalar : Ty → Bool
  | .bool | .int _ | .float _ => true
  | _ => false

/-- How many bits a number of this type has. -/
def bits? : Ty → Option Nat
  | .int w => some w.bits
  | .float w => some w.bits
  | _ => none

/-- The class of a type if vectors are of scalars only. -/
def plainClass : Ty → ScalarClass
  | .bool | .vector .bool _ => .bool
  | .int w | .vector (.int w) _ => .int w
  | .float w | .vector (.float w) _ => .float w
  | .pointer _ _ => .pointer
  | .void | .array _ _ | .struct _ | .vector _ _ => .other

variable {t elem : Ty} {n : UInt32}

/-! ## Scalars -/

theorem lane_of_isScalar (h : t.isScalar = true) : t.lane = t := by
  cases t <;> first | rfl | cases h

theorem isScalar_of_lane (h : t.lane.isScalar = false) : t.isScalar = false := by
  refine Bool.eq_false_iff.mpr fun hscalar => ?_
  rw [lane_of_isScalar hscalar, hscalar] at h
  cases h

theorem scalarClass_of_isScalar (h : t.isScalar = true) : t.scalarClass = t.plainClass := by
  cases t <;> first | rfl | cases h

theorem plainClass_ne_of_isScalar (h : t.isScalar = true) :
    t.plainClass ≠ .pointer ∧ t.plainClass ≠ .other := by
  cases t <;> simp [isScalar, plainClass] at h ⊢

/-! ## Vectors -/

theorem plainClass_vector_of_isScalar (h : elem.isScalar = true) :
    plainClass (.vector elem n) = elem.plainClass := by
  cases elem <;> first | rfl | cases h

theorem plainClass_vector_of_not_isScalar (h : elem.isScalar = false) :
    plainClass (.vector elem n) = .other := by
  cases elem <;> first | rfl | cases h

theorem scalarClass_vector (elem : Ty) (n : UInt32) :
    scalarClass (.vector elem n) =
      if elem.scalarClass = .pointer then .other else elem.scalarClass := by
  rw [scalarClass]
  cases elem.scalarClass <;> rfl

theorem scalarClass_of_isScalar_lane (h : t.lane.isScalar = true) :
    t.scalarClass = t.lane.plainClass := by
  fun_induction lane t with
  | case1 elem n ih =>
    rw [scalarClass_vector, ih h, if_neg (plainClass_ne_of_isScalar h).1]
  | case2 t => exact scalarClass_of_isScalar h

theorem plainClass_of_not_isScalar_lane (h : t.lane.isScalar = false) :
    t.plainClass = if t.space?.isSome then .pointer else .other := by
  cases t with
  | vector elem n => exact plainClass_vector_of_not_isScalar (isScalar_of_lane h)
  | bool | int | float => cases h
  | void | array | struct | pointer => rfl

theorem scalarClass_of_not_isScalar_lane (h : t.lane.isScalar = false) :
    t.scalarClass = t.plainClass := by
  fun_induction lane t with
  | case1 elem n ih =>
    rw [scalarClass_vector, ih h, plainClass_vector_of_not_isScalar (isScalar_of_lane h),
      plainClass_of_not_isScalar_lane h]
    cases elem.space?.isSome <;> rfl
  | case2 t hvector =>
    cases t with
    | vector elem n => exact absurd rfl (hvector elem n)
    | bool | int | float => cases h
    | void | array | struct | pointer => rfl

theorem plainClass_inj {type : Ty} (h : t.isScalar = true) (h' : type.isScalar = true)
    (heq : t.plainClass = type.plainClass) : t = type := by
  cases t <;> cases type <;> simp_all [isScalar, plainClass]

theorem scalarClass_eq_iff_lane {type : Ty} (h : type.isScalar = true) :
    t.scalarClass = type.plainClass ↔ t.lane = type := by
  constructor
  · intro hclass
    cases hlane : t.lane.isScalar with
    | true => exact plainClass_inj hlane h ((scalarClass_of_isScalar_lane hlane).symm.trans hclass)
    | false =>
      rw [scalarClass_of_not_isScalar_lane hlane, plainClass_of_not_isScalar_lane hlane] at hclass
      obtain ⟨hpointer, hother⟩ := plainClass_ne_of_isScalar h
      split at hclass
      · exact absurd hclass.symm hpointer
      · exact absurd hclass.symm hother
  · rintro rfl
    exact scalarClass_of_isScalar_lane h

theorem exists_vector_iff (h : elem.lane.isScalar = true) :
    (∃ e m k, Ty.vector elem n = .vector (.vector e m) k) ↔ elem.isScalar = false := by
  cases elem with
  | vector e m => simp [isScalar]
  | bool | int | float => simp [isScalar]
  | void | array | struct | pointer => cases h

/-- The form of a type tells its class, but for vectors of vectors over scalars. -/
theorem scalarClass_plain_iff (t : Ty) :
    t.scalarClass = (if t.lane.isScalar then t.lane.plainClass else t.plainClass) ∧
    (t.scalarClass = t.plainClass ↔
      ¬ (t.lane.isScalar = true ∧ ∃ elem m n, t = .vector (.vector elem m) n)) := by
  cases hlane : t.lane.isScalar with
  | false => simp [scalarClass_of_not_isScalar_lane hlane]
  | true =>
    have hclass := scalarClass_of_isScalar_lane hlane
    refine ⟨hclass, ?_⟩
    rw [hclass, and_iff_right rfl]
    cases t with
    | vector elem n =>
      have hlane' : elem.lane.isScalar = true := hlane
      rw [exists_vector_iff hlane']
      cases helem : elem.isScalar with
      | true => simp [lane, lane_of_isScalar helem, plainClass_vector_of_isScalar helem]
      | false =>
        rw [plainClass_vector_of_not_isScalar helem]
        simpa using (plainClass_ne_of_isScalar hlane).2
    | bool | int | float | void | array | struct | pointer => simp [lane]

theorem rows_class_not_plain :
    scalarClass (.vector (.vector .i32 2) 3) ≠ plainClass (.vector (.vector .i32 2) 3) := by
  intro h
  exact (scalarClass_plain_iff _).2.mp h ⟨rfl, .i32, 2, 3, rfl⟩

end SpirvKernel.Ty
