import Mathlib
import Downhill.Proofs.Scalar.Double

/-!
# Order of doubles

Finite doubles are ordered by sign, exponent and mantissa (`Double.rank`), and their comparisons are
those of a linear order (`Double.ranked`): what fails in NaN cannot fail here. What is not above
another double is finite too, but for the infinities (`Double.le_cases`).
-/

namespace Downhill

/-- Finite numbers are compared by their ranks in a linear order. -/
structure Scalar.Ranked {α β : Type} [Scalar α] [LinearOrder β] (rank : α → β) : Prop where
  lt : ∀ {v w}, isFinite v = true → isFinite w = true → (lt v w = true ↔ rank v < rank w)
  le : ∀ {v w}, isFinite v = true → isFinite w = true → (le v w = true ↔ rank v ≤ rank w)

namespace Double

open Float.Model Float.Model.UnpackedFloat

theorem lt_iff {v w : Float} :
    Scalar.lt v w = true ↔ v.toModel.unpack.lt w.toModel.unpack = true :=
  (decide_eq_true_iff (p := v < w)).trans (decide_eq_true_iff (p := v.toModel < w.toModel))

theorem le_iff {v w : Float} :
    Scalar.le v w = true ↔ v.toModel.unpack.le w.toModel.unpack = true :=
  (decide_eq_true_iff (p := v ≤ w)).trans (decide_eq_true_iff (p := v.toModel ≤ w.toModel))

/-! ## Ranks -/

/-- The sign, then exponent and mantissa, reversed for negative numbers. The zeros are one. -/
def rankOf : UnpackedFloat → ℤ ×ₗ ℤ ×ₗ ℤ
  | finite .positive m e _ => toLex (1, toLex (e, (m : ℤ)))
  | finite .negative m e _ => toLex (-1, toLex (-e, -(m : ℤ)))
  | zero _ | infinity _ | notANumber => toLex (0, toLex (0, 0))

def rank (v : Float) : ℤ ×ₗ ℤ ×ₗ ℤ := rankOf v.toModel.unpack

variable {a b : UnpackedFloat}

theorem compare_natCast (m n : ℕ) : compare (m : ℤ) (n : ℤ) = compare m n := by
  rw [← cmp_eq_compare, ← cmp_eq_compare, Nat.strictMono_cast.cmp_map_eq]

theorem compare_neg (m n : ℤ) : compare (-m) (-n) = (compare m n).swap := by
  have hneg : StrictAnti fun m : ℤ => -m := strictMono_id.neg
  rw [← cmp_eq_compare, ← cmp_eq_compare, cmp_swap]
  exact hneg.cmp_map_eq m n

theorem compare_eq (ha : a.isFinite = true) (hb : b.isFinite = true) :
    a.compare b = some (compare (rankOf a) (rankOf b)) := by
  cases a with
  | infinity | notANumber => cases ha
  | zero s =>
    cases b with
    | infinity | notANumber => cases hb
    | zero t => simp [UnpackedFloat.compare, rankOf]
    | finite t => cases t <;> rfl
  | finite s m e h =>
    cases b with
    | infinity | notANumber => cases hb
    | zero t => cases s <;> rfl
    | finite t n k h' =>
      cases s <;> cases t <;>
        simp [UnpackedFloat.compare, rankOf, Prod.Lex.compare_def, compareLex, compareOn,
          compare_natCast, compare_neg, Ordering.swap_then] <;> rfl

theorem ranked : Scalar.Ranked rank where
  lt {v w} hv hw := by
    rw [lt_iff, UnpackedFloat.lt, compare_eq hv hw, beq_iff_eq, Option.some_inj]
    exact compare_lt_iff_lt
  le {v w} hv hw := by
    rw [le_iff, UnpackedFloat.le, compare_eq hv hw, Option.any_some, ← Ordering.ne_gt_iff_isLE]
    exact compare_le_iff_le

/-! ## Infinities -/

def IsBottom (v : Float) : Prop := v.isInf = true ∧ Scalar.lt v (Scalar.nat 0) = true

def IsTop (v : Float) : Prop := v.isInf = true ∧ Scalar.lt (Scalar.nat 0) v = true

instance : DecidablePred IsBottom := fun _ => inferInstanceAs (Decidable (_ ∧ _))

instance : DecidablePred IsTop := fun _ => inferInstanceAs (Decidable (_ ∧ _))

theorem isBottom_iff {v : Float} : IsBottom v ↔ v.toModel.unpack = .infinity .negative := by
  have hinf : v.isInf = v.toModel.unpack.isInf := rfl
  rw [IsBottom, lt_iff, unpack_zero, hinf]
  generalize v.toModel.unpack = a
  rcases a with (_ | _) | _ | _ | (_ | _) <;>
    simp [UnpackedFloat.isInf, UnpackedFloat.lt, UnpackedFloat.compare]

theorem isTop_iff {v : Float} : IsTop v ↔ v.toModel.unpack = .infinity .positive := by
  have hinf : v.isInf = v.toModel.unpack.isInf := rfl
  rw [IsTop, lt_iff, unpack_zero, hinf]
  generalize v.toModel.unpack = a
  rcases a with (_ | _) | _ | _ | (_ | _) <;>
    simp [UnpackedFloat.isInf, UnpackedFloat.lt, UnpackedFloat.compare]

/-- What is not above another number is finite, unless it is minus infinity or both are infinity. -/
theorem le_cases {v w : Float} (H : Scalar.le v w = true) :
    Scalar.isFinite v = true ∨ IsBottom v ∨ IsTop v ∧ IsTop w := by
  have hfinite : Scalar.isFinite v = v.toModel.unpack.isFinite := rfl
  rw [hfinite, isBottom_iff, isTop_iff, isTop_iff]
  rw [le_iff] at H
  generalize v.toModel.unpack = a at H ⊢
  generalize w.toModel.unpack = b at H ⊢
  cases a with
  | zero | finite => exact .inl rfl
  | notANumber => cases H
  | infinity s =>
    cases s with
    | negative => exact .inr (.inl rfl)
    | positive =>
      cases b with
      | infinity t =>
        cases t with
        | positive => exact .inr (.inr ⟨rfl, rfl⟩)
        | negative => cases H
      | notANumber => cases H
      | zero => cases H
      | finite t => cases t <;> cases H

end Double

end Downhill
