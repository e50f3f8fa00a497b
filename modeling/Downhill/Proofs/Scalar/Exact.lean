import Mathlib.Algebra.Order.Field.Basic
import Downhill.Proofs.Rational.PartialRational
import Downhill.Proofs.Search.Backtracking

/-!
# Exact arithmetic

In exact arithmetic the finite scalars are the elements of an ordered ring, and everything that is
computed is an element only if it is computed from elements (`Scalar.ExactArithmetic`). Real and
rational numbers are of this kind. A point has elements as coordinates as soon as its inner product
with another point is one (`Point.dot_eq`), so there is nothing undefined in what a search has
compared.
-/

namespace Downhill

open scoped Scalar

/-- Finite scalars are the elements of an ordered ring, and what is computed of them is exact. -/
structure Scalar.ExactArithmetic {α K : Type} [Scalar α] [CommRing K] [LinearOrder K]
    (num : K → α) : Prop extends Scalar.OrderedRing num where
  finite : ∀ {v : α}, isFinite v = true ↔ ∃ a, v = num a
  eq : ∀ {v w : α}, Scalar.eq v w = true ↔ ∃ a, v = num a ∧ w = num a
  abs : ∀ {v : α} {c}, Scalar.abs v = num c ↔ ∃ a, v = num a ∧ |a| = c
  neg : ∀ {v : α} {c}, -v = num c ↔ ∃ a, v = num a ∧ -a = c
  sub : ∀ {v w : α} {c}, v - w = num c ↔ ∃ a b, v = num a ∧ w = num b ∧ a - b = c
  div : ∀ {v w : α} {c}, v / w = num c ↔ ∃ a b, v = num a ∧ w = num b ∧ b ≠ 0 ∧ c * b = a
  /-- Not every root need be an element. -/
  sqrt : ∀ {v : α} {c}, Scalar.sqrt v = num c → 0 ≤ c

theorem PartialReal.exactArithmetic : Scalar.ExactArithmetic (some : ℝ → PartialReal) where
  toOrderedRing := orderedRing
  finite {v} := by cases v <;> simp [Scalar.isFinite]
  eq {v w} := by cases v <;> cases w <;> simp [Scalar.eq, compare, eq_comm]
  abs {v c} := by cases v <;> simp [Scalar.abs]
  neg := unary_eq_some.trans (by simp [UnaryOp.Domain, UnaryOp.real])
  sub := binary_eq_some.trans (by simp [BinaryOp.Domain, BinaryOp.real])
  div := binary_eq_some.trans <| exists_congr fun _ => exists_congr fun _ =>
    and_congr_right fun _ => and_congr_right fun _ => and_congr_right fun hv =>
      (div_eq_iff hv).trans eq_comm
  sqrt {v c} H := by
    obtain ⟨u, rfl, _, rfl⟩ := unary_eq_some.mp H
    exact Real.sqrt_nonneg u

namespace PartialRational

theorem unary_eq_some {a : PartialRational} {w : ℚ} :
    Scalar.unary op a = some w ↔ ∃ u, a = some u ∧ op.rational? u = some w := by
  cases a <;> simp [Scalar.unary, unary]

theorem binary_eq_some {a b : PartialRational} {w : ℚ} : Scalar.binary op a b = some w ↔
    ∃ u v, a = some u ∧ b = some v ∧ op.rational? u v = some w := by
  cases a <;> cases b <;> simp [Scalar.binary, binary]

theorem orderedRing : Scalar.OrderedRing (some : ℚ → PartialRational) where
  injective := Option.some_injective ℚ
  nat := nat_eq
  add := binary_eq_some.trans (by simp [BinaryOp.rational?])
  mul := binary_eq_some.trans (by simp [BinaryOp.rational?])
  lt {v w} := by cases v <;> cases w <;> simp [Scalar.lt, compare]
  le {v w} := by cases v <;> cases w <;> simp [Scalar.le, compare]

theorem exactArithmetic : Scalar.ExactArithmetic (some : ℚ → PartialRational) where
  toOrderedRing := orderedRing
  finite {v} := by cases v <;> simp [Scalar.isFinite]
  eq {v w} := by
    constructor
    · intro H
      obtain rfl := eq_of_eq H
      cases v with
      | none => cases H
      | some a => exact ⟨a, rfl, rfl⟩
    · rintro ⟨a, rfl, rfl⟩
      exact beq_self_eq_true a
  abs {v c} := by cases v <;> simp [Scalar.abs]
  neg := unary_eq_some.trans (by simp [UnaryOp.rational?])
  sub := binary_eq_some.trans (by simp [BinaryOp.rational?])
  div := binary_eq_some.trans <| exists_congr fun u => exists_congr fun v =>
    and_congr_right fun _ => and_congr_right fun _ => by
      by_cases hv : v = 0
      · simp [BinaryOp.rational?, hv]
      · rw [rational?_div hv, Option.some_inj, div_eq_iff hv, eq_comm]
        exact (and_iff_right hv).symm
  sqrt H := by
    obtain ⟨_, _, h⟩ := unary_eq_some.mp H
    cases h

end PartialRational

/-! ## Consequences -/

variable {α K : Type} [Scalar α] [CommRing K] [LinearOrder K] {num : K → α} {u v w : α}

namespace Scalar.ExactArithmetic

theorem zero (A : ExactArithmetic num) : (Scalar.nat 0 : α) = num 0 := by
  rw [A.nat, Nat.cast_zero]

theorem exists_of_isFraction (A : ExactArithmetic num) (H : Scalar.isFraction v = true) :
    ∃ a, v = num a ∧ 0 < a ∧ a < 1 := by
  obtain ⟨hlow, hhigh⟩ := Bool.and_eq_true_iff.mp H
  obtain ⟨z, a, hz, rfl, h0⟩ := A.lt.mp hlow
  obtain ⟨a', o, ha, ho, h1⟩ := A.lt.mp hhigh
  cases A.injective ha
  cases A.injective ((A.nat 0).symm.trans hz)
  cases A.injective ((A.nat 1).symm.trans ho)
  exact ⟨a, rfl, by simpa using h0, by simpa using h1⟩

theorem zeroAbs [IsStrictOrderedRing K] (A : ExactArithmetic num) : ZeroAbs α := by
  intro v hv
  obtain ⟨z, hz, h0⟩ := A.eq.mp hv
  cases A.injective (A.zero.symm.trans h0)
  obtain ⟨a, rfl, ha⟩ := A.abs.mp hz
  exact A.eq.mpr ⟨0, congrArg num (abs_eq_zero.mp ha), A.zero⟩

theorem le_refl (A : ExactArithmetic num) (hv : isFinite v = true) : Scalar.le v v = true := by
  obtain ⟨a, rfl⟩ := A.finite.mp hv
  exact A.le.mpr ⟨a, a, rfl, rfl, le_rfl⟩

theorem le_trans (A : ExactArithmetic num) (H : Scalar.le u v = true) (H' : Scalar.le v w = true) :
    Scalar.le u w = true := by
  obtain ⟨a, b, rfl, rfl, hab⟩ := A.le.mp H
  obtain ⟨b', c, hb, rfl, hbc⟩ := A.le.mp H'
  cases A.injective hb
  exact A.le.mpr ⟨a, c, rfl, rfl, hab.trans hbc⟩

end Scalar.ExactArithmetic

theorem Point.flip_embed {dim : ℕ} (A : Scalar.ExactArithmetic num) (G : Fin dim → K) :
    (embed num G).flip = embed num (-G) := by
  refine Array.ext (by simp [flip]) fun i _ _ => ?_
  simpa [flip] using A.neg.mpr ⟨_, rfl, rfl⟩

end Downhill
