import Mathlib
import Downhill.Proofs.Scalar.Double

/-!
# Zeros

What a product or a quotient of zero comes to depends on the other number, which may be infinite or
undefined. The laws of zeros (`Scalar.ZeroLaws`) hold for doubles: zero times a finite double is
zero, and so is zero divided by anything but zero and NaN. Multiplying by one keeps a double finite.
-/

namespace Downhill

open scoped Scalar

namespace Scalar

variable {α : Type} [Scalar α]

def IsZero (v : α) : Prop := eq v (nat 0) = true

/-- A number that makes zero of zero as a factor. -/
def Factor (c : α) : Prop := IsZero (nat 0 * c)

/-- A number that makes zero of zero as a divisor. -/
def Divisor (c : α) : Prop := IsZero (nat 0 / c)

/-- The second number is what may be found in a pool in place of the first. -/
def StoredAs (v w : α) : Prop := w = v ∨ eq v w = true

/-- What is asked of zeros; there may be several. -/
structure ZeroLaws (α : Type) [Scalar α] : Prop where
  zero : IsZero (nat 0 : α)
  one : ∀ {w : α}, StoredAs (nat 1) w → ¬IsZero w
  two : ∀ {w : α}, StoredAs (nat 2) w → ¬IsZero w
  stored : ∀ {v w : α}, IsZero v → StoredAs v w → IsZero w
  neg : ∀ {v : α}, IsZero v → IsZero (-v)
  add : ∀ {v w : α}, IsZero v → IsZero w → IsZero (v + w)
  sub : ∀ {v w : α}, IsZero v → IsZero w → IsZero (v - w)
  mul : ∀ {v c : α}, IsZero v → Factor c → IsZero (v * c)
  mul_right : ∀ {v c : α}, IsZero v → Factor c → IsZero (c * v)
  div : ∀ {v c : α}, IsZero v → Divisor c → IsZero (v / c)
  factor_zero : Factor (nat 0 : α)
  factor_one : ∀ {c u : α}, Factor c → StoredAs (nat 1) u → Factor (c * u)
  factor_stored : ∀ {v w : α}, Factor v → StoredAs v w → Factor w
  divisor_stored : ∀ {v w : α}, Divisor v → StoredAs v w → Divisor w

end Scalar

namespace Double

open Float.Model Float.Model.UnpackedFloat

variable {a b : UnpackedFloat} {v w c : Float}

/-! ## Results as they are stored -/

/-- What is left of a result when it has been packed. -/
def stored (a : UnpackedFloat) : UnpackedFloat := unpack .binary64 (UnpackedFloat.pack .binary64 a)

@[simp] theorem stored_zero (s : Sign) : stored (.zero s) = .zero s := by cases s <;> rfl

@[simp] theorem stored_notANumber : stored .notANumber = .notANumber := rfl

theorem unpack_mul (v w : Float) :
    (v * w).toModel.unpack =
      stored (UnpackedFloat.mul .binary64 v.toModel.unpack w.toModel.unpack) :=
  rfl

theorem unpack_div (v w : Float) :
    (v / w).toModel.unpack =
      stored (UnpackedFloat.div .binary64 v.toModel.unpack w.toModel.unpack) :=
  rfl

/-- A finite double less itself is zero. -/
theorem unpack_sub_self (hv : v.toModel.unpack.isFinite = true) :
    (v - v).toModel.unpack = .zero .positive := by
  change stored (UnpackedFloat.sub .binary64 v.toModel.unpack v.toModel.unpack) = _
  cases hu : v.toModel.unpack with
  | infinity | notANumber => rw [hu] at hv; cases hv
  | zero s => cases s <;> rfl
  | finite s m e hm =>
    simp only [UnpackedFloat.sub, Int.sub_self]
    exact stored_zero .positive

/-- Only infinities and NaN have all bits of the exponent set. -/
theorem isFinite_unpack {b : BitVec Format.binary64.numBits} (H : unpackExponent b ≠ -1#_) :
    (unpack .binary64 b).isFinite = true := by
  rw [UnpackedFloat.unpack, if_neg H]
  split
  · split <;> rfl
  · rfl

/-- A number is stored as a number unless it is too large. -/
theorem stored_finite (he : e ≤ 971) : (stored (.finite s m e h)).isFinite = true := by
  have hbias : ((Format.binary64.exponentBias : Nat) : Int) = 1023 := rfl
  have hsmall : (e + Format.binary64.exponentBias + (52 : Nat)).toNat ≤ 2046 := by
    rw [hbias]
    omega
  have hpow : (2 : Nat) ^ Format.binary64.exponentBits = 2048 := rfl
  rw [stored, UnpackedFloat.pack]
  dsimp only
  rw [if_neg (by rw [hpow]; omega)]
  refine isFinite_unpack ?_
  split
  · rw [unpackExponent_packComponents]
    intro heq
    have heq := congrArg BitVec.toNat heq
    rw [BitVec.toNat_ofNat, Nat.mod_eq_of_lt (by omega)] at heq
    change _ = 2047 at heq
    omega
  · rw [unpackExponent_packComponents]
    decide

/-! ## Rounding -/

/-- Shifting out zeros loses nothing. -/
theorem shiftRight_mul_two_pow (m n : ℕ) :
    (⟨m * 2 ^ n, false, false⟩ : ExtendedMantissa) >>> n = ⟨m, false, false⟩ := by
  change Nat.repeat ExtendedMantissa.shiftRightOne n _ = _
  induction n generalizing m with
  | zero => simp [Nat.repeat]
  | succ n ih =>
    rw [Nat.repeat, Nat.pow_succ', ← Nat.mul_assoc, ih]
    simp [ExtendedMantissa.shiftRightOne]

theorem log2_mul_two_pow {m : ℕ} (hm : 0 < m) (n : ℕ) : (m * 2 ^ n).log2 = m.log2 + n := by
  have hpow : 0 < 2 ^ n := Nat.two_pow_pos n
  rw [Nat.log2_eq_iff (Nat.mul_pos hm hpow).ne', Nat.add_right_comm, Nat.pow_add, Nat.pow_add]
  exact ⟨Nat.mul_le_mul_right _ (Nat.log2_self_le hm.ne'),
    Nat.mul_lt_mul_of_pos_right Nat.lt_log2_self hpow⟩

theorem totalExponent_mul_two_pow {m : ℕ} (hm : 0 < m) (n : ℕ) (e : ℤ) :
    totalExponent (m * 2 ^ n) e = totalExponent m (e + n) := by
  rw [totalExponent, totalExponent, log2_mul_two_pow hm]
  omega

/-- A number that the format has room for is not changed by rounding. -/
theorem roundWithAccuracy_exact {k n : ℕ} {e : ℤ} (hk : 0 < k)
    (htarget : Format.binary64.targetExponent (totalExponent k (e + n)) = e + n) :
    roundWithAccuracy .binary64 s (k * 2 ^ n) e .exact = .finite s k (e + n) hk := by
  have hfirst : shiftToTargetExponent .binary64 (k * 2 ^ n) e .exact =
      (⟨k, false, false⟩, e + n) := by
    have hn : (e + n - e).toNat = n := by omega
    rw [shiftToTargetExponent, shiftToExponent, totalExponent_mul_two_pow hk, htarget, hn]
    exact Prod.ext (shiftRight_mul_two_pow k n) rfl
  have hsecond : shiftToTargetExponent .binary64 k (e + n) .exact =
      (⟨k, false, false⟩, e + n) := by
    have h0 : (e + n - (e + n)).toNat = 0 := by omega
    rw [shiftToTargetExponent, shiftToExponent, htarget, h0]
    exact Prod.ext rfl (Int.add_zero _)
  have hrounded : (⟨k, false, false⟩ : ExtendedMantissa).roundedMantissa = k := rfl
  simp only [roundWithAccuracy, hfirst, hrounded, hsecond]
  exact dif_neg hk.ne'

/-- A finite double times one is finite. -/
theorem isFinite_mul_one {c u : Float} (hc : c.toModel.unpack.isFinite = true)
    (hu : u.toModel.unpack = .finite .positive (2 ^ 52) (-52) (Nat.two_pow_pos 52)) :
    (c * u).toModel.unpack.isFinite = true := by
  rw [unpack_mul, hu]
  cases hv : c.toModel.unpack with
  | infinity | notANumber => rw [hv] at hc; cases hc
  | zero s => cases s <;> rfl
  | finite s m e hm =>
    obtain ⟨hm53, hmin, hmax⟩ : m < 2 ^ 53 ∧ -1074 ≤ e ∧ e ≤ 971 := by
      have hfinite := finite_unpack hv
      omega
    have hlog : m.log2 < 53 := (Nat.log2_lt hm.ne').mpr hm53
    -- the product has 52 zeros at the end, of which some or all are shifted out
    obtain ⟨n, hn, htarget⟩ : ∃ n : ℕ, n ≤ 52 ∧
        Format.binary64.targetExponent (totalExponent m e) = e + -52 + n := by
      have hbits : (Format.binary64.mantissaBits : ℤ) = 53 := rfl
      have hleast : Format.binary64.minExponent = -1074 := rfl
      rw [Format.targetExponent, totalExponent, hbits, hleast]
      exact ⟨(max (m.log2 + 1 + e - 53) (-1074) - (e + -52)).toNat, by omega, by omega⟩
    have hk : 0 < m * 2 ^ (52 - n) := Nat.mul_pos hm (Nat.two_pow_pos _)
    have hproduct : m * 2 ^ 52 = m * 2 ^ (52 - n) * 2 ^ n := by
      rw [Nat.mul_assoc, ← Nat.pow_add, Nat.sub_add_cancel hn]
    rw [UnpackedFloat.mul, hproduct, roundWithAccuracy_exact hk]
    · exact stored_finite (by omega)
    · rw [totalExponent_mul_two_pow hm, ← htarget]
      congr 2
      omega

/-! ## Laws -/

/-- Doubles that compare equal are the same or both zero. -/
theorem eq_cases (H : Scalar.eq v w = true) : v = w ∨ Scalar.IsZero v ∧ Scalar.IsZero w := by
  rcases beq_iff.mp H with ⟨hv, hw⟩ | ⟨heq, _⟩
  · exact .inr ⟨eq_zero_iff.mpr hv, eq_zero_iff.mpr hw⟩
  · exact .inl (eq_of_unpack heq)

theorem unpack_one :
    (Scalar.nat 1 : Float).toModel.unpack = .finite .positive (2 ^ 52) (-52) (Nat.two_pow_pos 52) :=
  rfl

theorem unpack_two :
    (Scalar.nat 2 : Float).toModel.unpack = .finite .positive (2 ^ 52) (-51) (Nat.two_pow_pos 52) :=
  rfl

/-- What is found in place of a double is the same, or else both are zeros. -/
theorem unpack_of_storedAs (H : Scalar.StoredAs v w) :
    w.toModel.unpack = v.toModel.unpack ∨ IsZero v.toModel.unpack ∧ IsZero w.toModel.unpack := by
  rcases H with rfl | H
  · exact .inl rfl
  · rcases beq_iff.mp H with hz | ⟨heq, _⟩
    · exact .inr hz
    · exact .inl heq.symm

theorem isZero_storedAs (H : Scalar.StoredAs v w) :
    IsZero w.toModel.unpack ↔ IsZero v.toModel.unpack := by
  rcases unpack_of_storedAs H with heq | ⟨hv, hw⟩
  · rw [heq]
  · exact iff_of_true hw hv

theorem isZero_mul (hv : IsZero v.toModel.unpack) :
    IsZero (v * c).toModel.unpack ↔ c.toModel.unpack.isFinite = true := by
  obtain ⟨s, hs⟩ := hv
  rw [unpack_mul, hs]
  cases c.toModel.unpack <;> simp [UnpackedFloat.mul, IsZero, UnpackedFloat.isFinite]

theorem isZero_mul_right (hv : IsZero v.toModel.unpack) :
    IsZero (c * v).toModel.unpack ↔ c.toModel.unpack.isFinite = true := by
  obtain ⟨s, hs⟩ := hv
  rw [unpack_mul, hs]
  cases c.toModel.unpack <;> simp [UnpackedFloat.mul, IsZero, UnpackedFloat.isFinite]

theorem isZero_div (hv : IsZero v.toModel.unpack) : IsZero (v / c).toModel.unpack ↔
    c.toModel.unpack ≠ .notANumber ∧ ¬IsZero c.toModel.unpack := by
  obtain ⟨s, hs⟩ := hv
  rw [unpack_div, hs]
  cases c.toModel.unpack <;> simp [UnpackedFloat.div, IsZero]

theorem factor_iff : Scalar.Factor c ↔ c.toModel.unpack.isFinite = true :=
  eq_zero_iff.trans (isZero_mul ⟨_, rfl⟩)

theorem divisor_iff :
    Scalar.Divisor c ↔ c.toModel.unpack ≠ .notANumber ∧ ¬IsZero c.toModel.unpack :=
  eq_zero_iff.trans (isZero_div ⟨_, rfl⟩)

theorem zeroLaws : Scalar.ZeroLaws Float where
  zero := eq_zero_iff.mpr ⟨_, rfl⟩
  one {w} hw hz := by
    obtain ⟨_, hs⟩ := (isZero_storedAs hw).mp (eq_zero_iff.mp hz)
    exact nomatch unpack_one.symm.trans hs
  two {w} hw hz := by
    obtain ⟨_, hs⟩ := (isZero_storedAs hw).mp (eq_zero_iff.mp hz)
    exact nomatch unpack_two.symm.trans hs
  stored hv hw := eq_zero_iff.mpr ((isZero_storedAs hw).mpr (eq_zero_iff.mp hv))
  neg {v} hv := by
    obtain ⟨s, hs⟩ := eq_zero_iff.mp hv
    refine eq_zero_iff.mpr ⟨-s, ?_⟩
    change stored v.toModel.unpack.neg = _
    rw [hs]
    exact stored_zero _
  add {v w} hv hw := by
    obtain ⟨s, hs⟩ := eq_zero_iff.mp hv
    obtain ⟨t, ht⟩ := eq_zero_iff.mp hw
    refine eq_zero_iff.mpr ?_
    change IsZero (stored (UnpackedFloat.add .binary64 v.toModel.unpack w.toModel.unpack))
    rw [hs, ht]
    cases s <;> cases t <;> exact ⟨_, rfl⟩
  sub {v w} hv hw := by
    obtain ⟨s, hs⟩ := eq_zero_iff.mp hv
    obtain ⟨t, ht⟩ := eq_zero_iff.mp hw
    refine eq_zero_iff.mpr ?_
    change IsZero (stored (UnpackedFloat.sub .binary64 v.toModel.unpack w.toModel.unpack))
    rw [hs, ht]
    cases s <;> cases t <;> exact ⟨_, rfl⟩
  mul hv hc := eq_zero_iff.mpr ((isZero_mul (eq_zero_iff.mp hv)).mpr (factor_iff.mp hc))
  mul_right hv hc := eq_zero_iff.mpr ((isZero_mul_right (eq_zero_iff.mp hv)).mpr (factor_iff.mp hc))
  div hv hc := eq_zero_iff.mpr ((isZero_div (eq_zero_iff.mp hv)).mpr (divisor_iff.mp hc))
  factor_zero := factor_iff.mpr rfl
  factor_one {c u} hc hu := by
    rcases unpack_of_storedAs hu with heq | ⟨hone, _⟩
    · exact factor_iff.mpr (isFinite_mul_one (factor_iff.mp hc) heq)
    · obtain ⟨_, hs⟩ := hone
      exact nomatch unpack_one.symm.trans hs
  factor_stored hv hw := by
    rw [factor_iff] at hv ⊢
    rcases unpack_of_storedAs hw with heq | ⟨_, s, hs⟩
    · rwa [heq]
    · rw [hs]
      rfl
  divisor_stored hv hw := by
    rw [divisor_iff] at hv ⊢
    rcases unpack_of_storedAs hw with heq | ⟨hz, _⟩
    · rwa [heq]
    · exact absurd hz hv.2

end Double

end Downhill
