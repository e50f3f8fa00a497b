import Mathlib.Data.Rat.Cast.Order
import Mathlib.Tactic
import Downhill.Decimal.Shortest

/-!
# The numbers that are read as a double

A double that is not negative is read from the numbers around it, up to halfway to its neighbours,
ends included if its mantissa is even (`Binary.Accepts`). That is what is tested of the points of a
grid (`readsAs_iff`), and no number is read as two doubles (`Accepts.unique`).
-/

namespace Downhill

theorem pow_toNat {a : ℚ} (ha : a ≠ 0) (k : ℤ) : a ^ k.toNat = a ^ k * a ^ (-k).toNat := by
  rw [← zpow_natCast, ← zpow_natCast, ← zpow_add₀ ha]
  congr 1
  omega

namespace Decimal

def value (d : Decimal) : ℚ := d.digits * 10 ^ d.exponent

end Decimal

namespace Binary

/-- A number as the bits of a double hold it. -/
structure Valid (b : Binary) : Prop where
  lt : b.mantissa < 2 ^ 53
  least : -1074 ≤ b.exponent
  greatest : b.exponent ≤ 971
  normal : -1074 < b.exponent → 2 ^ 52 ≤ b.mantissa
  narrow : b.narrowBelow = true ↔ b.mantissa = 2 ^ 52 ∧ -1074 < b.exponent

/-- A number that is not zero. -/
structure Proper (b : Binary) : Prop extends b.Valid where
  pos : 0 < b.mantissa

variable {b c : Binary} {x : ℚ} {k : ℤ} {d : ℕ}

def value (b : Binary) : ℚ := b.mantissa * 2 ^ b.exponent

/-- A quarter of the last place. -/
def quarter (b : Binary) : ℚ := 2 ^ (b.exponent - 2)

def low (b : Binary) : ℚ := b.value - (if b.narrowBelow then 1 else 2) * b.quarter

def high (b : Binary) : ℚ := b.value + 2 * b.quarter

/-- The number is read as the double. -/
def Accepts (b : Binary) (x : ℚ) : Prop :=
  if b.mantissa % 2 = 0 then b.low ≤ x ∧ x ≤ b.high else b.low < x ∧ x < b.high

theorem quarter_pos (b : Binary) : 0 < b.quarter := zpow_pos two_pos _

theorem value_eq (b : Binary) : b.value = 4 * b.mantissa * b.quarter := by
  rw [value, quarter, zpow_sub₀ two_ne_zero]
  ring

theorem Accepts.of_lt (hl : b.low < x) (hh : x < b.high) : b.Accepts x := by
  unfold Accepts
  split
  · exact ⟨hl.le, hh.le⟩
  · exact ⟨hl, hh⟩

theorem Accepts.low_le (H : b.Accepts x) : b.low ≤ x := by
  unfold Accepts at H
  split at H
  · exact H.1
  · exact H.1.le

theorem Accepts.le_high (H : b.Accepts x) : x ≤ b.high := by
  unfold Accepts at H
  split at H
  · exact H.2
  · exact H.2.le

/-- The ends belong to even mantissas only. -/
theorem Accepts.even (H : b.Accepts x) (hx : x = b.low ∨ x = b.high) : b.mantissa % 2 = 0 := by
  unfold Accepts at H
  split at H
  · assumption
  · rcases hx with rfl | rfl
    · exact absurd H.1 (lt_irrefl _)
    · exact absurd H.2 (lt_irrefl _)

theorem low_pos (H : b.Proper) : 0 < b.low := by
  have hq := b.quarter_pos
  have hm : (1 : ℚ) ≤ b.mantissa := by exact_mod_cast H.pos
  rw [low, value_eq]
  split <;> nlinarith

/-! ## Grids -/

theorem denominator_pos (b : Binary) : 0 < b.denominator := by
  rw [denominator, Nat.one_shiftLeft]
  exact Nat.two_pow_pos _

theorem unit_eq (b : Binary) : (b.unit : ℚ) = b.quarter * b.denominator := by
  rw [unit, quarter, denominator, Nat.one_shiftLeft, Nat.one_shiftLeft, Nat.cast_pow, Nat.cast_pow,
    Nat.cast_ofNat, pow_toNat two_ne_zero, neg_sub]

theorem numerator_nat (b : Binary) : b.numerator = 4 * b.mantissa * b.unit := by
  rw [numerator, unit, Nat.shiftLeft_eq, Nat.one_shiftLeft]

theorem numerator_eq (b : Binary) : (b.numerator : ℚ) = b.value * b.denominator := by
  rw [numerator_nat, Nat.cast_mul, unit_eq, value_eq]
  push_cast
  ring

/-- What steps of a grid and numbers are both counted in. -/
def scale (b : Binary) (k : ℤ) : ℚ := b.denominator * 10 ^ (-k).toNat

theorem scale_pos (b : Binary) (k : ℤ) : 0 < b.scale k :=
  mul_pos (by exact_mod_cast b.denominator_pos) (by positivity)

theorem cast_step (b : Binary) (k : ℤ) (d : ℕ) :
    ((d * Decimal.step b.denominator k : ℕ) : ℚ) = d * 10 ^ k * b.scale k := by
  rw [Decimal.step, scale]
  push_cast
  rw [Nat.pow_eq, Nat.cast_pow, Nat.cast_ofNat, pow_toNat (by norm_num : (10 : ℚ) ≠ 0)]
  ring

theorem cast_scaled (b : Binary) (k : ℤ) {n : ℕ} {y : ℚ} (h : (n : ℚ) = y * b.denominator) :
    ((Decimal.scaled n k : ℕ) : ℚ) = y * b.scale k := by
  rw [Decimal.scaled, scale, Nat.cast_mul, h, Nat.pow_eq, Nat.cast_pow, Nat.cast_ofNat]
  ring

/-- The ends of the interval, as they are compared with points of a grid. -/
theorem cast_low (hb : 0 < b.mantissa) (k : ℤ) :
    ((Decimal.scaled (b.numerator - (if b.narrowBelow then b.unit else 2 * b.unit)) k : ℕ) : ℚ) =
      b.low * b.scale k := by
  refine cast_scaled b k ?_
  have hle : 4 * b.unit ≤ b.numerator := by
    rw [numerator_nat, mul_assoc, mul_comm b.mantissa, ← mul_assoc]
    exact Nat.le_mul_of_pos_right _ hb
  cases hn : b.narrowBelow with
  | true =>
    rw [if_pos rfl, Nat.cast_sub (by omega), numerator_eq, unit_eq, low, hn, if_pos rfl]
    ring
  | false =>
    rw [if_neg Bool.false_ne_true, Nat.cast_sub (by omega), numerator_eq, Nat.cast_mul, unit_eq,
      low, hn, if_neg Bool.false_ne_true]
    push_cast
    ring

theorem cast_high (b : Binary) (k : ℤ) :
    ((Decimal.scaled (b.numerator + 2 * b.unit) k : ℕ) : ℚ) = b.high * b.scale k := by
  refine cast_scaled b k ?_
  rw [Nat.cast_add, numerator_eq, Nat.cast_mul, unit_eq, high]
  push_cast
  ring

theorem readsAs_iff (hb : 0 < b.mantissa) : b.readsAs k d = true ↔ b.Accepts (d * 10 ^ k) := by
  have hs := b.scale_pos k
  have hlow := cast_low hb k
  have hhigh := b.cast_high k
  have hx := b.cast_step k d
  unfold readsAs Accepts
  dsimp only
  split
  · rw [Bool.and_eq_true, decide_eq_true_eq, decide_eq_true_eq, ← Nat.cast_le (α := ℚ),
      ← Nat.cast_le (α := ℚ), hlow, hhigh, hx, mul_le_mul_iff_left₀ hs, mul_le_mul_iff_left₀ hs]
  · rw [Bool.and_eq_true, decide_eq_true_eq, decide_eq_true_eq, ← Nat.cast_lt (α := ℚ),
      ← Nat.cast_lt (α := ℚ), hlow, hhigh, hx, mul_lt_mul_iff_left₀ hs, mul_lt_mul_iff_left₀ hs]

/-! ## Neighbours -/

theorem high_eq (b : Binary) : b.high = (4 * b.mantissa + 2) * b.quarter := by
  rw [high, value_eq]
  ring

theorem low_eq (h : b.narrowBelow = false) : b.low = (4 * b.mantissa - 2) * b.quarter := by
  rw [low, value_eq, h, if_neg Bool.false_ne_true]
  ring

/-- The end of an interval, as a multiple of the unit of any interval above it. -/
theorem Valid.low_ge (H : b.Valid) (he : -1074 < b.exponent) :
    (2 ^ 54 - 1) * b.quarter ≤ b.low := by
  have hq := b.quarter_pos
  cases hn : b.narrowBelow with
  | true =>
    have hm : b.mantissa = 2 ^ 52 := (H.narrow.mp hn).1
    rw [low, value_eq, hn, if_pos rfl, hm]
    push_cast
    linarith
  | false =>
    have hne : b.mantissa ≠ 2 ^ 52 := fun hm => nomatch hn.symm.trans (H.narrow.mpr ⟨hm, he⟩)
    have hm : 2 ^ 52 + 1 ≤ b.mantissa := by
      have := H.normal he
      omega
    have hm : (2 ^ 52 + 1 : ℚ) ≤ b.mantissa := by exact_mod_cast hm
    rw [low_eq hn]
    nlinarith

/-- The intervals of adjacent exponents meet at most, and then that of an odd mantissa is below. -/
theorem ends_of_exponent_lt (hb : b.Valid) (hc : c.Valid) (he : b.exponent < c.exponent) :
    b.high ≤ c.low ∧ (b.high = c.low → b.mantissa % 2 = 1) := by
  have hq := b.quarter_pos
  have hcq : 2 * b.quarter ≤ c.quarter := by
    rw [quarter, quarter, ← zpow_one_add₀ two_ne_zero]
    exact zpow_le_zpow_right₀ one_le_two (by omega)
  have hlow : (2 ^ 55 - 2) * b.quarter ≤ c.low := by
    have := hc.low_ge (hb.least.trans_lt he)
    linarith
  rw [high_eq]
  refine ⟨?_, fun heq => ?_⟩
  · have hm : (b.mantissa + 1 : ℚ) ≤ 2 ^ 53 := by exact_mod_cast hb.lt
    nlinarith
  · have hle : (2 ^ 55 - 2 : ℚ) ≤ 4 * b.mantissa + 2 := le_of_mul_le_mul_right (by rwa [heq]) hq
    have hge : (2 ^ 53 : ℚ) ≤ b.mantissa + 1 := by linarith
    have hge : 2 ^ 53 ≤ b.mantissa + 1 := by exact_mod_cast hge
    have hlt := hb.lt
    omega

/-- Of neighbouring intervals with the same exponent one is that of an odd mantissa. -/
theorem ends_of_mantissa_lt (hb : b.Valid) (hc : c.Valid) (he : b.exponent = c.exponent)
    (hm : b.mantissa < c.mantissa) :
    b.high ≤ c.low ∧ (b.high = c.low → b.mantissa % 2 = 1 ∨ c.mantissa % 2 = 1) := by
  have hq := b.quarter_pos
  have hn : c.narrowBelow = false := by
    refine Bool.eq_false_iff.mpr fun hn => ?_
    obtain ⟨h52, hgt⟩ := hc.narrow.mp hn
    have := hb.normal (by omega)
    omega
  rw [high_eq, low_eq hn, quarter, quarter, ← he, ← quarter]
  refine ⟨?_, fun heq => ?_⟩
  · have hm : (b.mantissa + 1 : ℚ) ≤ c.mantissa := by exact_mod_cast hm
    nlinarith
  · have heq : (4 * b.mantissa + 2 : ℚ) = 4 * c.mantissa - 2 := mul_right_cancel₀ hq.ne' heq
    have heq : (b.mantissa + 1 : ℚ) = c.mantissa := by linarith
    have heq : b.mantissa + 1 = c.mantissa := by exact_mod_cast heq
    omega

/-- Where the one is less than the other, so are all the numbers that are read as the one. -/
theorem Accepts.not_both (hb : b.Valid) (hc : c.Valid)
    (hlt : b.exponent < c.exponent ∨ b.exponent = c.exponent ∧ b.mantissa < c.mantissa)
    (H : b.Accepts x) (H' : c.Accepts x) : False := by
  have hends : b.high ≤ c.low ∧ (b.high = c.low → b.mantissa % 2 = 1 ∨ c.mantissa % 2 = 1) := by
    rcases hlt with he | ⟨he, hm⟩
    · exact (ends_of_exponent_lt hb hc he).imp_right fun h heq => .inl (h heq)
    · exact ends_of_mantissa_lt hb hc he hm
  have heq : b.high = c.low := le_antisymm hends.1 (H'.low_le.trans H.le_high)
  have hxb : x = b.high := le_antisymm H.le_high (heq.trans_le H'.low_le)
  have hb2 := H.even (.inr hxb)
  have hc2 := H'.even (.inl (hxb.trans heq))
  rcases hends.2 heq with h | h
  · omega
  · omega

/-- No number is read as two doubles. -/
theorem Accepts.unique (hb : b.Valid) (hc : c.Valid) (H : b.Accepts x) (H' : c.Accepts x) :
    b.mantissa = c.mantissa ∧ b.exponent = c.exponent := by
  have hbc := fun hlt => not_both hb hc hlt H H'
  have hcb := fun hlt => not_both hc hb hlt H' H
  have he : b.exponent = c.exponent :=
    le_antisymm (not_lt.mp fun h => hcb (.inl h)) (not_lt.mp fun h => hbc (.inl h))
  exact ⟨le_antisymm (not_lt.mp fun h => hcb (.inr ⟨he.symm, h⟩))
    (not_lt.mp fun h => hbc (.inr ⟨he, h⟩)), he⟩

end Binary

end Downhill
