import Downhill.Proofs.Decimal.Interval

/-!
# Shortest decimals read back

Whatever the search for the fewest digits finds is read as the double it was made from
(`Binary.Proper.accepts_shortest`). On the grids before the last this is tested. On the last there
are at least `10 ^ 16` steps below the number (`Decimal.magnitude_le`), and half of a step does not
lead out of the interval (`Binary.Proper.accepts_near`).
-/

namespace Downhill

namespace Decimal

variable {num den n : ℕ}

/-! ## Magnitudes -/

theorem lt_pow_digitCount (n : ℕ) : n < 10 ^ digitCount n := by
  rw [digitCount]
  split
  · omega
  · exact (Nat.length_toDigits_le_iff (by decide) Nat.length_toDigits_pos).mp le_rfl

theorem pow_digitCount_le (hn : 0 < n) : 10 ^ (digitCount n - 1) ≤ n := by
  rw [digitCount, if_neg hn.ne']
  rcases Nat.eq_zero_or_pos ((Nat.toDigits 10 n).length - 1) with h0 | hpos
  · rw [h0]
    exact hn
  · refine not_lt.mp fun hlt => ?_
    have hle := (Nat.length_toDigits_le_iff (by decide) hpos).mpr hlt
    omega

theorem magnitude_le (hnum : 0 < num) (hden : 0 < den) :
    (10 : ℚ) ^ magnitude num den ≤ num / den := by
  have hd : (0 : ℚ) < den := by exact_mod_cast hden
  rw [magnitude, le_div_iff₀ hd]
  split
  · rename_i hle
    have hq : 0 < num / den := Nat.div_pos hle hden
    have hcount : 0 < digitCount (num / den) := by
      rw [digitCount, if_neg hq.ne']
      exact Nat.length_toDigits_pos
    have hmul : 10 ^ (digitCount (num / den) - 1) * den ≤ num :=
      (Nat.mul_le_mul_right den (pow_digitCount_le hq)).trans (Nat.div_mul_le_self num den)
    rw [show (digitCount (num / den) : ℤ) - 1 = ((digitCount (num / den) - 1 : ℕ) : ℤ) by omega,
      zpow_natCast]
    exact_mod_cast hmul
  · have hlt : den - 1 < 10 ^ digitCount ((den - 1) / num) * num :=
      (Nat.div_lt_iff_lt_mul hnum).mp (lt_pow_digitCount _)
    have hle : den ≤ num * 10 ^ digitCount ((den - 1) / num) := by
      rw [mul_comm]
      omega
    rw [zpow_neg, zpow_natCast, inv_mul_le_iff₀ (by positivity), mul_comm]
    exact_mod_cast hle

/-! ## Rounding -/

theorem roundDiv_near (num : ℕ) (hden : 0 < den) :
    2 * (roundDiv num den * den) ≤ 2 * num + den ∧
      2 * num ≤ 2 * (roundDiv num den * den) + den := by
  have hdiv := Nat.div_add_mod' num den
  have hmod := Nat.mod_lt num hden
  have hnext : (num / den + 1) * den = num / den * den + den := Nat.add_one_mul _ _
  rw [roundDiv]
  split
  · omega
  split
  · omega
  split
  · omega
  · omega

theorem roundDiv_cases (num den : ℕ) :
    roundDiv num den = num / den ∨ roundDiv num den = num / den + 1 := by
  rw [roundDiv]
  split
  · exact .inl rfl
  split
  · exact .inr rfl
  split
  · exact .inl rfl
  · exact .inr rfl

end Decimal

namespace Binary

variable {b : Binary} {k : ℤ} {d n : ℕ}

theorem onGrid?_readsAs (H : b.onGrid? k = some d) : b.readsAs k d = true := by
  unfold onGrid? at H
  dsimp only at H
  split at H
  · rename_i hbelow habove
    cases H
    rcases Decimal.roundDiv_cases (Decimal.scaled b.numerator k) (Decimal.step b.denominator k)
      with h | h
    · rw [h]
      exact hbelow
    · rw [h]
      exact habove
  · cases H
    assumption
  · cases H
    assumption
  · cases H

/-- A nearest point of a grid is half a step away at most. -/
theorem roundDiv_le (b : Binary) (k : ℤ) :
    |(Decimal.roundDiv (Decimal.scaled b.numerator k) (Decimal.step b.denominator k) : ℚ) * 10 ^ k
      - b.value| ≤ 10 ^ k / 2 := by
  have hs := b.scale_pos k
  have hstep : 0 < Decimal.step b.denominator k := Nat.mul_pos b.denominator_pos (by simp)
  have hone := b.cast_step k 1
  rw [one_mul, Nat.cast_one, one_mul] at hone
  have hnum := cast_scaled b k b.numerator_eq
  obtain ⟨hle, hge⟩ := Decimal.roundDiv_near (Decimal.scaled b.numerator k) hstep
  generalize Decimal.roundDiv (Decimal.scaled b.numerator k) (Decimal.step b.denominator k) = d
    at hle hge ⊢
  have hle : 2 * (d * 10 ^ k * b.scale k) ≤ 2 * (b.value * b.scale k) + 10 ^ k * b.scale k := by
    rw [← b.cast_step, ← hnum, ← hone]
    exact_mod_cast hle
  have hge : 2 * (b.value * b.scale k) ≤ 2 * (d * 10 ^ k * b.scale k) + 10 ^ k * b.scale k := by
    rw [← b.cast_step, ← hnum, ← hone]
    exact_mod_cast hge
  refine abs_le.mpr ⟨?_, ?_⟩
  · exact le_of_mul_le_mul_right (by linarith) hs
  · exact le_of_mul_le_mul_right (by linarith) hs

/-- Where there are `10 ^ 16` steps below the number, half a step does not leave the interval. -/
theorem Proper.accepts_near (H : b.Proper) {x y : ℚ} (hy : 10 ^ 16 * y ≤ b.value)
    (hx : |x - b.value| ≤ y / 2) : b.Accepts x := by
  have hq := b.quarter_pos
  obtain ⟨hlo, hhi⟩ := abs_le.mp hx
  have hlt : (b.mantissa : ℚ) < 2 ^ 53 := by exact_mod_cast H.lt
  have hvalue : b.value < 2 ^ 55 * b.quarter := by
    rw [value_eq]
    nlinarith
  have hhalf : y / 2 < 2 * b.quarter := by linarith
  refine .of_lt ?_ ?_
  · rw [low]
    cases hn : b.narrowBelow with
    | true =>
      have hm : b.mantissa = 2 ^ 52 := (H.narrow.mp hn).1
      have hvalue : b.value = 2 ^ 54 * b.quarter := by
        rw [value_eq, hm]
        push_cast
        ring
      rw [if_pos rfl]
      linarith
    | false =>
      rw [if_neg Bool.false_ne_true]
      linarith
  · rw [high]
    linarith

/-- The search ends on the grid that is `n` below the one it begins with. -/
theorem Proper.accepts_firstHit (H : b.Proper) (hk : 10 ^ 16 * 10 ^ (k - n) ≤ b.value) :
    b.Accepts (b.firstHit n k).value := by
  induction n generalizing k with
  | zero =>
    rw [Nat.cast_zero, sub_zero] at hk
    exact H.accepts_near hk (b.roundDiv_le k)
  | succ n ih =>
    rw [firstHit]
    split
    · rename_i d hd
      exact (readsAs_iff H.pos).mp (onGrid?_readsAs hd)
    · refine ih ?_
      rwa [sub_sub, add_comm (1 : ℤ), ← Nat.cast_add_one]

theorem Proper.accepts_shortest (H : b.Proper) : b.Accepts b.shortest.value := by
  have hd : (0 : ℚ) < b.denominator := by exact_mod_cast b.denominator_pos
  have hvalue : b.numerator / b.denominator = b.value := by
    rw [numerator_eq]
    exact mul_div_cancel_right₀ _ hd.ne'
  have hnum : 0 < b.numerator := by
    have hm := H.pos
    rw [← Nat.cast_pos (α := ℚ), numerator_eq, value]
    positivity
  have hgrids (t : ℤ) : (10 : ℚ) ^ 16 * 10 ^ (t + 1 - (17 : ℕ)) = 10 ^ t := by
    rw [← zpow_natCast, ← zpow_add₀ (by norm_num)]
    congr 1
    push_cast
    ring
  refine H.accepts_firstHit ?_
  rw [hgrids, ← hvalue]
  exact Decimal.magnitude_le hnum b.denominator_pos

end Binary

end Downhill
