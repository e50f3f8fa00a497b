import Downhill.Proofs.Decimal.Numeral

/-!
# What numerals stand for

A decimal stands for the double that is nearest to it, the one with the even mantissa if two are,
and for infinity if it is beyond the doubles (`Numeral.Denotes`). It stands for one double only, and
the numeral of a double, but for the sign, for the double without its sign
(`Decoded.magnitude_denotes_iff`).
-/

namespace Downhill

/-- A number in a text. -/
inductive Numeral where
  | decimal (d : Decimal)
  | infinity
  deriving DecidableEq, Repr

namespace Numeral

/-- From here on numbers are read as infinity. That is halfway from the greatest double to what
would be the next, in quarters of its last place. -/
def bound : ℚ := (4 * (2 ^ 53 - 1) + 2) * 2 ^ 969

def Denotes : Numeral → Decoded → Prop
  | infinity, d => d = .infinite false
  | decimal _, .nan => False
  | decimal d, .infinite negative => negative = false ∧ bound ≤ d.value
  | decimal d, .finite b => b.Valid ∧ b.negative = false ∧ b.Accepts d.value

end Numeral

variable {b c : Binary} {x : ℚ} {d : Decoded} {v : Float}

namespace Binary

theorem Valid.eq (hb : b.Valid) (hc : c.Valid) (hs : b.negative = c.negative)
    (hm : b.mantissa = c.mantissa) (he : b.exponent = c.exponent) : b = c := by
  have hn : b.narrowBelow = c.narrowBelow := by
    rw [Bool.eq_iff_iff, hb.narrow, hc.narrow, hm, he]
  cases b
  cases c
  simp_all

/-- Nothing that is read as a double is beyond the doubles. -/
theorem Valid.lt_bound (H : b.Valid) (hx : b.Accepts x) : x < Numeral.bound := by
  have hq : b.quarter ≤ 2 ^ 969 := by
    have he := H.greatest
    rw [quarter, ← zpow_natCast]
    exact zpow_le_zpow_right₀ one_le_two (by push_cast; omega)
  have hpos := b.quarter_pos
  rw [Numeral.bound]
  generalize (2 : ℚ) ^ 969 = q at hq
  have hhigh : x ≤ (4 * b.mantissa + 2) * b.quarter := hx.le_high.trans_eq (high_eq b)
  rcases Nat.lt_or_ge (b.mantissa + 1) (2 ^ 53) with hm | hm
  · have hm : (b.mantissa : ℚ) < 2 ^ 53 - 1 := by
      have : (b.mantissa + 1 : ℚ) < 2 ^ 53 := by exact_mod_cast hm
      linarith
    nlinarith
  · -- The greatest mantissa is odd, so that the upper end is left out.
    have hlt := H.lt
    have hne : x ≠ b.high := fun heq => by
      have := hx.even (.inr heq)
      omega
    have hm : b.mantissa + 1 = 2 ^ 53 := by omega
    have hm : (b.mantissa : ℚ) = 2 ^ 53 - 1 := by
      have : (b.mantissa + 1 : ℚ) = 2 ^ 53 := by exact_mod_cast hm
      linarith
    calc x < (4 * b.mantissa + 2) * b.quarter := lt_of_le_of_ne hhigh (high_eq b ▸ hne)
      _ ≤ (4 * (2 ^ 53 - 1) + 2) * q := by rw [hm]; gcongr

theorem Valid.accepts_decimal (H : b.Valid) : b.Accepts b.decimal.value := by
  rcases Nat.eq_zero_or_pos b.mantissa with h0 | hpos
  · have hq := b.quarter_pos
    have hlow : b.low ≤ 0 := by
      rw [low, value_eq, h0]
      split <;> push_cast <;> linarith
    have hhigh : 0 ≤ b.high := by
      rw [high_eq, h0]
      push_cast
      linarith
    rw [value_decimal_zero h0, Accepts, h0]
    exact ⟨hlow, hhigh⟩
  · exact Proper.accepts_decimal ⟨H, hpos⟩

end Binary

/-- No number stands for two doubles. -/
theorem Numeral.Denotes.unique {l : Numeral} {d d' : Decoded} (H : l.Denotes d)
    (H' : l.Denotes d') : d = d' := by
  cases l with
  | infinity => exact Eq.trans H H'.symm
  | decimal x =>
    cases d with
    | nan => exact H.elim
    | infinite negative =>
      cases d' with
      | nan => exact H'.elim
      | infinite negative' => rw [H.1, H'.1]
      | finite c => exact absurd H.2 (H'.1.lt_bound H'.2.2).not_ge
    | finite b =>
      cases d' with
      | nan => exact H'.elim
      | infinite negative' => exact absurd H'.2 (H.1.lt_bound H.2.2).not_ge
      | finite c =>
        obtain ⟨hm, he⟩ := H.2.2.unique H.1 H'.1 H'.2.2
        rw [H.1.eq H'.1 (H.2.1.trans H'.2.1.symm) hm he]

namespace Decoded

/-- The number without its sign. -/
def abs : Decoded → Decoded
  | nan => nan
  | infinite _ => infinite false
  | finite b => finite { b with negative := false }

/-- The number with the other sign. -/
def neg : Decoded → Decoded
  | nan => nan
  | infinite negative => infinite !negative
  | finite b => finite { b with negative := !b.negative }

theorem abs_of_positive (H : d.negative = false) : d.abs = d := by
  cases d with
  | nan => rfl
  | infinite negative => cases H; rfl
  | finite b =>
    have H : b.negative = false := H
    rw [abs, ← H]

theorem neg_abs_of_negative (H : d.negative = true) : d.abs.neg = d := by
  cases d with
  | nan => rfl
  | infinite negative => cases H; rfl
  | finite b =>
    have H : b.negative = true := H
    rw [abs, neg, Bool.not_false, ← H]

/-- What is written for a number, but for its sign. -/
def magnitude : Decoded → Numeral
  | finite b => .decimal (readDecimal (plainLayout.write b.decimal).toList)
  | nan | infinite _ => .infinity

end Decoded

theorem Double.Decodes.valid {u : Float.Model.UnpackedFloat} (H : Decodes u (.finite b)) :
    b.Valid := by
  cases H with
  | zero H => exact H
  | finite H => exact H.toValid

open Decoded (ofDouble)

theorem Decoded.magnitude_denotes_iff (hv : v.isNaN = false) :
    (ofDouble v).magnitude.Denotes d ↔ d = (ofDouble v).abs := by
  have H : (ofDouble v).magnitude.Denotes (ofDouble v).abs := by
    have hdecodes := Double.decodes v
    have hnan := ofDouble_ne_nan hv
    cases hd : ofDouble v with
    | nan => exact absurd hd hnan
    | infinite negative => rfl
    | finite b =>
      rw [hd] at hdecodes
      have hvalid := Double.Decodes.valid hdecodes
      refine ⟨⟨hvalid.lt, hvalid.least, hvalid.greatest, hvalid.normal, hvalid.narrow⟩, rfl, ?_⟩
      rw [plainLayout.readDecimal_write]
      exact hvalid.accepts_decimal
  refine ⟨fun H' => H'.unique H, ?_⟩
  rintro rfl
  exact H

end Downhill
