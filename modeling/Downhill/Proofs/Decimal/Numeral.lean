import Downhill.Proofs.Decimal.Decoding
import Downhill.Proofs.Decimal.Shortest
import Downhill.Proofs.Decimal.Spelling
import Downhill.Proofs.Term.Legibility

/-!
# Numerals can be told apart

The numeral of a double is read as that double and as no other, so that numerals are the same only
if the doubles are (`legible_numeral`). That holds of zeros too, which are written with their sign.
-/

namespace Downhill

/-- The decimal that is written for a double. -/
def Binary.decimal (b : Binary) : Decimal := if b.mantissa = 0 then ⟨0, 0⟩ else b.shortest

namespace Decoded

def negative : Decoded → Bool
  | nan => false
  | infinite negative => negative
  | finite b => b.negative

/-- The numeral without its sign. -/
def unsigned : Decoded → String
  | nan => "nan"
  | infinite _ => "inf"
  | finite b => plainLayout.write b.decimal

end Decoded

open Decoded (ofDouble)

variable {v w : Float} {b c : Binary}

theorem zero_eq_write : NumeralStyle.plain.zero = plainLayout.write ⟨0, 0⟩ := by decide

theorem toList_numeral (v : Float) : (numeral v).toList =
    (if (ofDouble v).negative then ['-'] else []) ++ (ofDouble v).unsigned.toList := by
  have hsign (negative : Bool) :
      (if negative then "-" else "").toList = if negative then ['-'] else [] := by
    cases negative <;> rfl
  rw [numeral, NumeralStyle.write]
  cases ofDouble v with
  | nan => rfl
  | infinite negative => cases negative <;> rfl
  | finite b =>
    have hpositive : (if b.mantissa = 0 then NumeralStyle.plain.zero
        else NumeralStyle.positive b .plain) = plainLayout.write b.decimal := by
      rw [Binary.decimal]
      split
      · exact zero_eq_write
      · rfl
    exact (String.toList_append ..).trans (congrArg₂ _ (hsign _) (congrArg _ hpositive))

/-! ## Characters -/

theorem Decoded.opening {d : Decoded} (hd : d ≠ .nan) :
    ∃ c rest, opens c = true ∧ d.unsigned.toList = c :: rest := by
  cases d with
  | nan => exact absurd rfl hd
  | infinite negative => exact ⟨'i', ['n', 'f'], rfl, by simp [unsigned]⟩
  | finite b =>
    obtain ⟨s, H, htext, _⟩ := plainLayout.spells_write b.decimal
    obtain ⟨c, rest, hc, hs⟩ := H.opening plainLayout
    exact ⟨c, rest, by rw [opens, hc, Bool.true_or], htext.trans hs⟩

theorem Decoded.noMarks (d : Decoded) : NoMarks d.unsigned.toList := by
  cases d with
  | nan | infinite => simp [NoMarks, isMark, unsigned]
  | finite b =>
    obtain ⟨s, H, htext, _⟩ := plainLayout.spells_write b.decimal
    intro c hc
    rw [unsigned, htext] at hc
    rcases H.mem_chars hc with hc | rfl | rfl | rfl | rfl
    · exact isMark_of_isDigit hc
    all_goals rfl

theorem ofDouble_ne_nan (hv : v.isNaN = false) : ofDouble v ≠ .nan := by
  intro hnan
  have H := Double.decodes v
  rw [hnan] at H
  cases hu : v.toModel.unpack with
  | notANumber =>
    have hv : v.toModel.unpack.isNaN = false := hv
    rw [hu] at hv
    cases hv
  | zero | infinity | finite =>
    rw [hu] at H
    cases H

/-- The sign and the rest can be told from a numeral. -/
theorem numeral_unique (hv : v.isNaN = false) (hw : w.isNaN = false) (h : numeral v = numeral w) :
    (ofDouble v).negative = (ofDouble w).negative ∧
      (ofDouble v).unsigned = (ofDouble w).unsigned := by
  obtain ⟨c, r, hc, hvtext⟩ := Decoded.opening (ofDouble_ne_nan hv)
  obtain ⟨d, r', hd, hwtext⟩ := Decoded.opening (ofDouble_ne_nan hw)
  have hlist := congrArg String.toList h
  rw [toList_numeral, toList_numeral] at hlist
  rw [← String.toList_inj]
  cases hnv : (ofDouble v).negative <;> cases hnw : (ofDouble w).negative <;>
    rw [hnv, hnw] at hlist
  · exact ⟨rfl, hlist⟩
  · rw [hvtext] at hlist
    cases (List.cons.inj hlist).1
    cases hc
  · rw [hwtext] at hlist
    cases (List.cons.inj hlist).1
    cases hd
  · exact ⟨rfl, (List.cons.inj hlist).2⟩

/-! ## Numbers -/

namespace Binary

theorem value_decimal_zero (hb : b.mantissa = 0) : b.decimal.value = 0 := by
  rw [decimal, if_pos hb, Decimal.value, Nat.cast_zero, zero_mul]

theorem Proper.accepts_decimal (H : b.Proper) : b.Accepts b.decimal.value := by
  rw [decimal, if_neg H.pos.ne']
  exact H.accepts_shortest

theorem Proper.value_decimal_pos (H : b.Proper) : 0 < b.decimal.value :=
  (low_pos H).trans_le H.accepts_decimal.low_le

theorem value_decimal_eq (h : plainLayout.write b.decimal = plainLayout.write c.decimal) :
    b.decimal.value = c.decimal.value := by
  rw [← plainLayout.readDecimal_write b.decimal, h, plainLayout.readDecimal_write]

theorem write_decimal_ne (hb : b.mantissa = 0) (H : c.Proper) :
    plainLayout.write b.decimal ≠ plainLayout.write c.decimal := by
  intro h
  have hpos := H.value_decimal_pos
  rw [← value_decimal_eq h, value_decimal_zero hb] at hpos
  exact lt_irrefl _ hpos

theorem Proper.eq_of_write (H : b.Proper) (H' : c.Proper)
    (h : plainLayout.write b.decimal = plainLayout.write c.decimal) :
    b.mantissa = c.mantissa ∧ b.exponent = c.exponent := by
  have hacc := H.accepts_decimal
  rw [value_decimal_eq h] at hacc
  exact hacc.unique H.toValid H'.toValid H'.accepts_decimal

theorem write_decimal_ne_inf (b : Binary) : plainLayout.write b.decimal ≠ "inf" := by
  intro h
  obtain ⟨s, H, htext, _⟩ := plainLayout.spells_write b.decimal
  obtain ⟨c, rest, hc, hs⟩ := H.opening plainLayout
  have hlist : "inf".toList = c :: rest := by rw [← h, htext, hs]
  cases (List.cons.inj hlist).1
  cases hc

end Binary

/-- Numbers with the same sign and the same numeral are the same. -/
theorem Decodes.unique {u u' : Float.Model.UnpackedFloat} {d d' : Decoded} (Hv : Decodes u d)
    (Hw : Decodes u' d') (hnan : d ≠ .nan) (hnan' : d' ≠ .nan) (hsign : d.negative = d'.negative)
    (htext : d.unsigned = d'.unsigned) : u = u' := by
  cases Hv with
  | notANumber => exact absurd rfl hnan
  | infinity =>
    cases Hw with
    | notANumber => exact absurd rfl hnan'
    | infinity => exact congrArg _ (isNegative_injective hsign)
    | zero | finite => exact absurd htext.symm (Binary.write_decimal_ne_inf _)
  | zero _ hs h0 =>
    cases Hw with
    | notANumber => exact absurd rfl hnan'
    | infinity => exact absurd htext (Binary.write_decimal_ne_inf _)
    | zero _ hs' => exact congrArg _ (isNegative_injective (hs.symm.trans (hsign.trans hs')))
    | finite H' => exact absurd htext (Binary.write_decimal_ne h0 H')
  | finite H hs hm he =>
    cases Hw with
    | notANumber => exact absurd rfl hnan'
    | infinity => exact absurd htext (Binary.write_decimal_ne_inf _)
    | zero _ _ h0' => exact absurd htext.symm (Binary.write_decimal_ne h0' H)
    | finite H' hs' hm' he' =>
      obtain ⟨hmantissa, hexponent⟩ := H.eq_of_write H' htext
      obtain rfl := hm.symm.trans (hmantissa.trans hm')
      obtain rfl := he.symm.trans (hexponent.trans he')
      obtain rfl := isNegative_injective (hs.symm.trans (hsign.trans hs'))
      rfl

theorem legible_numeral : Legible numeral where
  injective {v w} hv hw h := by
    obtain ⟨hsign, htext⟩ := numeral_unique hv hw h
    exact Double.eq_of_unpack ((Double.decodes v).unique (Double.decodes w) (ofDouble_ne_nan hv)
      (ofDouble_ne_nan hw) hsign htext)
  noMarks {v} _ := by
    rw [toList_numeral]
    intro c hc
    rcases List.mem_append.mp hc with hc | hc
    · split at hc
      · cases List.mem_singleton.mp hc
        rfl
      · cases hc
    · exact (ofDouble v).noMarks c hc
  opening {v} hv := by
    obtain ⟨c, rest, hc, htext⟩ := Decoded.opening (ofDouble_ne_nan hv)
    refine ⟨c, rest, hc, ?_⟩
    rw [toList_numeral, htext]
    split
    · exact .inr rfl
    · exact .inl rfl

end Downhill
