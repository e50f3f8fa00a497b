import Mathlib
import Downhill.Scalar.Double

/-!
# Comparisons of doubles

What is needed to know of doubles besides that they are scalars: equality is symmetric
(`Double.eq_symm`), only NaN differs from itself (`Double.eq_self`), and only a zero has an absolute
value of zero (`Double.eq_zero_of_abs`). All of it is read off the numbers that the bits stand for,
and there is one double for each of these (`Double.eq_of_unpack`).
-/

namespace Downhill.Double

open Float.Model Float.Model.UnpackedFloat

/-! ## Equality -/

def IsZero (u : UnpackedFloat) : Prop := ∃ s, u = .zero s

/-- Numbers are equal when they are the same or both zero. -/
theorem beq_iff {a b : UnpackedFloat} :
    a.beq b = true ↔ IsZero a ∧ IsZero b ∨ a = b ∧ a ≠ .notANumber := by
  cases a with
  | notANumber => cases b <;> simp [UnpackedFloat.beq, UnpackedFloat.compare, IsZero]
  | zero s =>
    cases b with
    | notANumber | zero => simp [UnpackedFloat.beq, UnpackedFloat.compare, IsZero]
    | infinity t | finite t =>
      cases t <;> simp [UnpackedFloat.beq, UnpackedFloat.compare, IsZero]
  | infinity s =>
    cases b with
    | infinity t => cases s <;> cases t <;>
        simp [UnpackedFloat.beq, UnpackedFloat.compare, IsZero, compare]
    | notANumber | zero | finite =>
      cases s <;> simp [UnpackedFloat.beq, UnpackedFloat.compare, IsZero]
  | finite s m e h =>
    cases b with
    | finite t => cases s <;> cases t <;>
        simp [UnpackedFloat.beq, UnpackedFloat.compare, IsZero, and_comm, Ordering.then_eq_eq]
    | infinity t =>
      cases s <;> cases t <;> simp [UnpackedFloat.beq, UnpackedFloat.compare, IsZero]
    | notANumber | zero =>
      cases s <;> simp [UnpackedFloat.beq, UnpackedFloat.compare, IsZero]

theorem eq_symm (v w : Float) : Scalar.eq v w = Scalar.eq w v := by
  rw [Bool.eq_iff_iff]
  refine beq_iff.trans (Iff.trans ?_ beq_iff.symm)
  grind

theorem eq_trans {u v w : Float} (H : Scalar.eq u v = true) (H' : Scalar.eq v w = true) :
    Scalar.eq u w = true := by
  have huv := beq_iff.mp H
  have hvw := beq_iff.mp H'
  refine beq_iff.mpr ?_
  grind [IsZero]

/-- A double that is not equal to itself is NaN. -/
theorem eq_self {v : Float} (H : v.isNaN = false) : Scalar.eq v v = true := by
  refine beq_iff.mpr (.inr ⟨rfl, ?_⟩)
  intro hu
  have hnan : v.toModel.unpack.isNaN = false := H
  rw [hu] at hnan
  cases hnan

/-! ## Zero -/

theorem unpack_zero : (Scalar.nat 0 : Float).toModel.unpack = .zero .positive := rfl

theorem eq_zero_iff {v : Float} :
    Scalar.eq v (Scalar.nat 0) = true ↔ IsZero v.toModel.unpack := by
  refine beq_iff.trans ?_
  rw [unpack_zero]
  grind [IsZero]

/-- A finite number as bits can hold it: below the normal ones, or with a biased exponent that is
not zero. -/
def Fits (m : Nat) (e : Int) : Prop := m < 2 ^ 52 ∨ m < 2 ^ 53 ∧ 0 < e + 1075

/-- The mantissas and the exponents of finite numbers, below the normal ones and from there on. -/
theorem finite_unpack {b : BitVec Format.binary64.numBits}
    (H : unpack .binary64 b = .finite s m e h) :
    m < 2 ^ 52 ∧ e = -1074 ∨ m < 2 ^ 53 ∧ -1074 ≤ e ∧ e ≤ 971 := by
  have hbias : ((Format.binary64.exponentBias : Nat) : Int) = 1023 := rfl
  have hexponent : (unpackExponent b).toNat < 2 ^ 11 := (unpackExponent b).isLt
  rw [UnpackedFloat.unpack] at H
  split at H
  · split at H <;> cases H
  rename_i hones
  have hmax : (unpackExponent b).toNat ≠ 2047 := fun he => hones (BitVec.eq_of_toNat_eq he)
  split at H
  · rename_i h0
    split at H
    · cases H
    cases H
    have he : (unpackExponent b).toNat = 0 := congrArg BitVec.toNat h0
    refine .inl ⟨(unpackMantissa b).isLt, ?_⟩
    rw [hbias]
    change ((unpackExponent b).toNat : Int) - (1023 + (52 : Nat)) + 1 = -1074
    omega
  · rename_i hne
    cases H
    have he : (unpackExponent b).toNat ≠ 0 := fun he => hne (BitVec.eq_of_toNat_eq he)
    refine .inr ⟨(1#1 ++ unpackMantissa b).isLt, ?_⟩
    rw [hbias]
    change -1074 ≤ ((unpackExponent b).toNat : Int) - (1023 + (52 : Nat)) ∧
      ((unpackExponent b).toNat : Int) - (1023 + (52 : Nat)) ≤ 971
    omega

theorem fits_unpack {b : BitVec Format.binary64.numBits}
    (H : unpack .binary64 b = .finite s m e h) : Fits m e := by
  rcases finite_unpack H with ⟨hm, _⟩ | ⟨hm, he, _⟩
  · exact .inl hm
  · exact .inr ⟨hm, by omega⟩

theorem unpack_pack_infinity (s : Sign) :
    unpack .binary64 (packedInfinity .binary64 s) = .infinity s := by
  cases s <;> rfl

theorem unpack_pack_finite (H : Fits m e) :
    ¬IsZero (unpack .binary64 (UnpackedFloat.pack .binary64 (.finite s m e h))) := by
  have hbias : ((Format.binary64.exponentBias : Nat) : Int) = 1023 := rfl
  have hbits : Format.binary64.mantissaBits = 53 := rfl
  rw [UnpackedFloat.pack]
  dsimp only
  rw [hbias, hbits]
  split
  · rintro ⟨t, ht⟩
    exact nomatch (unpack_pack_infinity s).symm.trans ht
  rename_i hsmall
  split <;> rw [UnpackedFloat.unpack] <;>
    simp only [unpackMantissa_packComponents, unpackExponent_packComponents]
  · rename_i hlog
    have hm : 2 ^ 52 ≤ m := (Nat.le_log2 (by omega)).mp (by omega)
    have he : BitVec.ofNat 11 (e + 1023 + (52 : Nat)).toNat ≠ 0#11 := by
      rcases H with hlt | ⟨_, hpos⟩
      · omega
      · simp only [ne_eq, BitVec.toNat_eq, BitVec.toNat_ofNat]
        omega
    rw [if_neg he]
    split
    · split <;> rintro ⟨t, ht⟩ <;> cases ht
    · rintro ⟨t, ht⟩
      cases ht
  · rename_i hlog
    have hm : BitVec.ofNat 52 m ≠ 0#52 := by
      have hlt : m < 2 ^ 52 := by
        rcases H with hlt | ⟨hlt, _⟩
        · exact hlt
        · have hle : ¬2 ^ 52 ≤ m := fun hle => by
            have h52 : 52 ≤ m.log2 := (Nat.le_log2 (by omega)).mpr hle
            have h53 : m.log2 < 53 := (Nat.log2_lt (by omega)).mpr hlt
            omega
          omega
      simp only [ne_eq, BitVec.toNat_eq, BitVec.toNat_ofNat]
      omega
    rw [if_neg (by decide), if_pos trivial, dif_neg hm]
    rintro ⟨t, ht⟩
    cases ht

/-- Only a zero has an absolute value that is zero. -/
theorem eq_zero_of_abs {v : Float} (H : Scalar.eq (Scalar.abs v) (Scalar.nat 0) = true) :
    Scalar.eq v (Scalar.nat 0) = true := by
  rw [eq_zero_iff] at H ⊢
  change IsZero (unpack .binary64 (UnpackedFloat.pack .binary64 v.toModel.unpack.abs)) at H
  cases hu : v.toModel.unpack with
  | zero s => exact ⟨s, rfl⟩
  | notANumber =>
    rw [hu] at H
    obtain ⟨t, ht⟩ := H
    have hnan : unpack .binary64 (packedNaN .binary64) = .notANumber := rfl
    exact nomatch hnan.symm.trans ht
  | infinity s =>
    rw [hu] at H
    obtain ⟨t, ht⟩ := H
    exact nomatch (unpack_pack_infinity .positive).symm.trans ht
  | finite s m e h =>
    rw [hu] at H
    exact absurd H (unpack_pack_finite (fits_unpack hu))

/-! ## Doubles told apart by what they stand for -/

theorem bits_eq {b c : BitVec Format.binary64.numBits} (hs : unpackSign b = unpackSign c)
    (he : unpackExponent b = unpackExponent c) (hm : unpackMantissa b = unpackMantissa c) :
    b = c := by
  have hs := congrArg BitVec.toNat hs
  have he := congrArg BitVec.toNat he
  have hm := congrArg BitVec.toNat hm
  have hb : b.toNat < 2 ^ 64 := b.isLt
  have hc : c.toNat < 2 ^ 64 := c.isLt
  simp only [unpackSign, unpackExponent, unpackMantissa, BitVec.toNat_cast,
    BitVec.extractLsb_toNat, Nat.shiftRight_eq_div_pow] at hs he hm
  exact BitVec.eq_of_toNat_eq (by omega)

theorem sign_eq {s t : BitVec 1} (H : Sign.ofBitVec s = Sign.ofBitVec t) : s = t := by
  have hs := s.isLt
  have ht := t.isLt
  rw [Sign.ofBitVec, Sign.ofBitVec] at H
  split at H <;> split at H
  · simp_all
  · cases H
  · cases H
  · simp only [BitVec.toNat_eq, BitVec.toNat_ofNat] at *
    omega

/-- What bits stand for, by their sign, exponent and mantissa. -/
inductive Form (b : BitVec Format.binary64.numBits) (s : Sign) : UnpackedFloat → Prop where
  | infinity : unpackExponent b = -1#_ → unpackMantissa b = 0#_ → Form b s (.infinity s)
  | notANumber : unpackExponent b = -1#_ → unpackMantissa b ≠ 0#_ → Form b s .notANumber
  | zero : unpackExponent b = 0#_ → unpackMantissa b = 0#_ → Form b s (.zero s)
  | subnormal : unpackExponent b = 0#_ → m = (unpackMantissa b).toNat → Form b s (.finite s m e h)
  | normal : m = 2 ^ 52 + (unpackMantissa b).toNat →
    e = ((unpackExponent b).toNat : Int) - 1075 → Form b s (.finite s m e h)

theorem form (b : BitVec Format.binary64.numBits) :
    Form b (.ofBitVec (unpackSign b)) (unpack .binary64 b) := by
  rw [UnpackedFloat.unpack]
  split
  · split
    · exact .infinity ‹_› ‹_›
    · exact .notANumber ‹_› ‹_›
  split
  · split
    · exact .zero ‹_› ‹_›
    · exact .subnormal ‹_› rfl
  · refine .normal ?_ rfl
    have hm : (unpackMantissa b).toNat < 2 ^ 52 := (unpackMantissa b).isLt
    rw [BitVec.toNat_append, ← Nat.shiftLeft_add_eq_or_of_lt hm]
    rfl

/-- Valid bits are determined by the number that they stand for. -/
theorem Form.injective {b c : BitVec Format.binary64.numBits} (hb : Format.binary64.Valid b)
    (hc : Format.binary64.Valid c) (H : Form b (.ofBitVec (unpackSign b)) u)
    (H' : Form c (.ofBitVec (unpackSign c)) u) : b = c := by
  have hmb : (unpackMantissa b).toNat < 2 ^ 52 := (unpackMantissa b).isLt
  have hmc : (unpackMantissa c).toNat < 2 ^ 52 := (unpackMantissa c).isLt
  generalize hs : Sign.ofBitVec (unpackSign b) = s at H
  generalize ht : Sign.ofBitVec (unpackSign c) = t at H'
  cases H with
  | notANumber he hm =>
    cases H' with
    | notANumber he' hm' => rw [hb.eq_packedNaN he hm, hc.eq_packedNaN he' hm']
  | infinity he hm =>
    cases H' with
    | infinity he' hm' =>
      exact bits_eq (sign_eq (hs.trans ht.symm)) (he.trans he'.symm) (hm.trans hm'.symm)
  | zero he hm =>
    cases H' with
    | zero he' hm' =>
      exact bits_eq (sign_eq (hs.trans ht.symm)) (he.trans he'.symm) (hm.trans hm'.symm)
  | subnormal he hm =>
    cases H' with
    | subnormal he' hm' =>
      exact bits_eq (sign_eq (hs.trans ht.symm)) (he.trans he'.symm)
        (BitVec.eq_of_toNat_eq (hm.symm.trans hm'))
    | normal hm' => omega
  | normal hm he =>
    cases H' with
    | subnormal he' hm' => omega
    | normal hm' he' =>
      exact bits_eq (sign_eq (hs.trans ht.symm)) (BitVec.eq_of_toNat_eq (by omega))
        (BitVec.eq_of_toNat_eq (by omega))

theorem eq_of_unpack {v w : Float} (H : v.toModel.unpack = w.toModel.unpack) : v = w := by
  have hv := form v.toModel.toBits.toBitVec
  have hw := form w.toModel.toBits.toBitVec
  change Form _ _ v.toModel.unpack at hv
  change Form _ _ w.toModel.unpack at hw
  have hbits := hv.injective v.toModel.valid w.toModel.valid (H ▸ hw)
  cases v with | ofModel v => cases w with | ofModel w =>
    cases v with | mk v => cases w with | mk w =>
      cases UInt64.toBitVec_inj.mp hbits
      rfl

end Downhill.Double
