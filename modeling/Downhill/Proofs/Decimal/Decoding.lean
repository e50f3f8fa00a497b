import Downhill.Proofs.Decimal.Interval
import Downhill.Proofs.Scalar.Double

/-!
# Doubles as they are decoded

What is decoded from the bits of a double is the number that the bits stand for
(`Double.decodes`), in the form in which its neighbours can be told (`Binary.Valid`).
-/

namespace Downhill

open Float.Model Float.Model.UnpackedFloat

def isNegative : Sign → Bool
  | .negative => true
  | .positive => false

theorem isNegative_injective {s t : Sign} (H : isNegative s = isNegative t) : s = t := by
  cases s <;> cases t <;> first | rfl | cases H

/-- The number and what was decoded are the same. -/
inductive Decodes : UnpackedFloat → Decoded → Prop where
  | notANumber : Decodes .notANumber .nan
  | infinity : Decodes (.infinity s) (.infinite (isNegative s))
  | zero : b.Valid → b.negative = isNegative s → b.mantissa = 0 → Decodes (.zero s) (.finite b)
  | finite : b.Proper → b.negative = isNegative s → b.mantissa = m → b.exponent = e →
    Decodes (.finite s m e h) (.finite b)

namespace Double

variable {bits : BitVec Format.binary64.numBits}

theorem isNegative_unpackSign (bits : BitVec Format.binary64.numBits) :
    isNegative (.ofBitVec (unpackSign bits)) = (bits.toNat >>> 63 == 1) := by
  have hlt : bits.toNat < 2 ^ 64 := bits.isLt
  have hsign : (unpackSign bits).toNat = bits.toNat >>> 63 := by
    simp only [unpackSign, BitVec.toNat_cast, BitVec.extractLsb_toNat]
    refine Nat.mod_eq_of_lt ?_
    rw [Nat.shiftRight_eq_div_pow]
    exact Nat.div_lt_of_lt_mul hlt
  have hbit := (unpackSign bits).isLt
  rw [← hsign, Sign.ofBitVec]
  split
  · rename_i h0
    rw [h0]
    rfl
  · rename_i hne
    have hne : (unpackSign bits).toNat ≠ 0 := fun h0 => hne (BitVec.eq_of_toNat_eq h0)
    exact (beq_iff_eq.mpr (by omega)).symm

theorem toNat_unpackExponent (bits : BitVec Format.binary64.numBits) :
    (unpackExponent bits).toNat = bits.toNat >>> 52 % 0x800 := by
  simp only [unpackExponent, BitVec.toNat_cast, BitVec.extractLsb_toNat]

theorem toNat_unpackMantissa (bits : BitVec Format.binary64.numBits) :
    (unpackMantissa bits).toNat = bits.toNat % 0x10000000000000 := by
  simp only [unpackMantissa, BitVec.toNat_cast, BitVec.extractLsb_toNat]
  rfl

theorem decodes (v : Float) : Decodes v.toModel.unpack (.ofDouble v) := by
  let bits : BitVec Format.binary64.numBits := v.toModel.toBits.toBitVec
  have hbits : v.toBits.toNat = bits.toNat := rfl
  change Decodes (unpack .binary64 bits) _
  rw [Decoded.ofDouble, hbits]
  have hm := (unpackMantissa bits).isLt
  have he : (unpackExponent bits).toNat < 2048 := (unpackExponent bits).isLt
  have hm0 : unpackMantissa bits = 0#_ ↔ (unpackMantissa bits).toNat = 0 :=
    ⟨congrArg BitVec.toNat, fun h => BitVec.eq_of_toNat_eq h⟩
  have he0 : unpackExponent bits = 0#_ ↔ (unpackExponent bits).toNat = 0 :=
    ⟨congrArg BitVec.toNat, fun h => BitVec.eq_of_toNat_eq h⟩
  have hones : unpackExponent bits = -1#_ ↔ (unpackExponent bits).toNat = 2047 :=
    ⟨congrArg BitVec.toNat, fun h => BitVec.eq_of_toNat_eq h⟩
  have hnormal : (1#1 ++ unpackMantissa bits).toNat = 2 ^ 52 + (unpackMantissa bits).toNat := by
    rw [BitVec.toNat_append, ← Nat.shiftLeft_add_eq_or_of_lt hm]
    rfl
  rw [UnpackedFloat.unpack]
  dsimp only
  rw [← isNegative_unpackSign, ← toNat_unpackExponent, ← toNat_unpackMantissa]
  split
  · rename_i h2047
    rw [if_pos (hones.mp h2047)]
    split
    · rename_i h0
      rw [if_pos (hm0.mp h0)]
      exact .infinity
    · rename_i hne
      rw [if_neg (mt hm0.mpr hne)]
      exact .notANumber
  rename_i hlt
  rw [if_neg (mt hones.mpr hlt)]
  split
  · rename_i h0
    rw [if_pos (he0.mp h0)]
    have hvalid (negative : Bool) :
        Binary.Valid ⟨negative, (unpackMantissa bits).toNat, -1074, false⟩ :=
      ⟨hm.trans (by decide), le_rfl, (by decide : (-1074 : ℤ) ≤ 971),
        fun h => absurd h (lt_irrefl _), nofun, fun h => absurd h.2 (lt_irrefl _)⟩
    split
    · rename_i hzero
      exact .zero (hvalid _) rfl (hm0.mp hzero)
    · rename_i hpos
      refine .finite ⟨hvalid _, Nat.pos_of_ne_zero (mt hm0.mpr hpos)⟩ rfl rfl ?_
      rw [he0.mp h0]
      rfl
  · rename_i hne
    have hpos : (unpackExponent bits).toNat ≠ 0 := mt he0.mpr hne
    have hmax : (unpackExponent bits).toNat ≠ 2047 := mt hones.mpr hlt
    rw [if_neg hpos]
    refine .finite ⟨⟨?_, ?_, ?_, fun _ => ?_, ?_⟩, ?_⟩ rfl hnormal.symm rfl
    · exact Nat.add_lt_add_left hm _
    · dsimp only
      omega
    · dsimp only
      omega
    · exact Nat.le_add_right _ _
    · rw [Bool.and_eq_true, decide_eq_true_eq, decide_eq_true_eq]
      dsimp only
      omega
    · exact Nat.add_pos_left (by decide) _

end Double

end Downhill
