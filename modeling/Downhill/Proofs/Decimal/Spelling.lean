import Mathlib.Data.Rat.Cast.Order
import Mathlib.Tactic
import Downhill.Numeral
import Downhill.Proofs.Decimal.Interval

/-!
# Numerals read back

However a decimal is laid out, the text has the parts of a numeral (`Spelling`), and what is read
from it is the number that was written (`NumeralLayout.readDecimal_write`).
-/

namespace Downhill

def Digits (l : List Char) : Prop := ∀ c ∈ l, c.isDigit = true

namespace Digits

variable {l m : List Char} {c : Char} {n : ℕ}

theorem append (hl : Digits l) (hm : Digits m) : Digits (l ++ m) := by
  intro c hc
  rcases List.mem_append.mp hc with hc | hc
  · exact hl c hc
  · exact hm c hc

theorem zeros (n : ℕ) : Digits (List.replicate n '0') := by
  intro c hc
  cases List.eq_of_mem_replicate hc
  rfl

theorem toDigits (n : ℕ) : Digits (Nat.toDigits 10 n) :=
  fun _ hc => Nat.isDigit_of_mem_toDigits (by decide) (by decide) hc

theorem sublist (hm : Digits m) (h : l.Sublist m) : Digits l := fun c hc => hm c (h.subset hc)

/-- A character that is no digit is not among digits. -/
theorem bne (hl : Digits l) (hc : c.isDigit = false) : ∀ d ∈ l, (d != c) = true := by
  intro d hd
  refine bne_iff_ne.mpr fun he => ?_
  exact nomatch (he ▸ hl d hd).symm.trans hc

end Digits

/-! ## Reading -/

def readExponent : List Char → ℤ
  | 'e' :: '-' :: l => -Nat.ofDigitChars 10 l 0
  | 'e' :: '+' :: l | 'e' :: l => Nat.ofDigitChars 10 l 0
  | _ => 0

/-- The digits on both sides of the point as one number; the exponent is less by those behind it. -/
def readDecimal (l : List Char) : Decimal :=
  let mantissa := l.takeWhile (· != 'e')
  let whole := mantissa.takeWhile (· != '.')
  let fraction := (mantissa.dropWhile (· != '.')).tail
  ⟨Nat.ofDigitChars 10 (whole ++ fraction) 0,
    readExponent (l.dropWhile (· != 'e')) - fraction.length⟩

namespace NumeralLayout

variable {l : NumeralLayout} {e : ℤ}

theorem toList_zeros (n : ℕ) : ("".pushn '0' n).toList = List.replicate n '0' := by
  induction n with
  | zero => rfl
  | succ n ih =>
    have hpush : "".pushn '0' (n + 1) = ("".pushn '0' n).push '0' := rfl
    rw [hpush, String.toList_push, ih, List.replicate_succ']

theorem toList_toString (n : ℕ) : (toString n).toList = Nat.toDigits 10 n := Nat.toList_repr

theorem toList_exponentText (l : NumeralLayout) (e : ℤ) : (l.exponentText e).toList =
    'e' :: (if e < 0 then '-' else '+') ::
      (List.replicate (l.exponentWidth - (toString e.natAbs).length) '0' ++
        Nat.toDigits 10 e.natAbs) := by
  rw [exponentText]
  split
  · rw [String.toList_append, String.toList_append, toList_zeros, toList_toString]
    rfl
  · rw [String.toList_append, String.toList_append, toList_zeros, toList_toString]
    rfl

theorem readExponent_exponentText (l : NumeralLayout) (e : ℤ) :
    readExponent (l.exponentText e).toList = e := by
  rw [toList_exponentText]
  split
  · rw [readExponent, Nat.ofDigitChars_append, Nat.ofDigitChars_replicate_zero, mul_zero,
      Nat.ofDigitChars_ten_toDigits]
    omega
  · rw [readExponent, Nat.ofDigitChars_append, Nat.ofDigitChars_replicate_zero, mul_zero,
      Nat.ofDigitChars_ten_toDigits]
    omega

end NumeralLayout

/-! ## Parts -/

/-- A numeral by its parts. A point is written where digits are behind it. -/
structure Spelling where
  whole : List Char
  fraction : List Char
  exponent : Option ℤ

namespace Spelling

variable {l : NumeralLayout} {s : Spelling}

def pointed : List Char → List Char
  | [] => []
  | c :: l => '.' :: c :: l

theorem pointed_of_ne_nil {f : List Char} (hf : f ≠ []) : pointed f = '.' :: f := by
  cases f with
  | nil => exact absurd rfl hf
  | cons c f => rfl

def ending (l : NumeralLayout) : Option ℤ → List Char
  | none => []
  | some e => (l.exponentText e).toList

def chars (l : NumeralLayout) (s : Spelling) : List Char :=
  s.whole ++ pointed s.fraction ++ ending l s.exponent

def decimal (s : Spelling) : Decimal :=
  ⟨Nat.ofDigitChars 10 (s.whole ++ s.fraction) 0, s.exponent.getD 0 - s.fraction.length⟩

structure Legal (s : Spelling) : Prop where
  ne_nil : s.whole ≠ []
  whole : Digits s.whole
  fraction : Digits s.fraction

theorem takeWhile_ending (l : NumeralLayout) (e : Option ℤ) :
    (ending l e).takeWhile (· != 'e') = [] := by
  cases e with
  | none => rfl
  | some e => rw [ending, NumeralLayout.toList_exponentText]; rfl

theorem dropWhile_ending (l : NumeralLayout) (e : Option ℤ) :
    (ending l e).dropWhile (· != 'e') = ending l e := by
  cases e with
  | none => rfl
  | some e => rw [ending, NumeralLayout.toList_exponentText]; rfl

theorem readExponent_ending (l : NumeralLayout) (e : Option ℤ) :
    readExponent (ending l e) = e.getD 0 := by
  cases e with
  | none => rfl
  | some e => exact l.readExponent_exponentText e

theorem Legal.bne_e (H : s.Legal) : ∀ c ∈ s.whole ++ pointed s.fraction, (c != 'e') = true := by
  intro c hc
  rcases List.mem_append.mp hc with hc | hc
  · exact H.whole.bne rfl c hc
  · have hfraction := H.fraction.bne (c := 'e') rfl
    cases hs : s.fraction with
    | nil =>
      rw [hs] at hc
      cases hc
    | cons d f =>
      rw [hs] at hc hfraction
      rcases List.mem_cons.mp hc with rfl | hc
      · rfl
      · exact hfraction c hc

/-- What is read from a numeral is what its parts are. -/
theorem Legal.read (H : s.Legal) (l : NumeralLayout) : readDecimal (s.chars l) = s.decimal := by
  have hmantissa : (s.chars l).takeWhile (· != 'e') = s.whole ++ pointed s.fraction := by
    rw [chars, List.takeWhile_append_of_pos H.bne_e, takeWhile_ending, List.append_nil]
  have hending : (s.chars l).dropWhile (· != 'e') = ending l s.exponent := by
    rw [chars, List.dropWhile_append_of_pos H.bne_e, dropWhile_ending]
  have hpoint := H.whole.bne (c := '.') rfl
  have htail : ((pointed s.fraction).dropWhile (· != '.')).tail = s.fraction := by
    cases s.fraction <;> rfl
  have hhead : (pointed s.fraction).takeWhile (· != '.') = [] := by
    cases s.fraction <;> rfl
  rw [readDecimal, hmantissa, hending, List.takeWhile_append_of_pos hpoint,
    List.dropWhile_append_of_pos hpoint, hhead, htail, List.append_nil, readExponent_ending,
    decimal]

theorem Legal.opening (H : s.Legal) (l : NumeralLayout) :
    ∃ c rest, c.isDigit = true ∧ s.chars l = c :: rest := by
  obtain ⟨c, rest, hwhole⟩ := List.exists_cons_of_ne_nil H.ne_nil
  refine ⟨c, rest ++ pointed s.fraction ++ ending l s.exponent, ?_, ?_⟩
  · exact H.whole c (hwhole ▸ List.mem_cons_self)
  · rw [chars, hwhole]
    rfl

/-- Only digits, points and exponents are in a numeral. -/
theorem Legal.mem_chars (H : s.Legal) {c : Char} (hc : c ∈ s.chars l) :
    c.isDigit = true ∨ c = '.' ∨ c = 'e' ∨ c = '-' ∨ c = '+' := by
  rcases List.mem_append.mp hc with hc | hc
  · rcases List.mem_append.mp hc with hc | hc
    · exact .inl (H.whole c hc)
    · cases hs : s.fraction with
      | nil =>
        rw [hs] at hc
        cases hc
      | cons d f =>
        rw [hs] at hc
        rcases List.mem_cons.mp hc with rfl | hc
        · exact .inr (.inl rfl)
        · exact .inl (H.fraction c (hs ▸ hc))
  · cases hs : s.exponent with
    | none =>
      rw [hs] at hc
      cases hc
    | some e =>
      rw [hs, ending, NumeralLayout.toList_exponentText] at hc
      rcases List.mem_cons.mp hc with rfl | hc
      · exact .inr (.inr (.inl rfl))
      rcases List.mem_cons.mp hc with rfl | hc
      · exact .inr (.inr (.inr (by split <;> simp)))
      · exact .inl ((Digits.zeros _).append (.toDigits _) c hc)

end Spelling

/-! ## Layouts -/

namespace NumeralLayout

variable {l : NumeralLayout} {d : Decimal} {e : ℤ}

/-- The text is a numeral for the decimal. -/
def Spells (l : NumeralLayout) (text : String) (d : Decimal) : Prop :=
  ∃ s : Spelling, s.Legal ∧ text.toList = s.chars l ∧ s.decimal.value = d.value

/-- Zeros at the end of the digits are made up for by the exponent. -/
theorem spells_of {text : String} {s : Spelling} {z : ℕ} (H : s.Legal)
    (htext : text.toList = s.chars l)
    (hdigits : Nat.ofDigitChars 10 (s.whole ++ s.fraction) 0 = d.digits * 10 ^ z)
    (he : s.exponent.getD 0 - s.fraction.length = d.exponent - z) : l.Spells text d := by
  refine ⟨s, H, htext, ?_⟩
  rw [Decimal.value, Decimal.value, Spelling.decimal, hdigits, he, zpow_sub₀ (by norm_num),
    zpow_natCast]
  push_cast
  field_simp

theorem spells_small (hd : d.exponent + (Nat.toDigits 10 d.digits).length - 1 = e) (he : e < 0) :
    l.Spells (positional (toString d.digits) e) d := by
  have hne := Nat.toDigits_ne_nil (n := d.digits) (b := 10)
  have hdigits := Digits.toDigits d.digits
  have hvalue := Nat.ofDigitChars_ten_toDigits (n := d.digits)
  rw [positional, if_pos he]
  generalize hds : Nat.toDigits 10 d.digits = ds at *
  have H : Spelling.Legal ⟨['0'], List.replicate ((-e).toNat - 1) '0' ++ ds, none⟩ :=
    ⟨List.cons_ne_nil _ _, .zeros 1, (Digits.zeros _).append hdigits⟩
  refine spells_of (z := 0) H ?_ ?_ ?_
  · simp [Spelling.chars, Spelling.ending, Spelling.pointed_of_ne_nil, hne, toList_zeros, hds]
  · rw [← List.append_assoc, Nat.ofDigitChars_append, Nat.ofDigitChars_append,
      Nat.ofDigitChars_replicate_zero]
    exact hvalue.trans (Nat.mul_one _).symm
  · simp only [Option.getD_none, List.length_append, List.length_replicate]
    omega

theorem spells_large (hd : d.exponent + (Nat.toDigits 10 d.digits).length - 1 = e) (he : 0 ≤ e) :
    l.Spells (positional (toString d.digits) e) d := by
  have hne := Nat.toDigits_ne_nil (n := d.digits) (b := 10)
  have hdigits := Digits.toDigits d.digits
  have hvalue := Nat.ofDigitChars_ten_toDigits (n := d.digits)
  rw [positional, if_neg he.not_gt, toList_toString]
  dsimp only
  generalize Nat.toDigits 10 d.digits = ds at *
  rcases le_or_gt ds.length (e.toNat + 1) with hle | hlt
  · have H : Spelling.Legal ⟨ds ++ List.replicate (e.toNat + 1 - ds.length) '0', ['0'], none⟩ :=
      ⟨List.append_ne_nil_of_left_ne_nil hne _, hdigits.append (.zeros _), .zeros 1⟩
    refine spells_of (z := e.toNat + 1 - ds.length + 1) H ?_ ?_ ?_
    · rw [List.drop_of_length_le hle, List.take_of_length_le hle]
      simp [Spelling.chars, Spelling.ending, Spelling.pointed, toList_zeros]
    · rw [List.append_assoc, ← List.replicate_succ', Nat.ofDigitChars_append, hvalue,
        Nat.ofDigitChars_replicate_zero, mul_comm]
    · simp only [Option.getD_none, List.length_singleton]
      omega
  · have hfraction : ds.drop (e.toNat + 1) ≠ [] := by
      rw [ne_eq, List.drop_eq_nil_iff]
      exact hlt.not_ge
    have H : Spelling.Legal ⟨ds.take (e.toNat + 1), ds.drop (e.toNat + 1), none⟩ :=
      ⟨by simp [hne], hdigits.sublist (List.take_sublist _ _),
        hdigits.sublist (List.drop_sublist _ _)⟩
    refine spells_of (z := 0) H ?_ ?_ ?_
    · rw [Nat.sub_eq_zero_of_le hlt.le, if_neg (by simpa using hlt)]
      simp [Spelling.chars, Spelling.ending, Spelling.pointed_of_ne_nil hfraction, toList_zeros]
    · rw [List.take_append_drop, hvalue, pow_zero, mul_one]
    · simp only [Option.getD_none, List.length_drop]
      omega

theorem spells_scientific (hd : d.exponent + (Nat.toDigits 10 d.digits).length - 1 = e) :
    l.Spells (l.scientific (toString d.digits) e) d := by
  have hdigits := Digits.toDigits d.digits
  have hvalue := Nat.ofDigitChars_ten_toDigits (n := d.digits)
  rw [scientific, toList_toString]
  cases hc : Nat.toDigits 10 d.digits with
  | nil => exact absurd hc Nat.toDigits_ne_nil
  | cons c rest =>
    rw [hc] at hd hdigits hvalue
    have H : Spelling.Legal ⟨[c], rest, some e⟩ :=
      ⟨List.cons_ne_nil _ _, hdigits.sublist (by simp), hdigits.sublist (by simp)⟩
    refine spells_of (z := 0) H ?_ ?_ ?_
    · cases rest <;> simp [Spelling.chars, Spelling.pointed, Spelling.ending]
    · exact hvalue.trans (Nat.mul_one _).symm
    · rw [List.length_cons] at hd
      simp only [Option.getD_some]
      omega

theorem spells_write (l : NumeralLayout) (d : Decimal) : l.Spells (l.write d) d := by
  have hlength : (toString d.digits).length = (Nat.toDigits 10 d.digits).length := by
    rw [← String.length_toList, toList_toString]
  rw [write, hlength]
  split
  · rcases lt_or_ge (d.exponent + (Nat.toDigits 10 d.digits).length - 1) 0 with he | he
    · exact spells_small rfl he
    · exact spells_large rfl he
  · exact spells_scientific rfl

/-- What is written is read as the number that it was written for. -/
theorem readDecimal_write (l : NumeralLayout) (d : Decimal) :
    (readDecimal (l.write d).toList).value = d.value := by
  obtain ⟨s, H, htext, hvalue⟩ := l.spells_write d
  rw [htext, H.read, hvalue]

end NumeralLayout

end Downhill
