import Mathlib.Analysis.SpecialFunctions.Pow.Real
import Downhill.Proofs.Real.PartialReal

/-!
# Forward differentiation

A jet is a value with its slope in one direction. Terms are read as jets by the derivatives that
textbooks give for the elementary functions, each where the textbook has one. A power needs a
positive base, unless its exponent has no variables; that is why jets know whether they are fixed.
Simplification loses neither values nor slopes (`Interpretation.lawful_jet`).
-/

namespace Downhill

noncomputable section

/-! ## Derivatives of the operators -/

namespace UnaryOp

/-- Where an operator has a derivative. -/
def Smooth : UnaryOp → ℝ → Prop
  | sqrt, a | log, a => 0 < a
  | tan, a => Real.cos a ≠ 0
  | asin, a | acos, a => -1 < a ∧ a < 1
  | ramp, a => a ≠ 0
  | unitStep, _ => False
  | neg, _ | sqr, _ | exp, _ | sin, _ | cos, _ | atan, _ | sigmoid, _ | logSigmoid, _ => True

def slope : UnaryOp → ℝ → ℝ
  | neg, _ => -1
  | sqr, a => 2 * a
  | sqrt, a => 1 / (2 * √a)
  | exp, a => Real.exp a
  | log, a => 1 / a
  | sin, a => Real.cos a
  | cos, a => -Real.sin a
  | tan, a => 1 / Real.cos a ^ 2
  | asin, a => 1 / √(1 - a ^ 2)
  | acos, a => -(1 / √(1 - a ^ 2))
  | atan, a => 1 / (1 + a ^ 2)
  | sigmoid, a => sigmoid.real a * (1 - sigmoid.real a)
  | logSigmoid, a => 1 - sigmoid.real a
  | ramp, a => if 0 < a then 1 else 0
  | unitStep, _ => 0

theorem Smooth.domain {op : UnaryOp} (H : op.Smooth a) : op.Domain a := by
  cases op with
  | sqrt => exact le_of_lt H
  | log | tan => exact H
  | asin | acos => exact ⟨le_of_lt H.1, le_of_lt H.2⟩
  | neg | sqr | exp | sin | cos | atan | sigmoid | logSigmoid | ramp | unitStep => trivial

end UnaryOp

/-! ## Jets -/

structure Jet where
  value : ℝ
  slope : ℝ
  /-- Nothing in the term is variable. -/
  fixed : Bool
  slope_eq : fixed = true → slope = 0

namespace Jet

def number (v : ℝ) : Jet := ⟨v, 0, true, fun _ => rfl⟩

/-- A variable, in the direction of itself or of another one. -/
def coordinate (v : ℝ) (own : Bool) : Jet := ⟨v, if own then 1 else 0, false, nofun⟩

def unary (op : UnaryOp) (j : Jet) : Jet :=
  ⟨op.real j.value, op.slope j.value * j.slope, j.fixed, fun h => by rw [j.slope_eq h, mul_zero]⟩

/-- Where a binary operator has a derivative. -/
def Smooth : BinaryOp → Jet → Jet → Prop
  | .div, _, k => k.value ≠ 0
  | .pow, j, k => if k.fixed then BinaryOp.pow.Domain j.value (k.value - 1) else 0 < j.value
  | .add, _, _ | .sub, _, _ | .mul, _, _ => True

def tangent : BinaryOp → Jet → Jet → ℝ
  | .add, j, k => j.slope + k.slope
  | .sub, j, k => j.slope - k.slope
  | .mul, j, k => j.slope * k.value + j.value * k.slope
  | .div, j, k => (j.slope * k.value - j.value * k.slope) / k.value ^ 2
  | .pow, j, k =>
    if k.fixed then k.value * j.value ^ (k.value - 1) * j.slope
    else j.value ^ k.value * (k.slope * Real.log j.value + k.value * j.slope / j.value)

theorem tangent_eq_zero {j k : Jet} (hj : j.slope = 0) (hk : k.slope = 0) :
    tangent op j k = 0 := by
  cases op <;> simp [tangent, hj, hk]

def binary (op : BinaryOp) (j k : Jet) : Jet where
  value := op.real j.value k.value
  slope := tangent op j k
  fixed := j.fixed && k.fixed
  slope_eq h := by
    obtain ⟨hj, hk⟩ := Bool.and_eq_true_iff.mp h
    exact tangent_eq_zero (j.slope_eq hj) (k.slope_eq hk)

section

variable {u : ℝ} {j k : Jet}

@[simp] theorem value_number : (number u).value = u := rfl
@[simp] theorem slope_number : (number u).slope = 0 := rfl
@[simp] theorem fixed_number : (number u).fixed = true := rfl
@[simp] theorem value_unary : (j.unary op).value = op.real j.value := rfl
@[simp] theorem slope_unary : (j.unary op).slope = op.slope j.value * j.slope := rfl
@[simp] theorem fixed_unary : (j.unary op).fixed = j.fixed := rfl
@[simp] theorem value_binary : (j.binary op k).value = op.real j.value k.value := rfl
@[simp] theorem slope_binary : (j.binary op k).slope = tangent op j k := rfl
@[simp] theorem fixed_binary : (j.binary op k).fixed = (j.fixed && k.fixed) := rfl

end

/-- The same value and slope, from a term with no more variables. -/
structure Le (j k : Jet) : Prop where
  value : j.value = k.value
  slope : j.slope = k.slope
  fixed : j.fixed = true → k.fixed = true

theorem Le.rfl {j : Jet} : j.Le j := ⟨.refl _, .refl _, id⟩

end Jet

/-- Terms as jets at a point, in the direction of `x[i]`. -/
def Interpretation.jet (x : Array ℝ) (i : Nat) : Interpretation PartialReal Jet where
  number v j := ∃ u, v = some u ∧ j = .number u
  var k j := ∃ u, x[k]? = some u ∧ j = .coordinate u (k == i)
  unary op j k := op.Smooth j.value ∧ k = j.unary op
  binary op j k l := Jet.Smooth op j k ∧ l = j.binary op k
  le := Jet.Le

namespace Jet

variable {j j' k k' l : Jet}

theorem le_unary (H : j.Le k) : (j.unary op).Le (k.unary op) := by
  obtain ⟨hv, hs, hf⟩ := H
  exact ⟨congrArg op.real hv, by simp only [unary, hv, hs], hf⟩

/-- Where the exponent does not vary both rules for powers agree. -/
theorem pow_tangent (hj : 0 < j.value) (hk : k.slope = 0) :
    j.value ^ k.value * (k.slope * Real.log j.value + k.value * j.slope / j.value) =
      k.value * j.value ^ (k.value - 1) * j.slope := by
  rw [hk, Real.rpow_sub_one hj.ne']
  ring

theorem Smooth.domain (H : Smooth op j k) : op.Domain j.value k.value := by
  cases op with
  | add | sub | mul => trivial
  | div => exact H
  | pow =>
    rw [Smooth] at H
    split at H
    · rcases H with ha | ⟨ha, hb⟩ | ⟨ha, n, hb⟩
      · exact .inl ha
      · exact .inr (.inl ⟨ha, by linarith⟩)
      · exact .inr (.inr ⟨ha, n + 1, by push_cast; linarith⟩)
    · exact .inl H

theorem Smooth.mono (H : Smooth op j k) (hj : j.Le j') (hk : k.Le k') : Smooth op j' k' := by
  cases op with
  | add | sub | mul => trivial
  | div =>
    rw [Smooth] at H ⊢
    rwa [← hk.value]
  | pow =>
    rw [Smooth] at H ⊢
    rw [← hj.value, ← hk.value]
    cases hf : k.fixed with
    | true =>
      rw [hf, if_pos rfl] at H
      rwa [if_pos (hk.fixed hf)]
    | false =>
      rw [hf, if_neg Bool.false_ne_true] at H
      split
      · exact .inl H
      · exact H

theorem Smooth.tangent_eq (H : Smooth op j k) (hj : j.Le j') (hk : k.Le k') :
    tangent op j k = tangent op j' k' := by
  cases op with
  | add | sub | mul | div => simp only [tangent, hj.value, hj.slope, hk.value, hk.slope]
  | pow =>
    rw [Smooth] at H
    rw [tangent, tangent, ← hj.value, ← hj.slope, ← hk.value, ← hk.slope]
    cases hf : k.fixed with
    | true => rw [hk.fixed hf]
    | false =>
      rw [hf, if_neg Bool.false_ne_true] at H
      rw [if_neg Bool.false_ne_true]
      split
      · rename_i hf'
        exact pow_tangent H (hk.slope.trans (k'.slope_eq hf'))
      · rfl

theorem Smooth.le_binary (H : Smooth op j k) (hj : j.Le j') (hk : k.Le k') :
    (j.binary op k).Le (j'.binary op k') := by
  refine ⟨congrArg₂ op.real hj.value hk.value, H.tangent_eq hj hk, ?_⟩
  intro h
  obtain ⟨hj', hk'⟩ := Bool.and_eq_true_iff.mp h
  exact Bool.and_eq_true_iff.mpr ⟨hj.fixed hj', hk.fixed hk'⟩

end Jet

/-! ## Simplification -/

namespace Interpretation

variable {x : Array ℝ} {i n : Nat} {z : Jet}

theorem literal_jet (H : (jet x i).Literal n z) : z = .number n := by
  obtain ⟨v, he, u, rfl, rfl⟩ := H
  rw [PartialReal.nat_eq, PartialReal.eq_some] at he
  rw [he]

theorem standIn_jet {j : Jet} {v : ℝ} (hv : j.value = v) (hs : j.slope = 0) :
    (jet x i).StandIn (some v) j :=
  ⟨.number v, ⟨v, rfl, rfl⟩, hv, hs, fun _ => rfl⟩

theorem jet_literal_left (hz : (jet x i).Literal n z) (hc : (jet x i).binary op z j c) :
    c = (Jet.number n).binary op j := by
  rw [← literal_jet hz]
  exact hc.2

theorem jet_literal_right (hz : (jet x i).Literal n z) (hc : (jet x i).binary op j z c) :
    c = j.binary op (.number n) := by
  rw [← literal_jet hz]
  exact hc.2

theorem lawful_jet (x : Array ℝ) (i : Nat) : (jet x i).Lawful where
  refl := .rfl
  trans h h' := ⟨h.value.trans h'.value, h.slope.trans h'.slope, h'.fixed ∘ h.fixed⟩
  unary_mono {op j k l} hl hle := by
    obtain ⟨hs, rfl⟩ := hl
    exact ⟨k.unary op, ⟨hle.value ▸ hs, rfl⟩, Jet.le_unary hle⟩
  binary_mono {op j j' k k' l} hl hj hk := by
    obtain ⟨hs, rfl⟩ := hl
    exact ⟨_, ⟨hs.mono hj hk, rfl⟩, hs.le_binary hj hk⟩
  equal {v w j} hj he := by
    obtain ⟨u, rfl, rfl⟩ := hj
    cases w with
    | none => cases he
    | some v => exact standIn_jet (PartialReal.eq_some.mp he) rfl
  unary_number {op v j k} hj hk := by
    obtain ⟨u, rfl, rfl⟩ := hj
    obtain ⟨hs, rfl⟩ := hk
    rw [PartialReal.unary_some (u := u) hs.domain]
    exact standIn_jet rfl (by simp)
  binary_number {op v w j k l} hj hk hl := by
    obtain ⟨u, rfl, rfl⟩ := hj
    obtain ⟨v, rfl, rfl⟩ := hk
    obtain ⟨hs, rfl⟩ := hl
    rw [PartialReal.binary_some (u := u) (v := v) hs.domain]
    exact standIn_jet rfl (Jet.slope_eq _ rfl)
  neg_neg {j k l} hk hl := by
    obtain ⟨_, rfl⟩ := hk
    obtain ⟨_, rfl⟩ := hl
    exact ⟨by simp [UnaryOp.real], by simp [UnaryOp.slope], id⟩
  zero_add {z j c} hz hc := by
    obtain rfl := jet_literal_left hz hc
    exact ⟨by simp [BinaryOp.real], by simp [Jet.tangent], by simp⟩
  add_zero {z j c} hz hc := by
    obtain rfl := jet_literal_right hz hc
    exact ⟨by simp [BinaryOp.real], by simp [Jet.tangent], by simp⟩
  sub_zero {z j c} hz hc := by
    obtain rfl := jet_literal_right hz hc
    exact ⟨by simp [BinaryOp.real], by simp [Jet.tangent], by simp⟩
  zero_sub {z j c} hz hc := by
    obtain rfl := jet_literal_left hz hc
    refine ⟨j.unary .neg, ⟨trivial, rfl⟩, ?_⟩
    exact ⟨by simp [BinaryOp.real, UnaryOp.real], by simp [Jet.tangent, UnaryOp.slope], by simp⟩
  zero_mul {z j c} hz hc := by
    obtain rfl := jet_literal_left hz hc
    rw [PartialReal.nat_eq]
    exact standIn_jet (by simp [BinaryOp.real]) (by simp [Jet.tangent])
  mul_zero {z j c} hz hc := by
    obtain rfl := jet_literal_right hz hc
    rw [PartialReal.nat_eq]
    exact standIn_jet (by simp [BinaryOp.real]) (by simp [Jet.tangent])
  one_mul {z j c} hz hc := by
    obtain rfl := jet_literal_left hz hc
    exact ⟨by simp [BinaryOp.real], by simp [Jet.tangent], by simp⟩
  mul_one {z j c} hz hc := by
    obtain rfl := jet_literal_right hz hc
    exact ⟨by simp [BinaryOp.real], by simp [Jet.tangent], by simp⟩
  div_one {z j c} hz hc := by
    obtain rfl := jet_literal_right hz hc
    exact ⟨by simp [BinaryOp.real], by simp [Jet.tangent], by simp⟩
  zero_div {z j c} hz hc := by
    obtain rfl := jet_literal_left hz hc
    rw [PartialReal.nat_eq]
    exact standIn_jet (by simp [BinaryOp.real]) (by simp [Jet.tangent])
  pow_one {z j c} hz hc := by
    obtain rfl := jet_literal_right hz hc
    exact ⟨by simp [BinaryOp.real], by simp [Jet.tangent], by simp⟩
  pow_zero {z j c} hz hc := by
    obtain rfl := jet_literal_right hz hc
    rw [PartialReal.nat_eq]
    exact standIn_jet (by simp [BinaryOp.real]) (by simp [Jet.tangent])

end Interpretation

end

end Downhill
