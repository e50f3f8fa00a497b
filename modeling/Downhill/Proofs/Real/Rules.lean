import Downhill.Proofs.Real.Jet

/-!
# The differentiation rules

Each rule is a formula in the operands of a node and their derivatives. Read over the reals, it has
the slope that the textbook derivative gives wherever there is one (`UnaryOp.rule_eval`,
`BinaryOp.rule_eval`), and what has a value is read as defined all the way
(`Formula.reads_of_eval`).
-/

namespace Downhill

/-! ## Values of formulas -/

namespace Formula

section

variable {ι α : Type} [Scalar α]

def eval (arg tangent : ι → α) : Formula ι → α
  | .arg i => arg i
  | .tangent i => tangent i
  | num n => Scalar.nat n
  | unary op f => Scalar.unary op (f.eval arg tangent)
  | binary op f g => Scalar.binary op (f.eval arg tangent) (g.eval arg tangent)

variable {arg tangent : ι → α} {f g : Formula ι}

@[simp] theorem eval_arg (i : ι) : (Formula.arg i).eval arg tangent = arg i := rfl
@[simp] theorem eval_tangent (i : ι) : (Formula.tangent i).eval arg tangent = tangent i := rfl
@[simp] theorem eval_one : (1 : Formula ι).eval arg tangent = Scalar.nat 1 := rfl
@[simp] theorem eval_two : (2 : Formula ι).eval arg tangent = Scalar.nat 2 := rfl
@[simp] theorem eval_unary (op : UnaryOp) :
    (unary op f).eval arg tangent = Scalar.unary op (f.eval arg tangent) := rfl
@[simp] theorem eval_neg : (-f).eval arg tangent = Scalar.unary .neg (f.eval arg tangent) := rfl
@[simp] theorem eval_add :
    (f + g).eval arg tangent = Scalar.binary .add (f.eval arg tangent) (g.eval arg tangent) := rfl
@[simp] theorem eval_sub :
    (f - g).eval arg tangent = Scalar.binary .sub (f.eval arg tangent) (g.eval arg tangent) := rfl
@[simp] theorem eval_mul :
    (f * g).eval arg tangent = Scalar.binary .mul (f.eval arg tangent) (g.eval arg tangent) := rfl
@[simp] theorem eval_div :
    (f / g).eval arg tangent = Scalar.binary .div (f.eval arg tangent) (g.eval arg tangent) := rfl
@[simp] theorem eval_pow :
    (f ^ g).eval arg tangent = Scalar.binary .pow (f.eval arg tangent) (g.eval arg tangent) := rfl

end

end Formula

namespace PartialReal

variable {a b : ℝ}

@[simp] theorem neg_some : Scalar.unary .neg (some a : PartialReal) = some (-a) :=
  unary_some trivial
@[simp] theorem exp_some : Scalar.unary .exp (some a : PartialReal) = some (Real.exp a) :=
  unary_some trivial
@[simp] theorem sin_some : Scalar.unary .sin (some a : PartialReal) = some (Real.sin a) :=
  unary_some trivial
@[simp] theorem cos_some : Scalar.unary .cos (some a : PartialReal) = some (Real.cos a) :=
  unary_some trivial
@[simp] theorem sigmoid_some :
    Scalar.unary .sigmoid (some a : PartialReal) = some (UnaryOp.sigmoid.real a) :=
  unary_some trivial
@[simp] theorem unitStep_some :
    Scalar.unary .unitStep (some a : PartialReal) = some (UnaryOp.unitStep.real a) :=
  unary_some trivial
theorem sqrt_some (H : 0 ≤ a) : Scalar.unary .sqrt (some a : PartialReal) = some √a :=
  unary_some H
theorem log_some (H : 0 < a) : Scalar.unary .log (some a : PartialReal) = some (Real.log a) :=
  unary_some H
@[simp] theorem add_some : Scalar.binary .add (some a : PartialReal) (some b) = some (a + b) :=
  binary_some trivial
@[simp] theorem sub_some : Scalar.binary .sub (some a : PartialReal) (some b) = some (a - b) :=
  binary_some trivial
@[simp] theorem mul_some : Scalar.binary .mul (some a : PartialReal) (some b) = some (a * b) :=
  binary_some trivial
theorem div_some (H : b ≠ 0) : Scalar.binary .div (some a : PartialReal) (some b) = some (a / b) :=
  binary_some H
theorem pow_some (H : BinaryOp.pow.Domain a b) :
    Scalar.binary .pow (some a : PartialReal) (some b) = some (a ^ b) :=
  binary_some H

end PartialReal

open PartialReal

/-- A formula with a value is read as that value, and everything in it is defined. -/
theorem Formula.reads_of_eval {ι : Type} {x : Array PartialReal} {u v : ι → ℝ} {f : Formula ι}
    {w : ℝ} (H : f.eval (fun i => some (u i)) (fun i => some (v i)) = some w) :
    f.Reads (.defined Defined x) (fun i => just (u i)) (fun i => just (v i)) (just w) := by
  induction f generalizing w with
  | arg i => cases H; exact .arg i
  | tangent i => cases H; exact .tangent i
  | num n => exact .num H.symm
  | unary op f ih =>
    obtain ⟨a, ha, _, rfl⟩ := unary_eq_some.mp H
    exact .unary (ih ha) (H.symm.trans (congrArg (Scalar.unary op) ha))
  | binary op f g ihf ihg =>
    obtain ⟨a, b, ha, hb, _, rfl⟩ := binary_eq_some.mp H
    exact .binary (ihf ha) (ihg hb) (H.symm.trans (congrArg₂ (Scalar.binary op) ha hb))

/-! ## Rules -/

/-- The root under the derivatives of the inverse sine and cosine. -/
theorem root_ne_zero {a : ℝ} (H : -1 < a ∧ a < 1) : 0 < 1 - a * a ∧ √(1 - a * a) ≠ 0 := by
  have hpos : 0 < 1 - a * a := by nlinarith [H.1, H.2]
  exact ⟨hpos, (Real.sqrt_pos.mpr hpos).ne'⟩

theorem UnaryOp.rule_eval {op : UnaryOp} {a : ℝ} (H : op.Smooth a) (da : ℝ) :
    ∃ rule, op.rule? = some rule ∧
      rule.eval (fun _ => (some a : PartialReal)) (fun _ => some da) = some (op.slope a * da) := by
  cases op with
  | neg => exact ⟨_, rfl, by simp [slope]⟩
  | sqr => exact ⟨_, rfl, by simp [slope]⟩
  | sqrt =>
    have h0 : 0 ≤ a := le_of_lt H
    have hr : 2 * √a ≠ 0 := mul_ne_zero two_ne_zero (Real.sqrt_pos.mpr H).ne'
    refine ⟨_, rfl, ?_⟩
    simp [slope, sqrt_some h0, div_some hr, div_eq_inv_mul]
  | exp => exact ⟨_, rfl, by simp [slope]⟩
  | log =>
    have hr : a ≠ 0 := ne_of_gt H
    exact ⟨_, rfl, by simp [slope, div_some hr, div_eq_inv_mul]⟩
  | sin => exact ⟨_, rfl, by simp [slope]⟩
  | cos => exact ⟨_, rfl, by simp [slope]⟩
  | tan =>
    have hr : Real.cos a * Real.cos a ≠ 0 := mul_ne_zero H H
    exact ⟨_, rfl, by simp [slope, div_some hr, div_eq_inv_mul, sq]⟩
  | asin | acos =>
    obtain ⟨hpos, hr⟩ := root_ne_zero H
    refine ⟨_, rfl, ?_⟩
    simp [slope, sqrt_some hpos.le, div_some hr, div_eq_inv_mul, sq]
  | atan =>
    have hr : 1 + a * a ≠ 0 := by nlinarith [mul_self_nonneg a]
    exact ⟨_, rfl, by simp [slope, div_some hr, div_eq_inv_mul, sq]⟩
  | sigmoid => exact ⟨_, rfl, by simp [slope]⟩
  | logSigmoid => exact ⟨_, rfl, by simp [slope]⟩
  | ramp =>
    have hstep : unitStep.real a = if 0 < a then 1 else 0 := by
      simp only [real, le_iff_lt_or_eq, H.symm, or_false]
    exact ⟨_, rfl, by simp [slope, hstep]⟩
  | unitStep => exact H.elim

theorem BinaryOp.rule_eval {op : BinaryOp} {j k : Jet} (H : Jet.Smooth op j k) :
    (op.rule k.fixed).eval (fun s => (some (s.select j.value k.value) : PartialReal))
      (fun s => some (s.select j.slope k.slope)) = some (Jet.tangent op j k) := by
  cases op with
  | add => simp [rule, Side.select, Jet.tangent]
  | sub => simp [rule, Side.select, Jet.tangent]
  | mul => simp [rule, Side.select, Jet.tangent]
  | div =>
    have hr : k.value * k.value ≠ 0 := mul_ne_zero H H
    simp [rule, Side.select, Jet.tangent, div_some hr, sq]
  | pow =>
    rw [Jet.Smooth] at H
    cases hf : k.fixed with
    | true =>
      rw [hf, if_pos rfl] at H
      simp [rule, Side.select, Jet.tangent, hf, pow_some H]
    | false =>
      rw [hf, if_neg Bool.false_ne_true] at H
      have hr : j.value ≠ 0 := H.ne'
      simp [rule, Side.select, Jet.tangent, hf, pow_some (.inl H), log_some H, div_some hr]

end Downhill
