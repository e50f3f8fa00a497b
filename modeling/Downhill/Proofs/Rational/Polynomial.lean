import Mathlib.Algebra.Polynomial.Derivative
import Mathlib.Algebra.Polynomial.Eval.Degree
import Mathlib.Tactic.Ring
import Downhill.Proofs.Meaning.Execution
import Downhill.Proofs.Meaning.Writing
import Downhill.Proofs.Rational.PartialRational

/-!
# Polynomials along an axis

On the line through a point parallel to an axis, an expression made of sums, products and quotients
by constants is a polynomial in the distance from the point (`Interpretation.polynomial`). What
simplification does to such an expression leaves the polynomial as it is, and the derivative that is
built for it is the derivative of the polynomial (`Reached.polynomial`).
-/

namespace Downhill

open Polynomial

/-- What unary operators make of polynomials. -/
inductive UnaryOp.OnPolynomial : UnaryOp → ℚ[X] → ℚ[X] → Prop where
  | neg : OnPolynomial .neg P (-P)
  | sqr : OnPolynomial .sqr P (P * P)

/-- What binary operators make of polynomials; they can be divided by constants. -/
inductive BinaryOp.OnPolynomials : BinaryOp → ℚ[X] → ℚ[X] → ℚ[X] → Prop where
  | add : OnPolynomials .add P Q (P + Q)
  | sub : OnPolynomials .sub P Q (P - Q)
  | mul : OnPolynomials .mul P Q (P * Q)
  | div : c ≠ 0 → OnPolynomials .div P (C c) (P * C c⁻¹)

/-- The polynomials in the distance from a point along the axis of a coordinate. -/
def Interpretation.polynomial (x : Array ℚ) (i : ℕ) : Interpretation PartialRational ℚ[X] where
  number v P := ∃ c, v = some c ∧ P = C c
  var k P := ∃ c, x[k]? = some c ∧ P = C c + if k = i then X else 0
  unary op := op.OnPolynomial
  binary op := op.OnPolynomials

namespace Interpretation

variable {x : Array ℚ} {i n : ℕ} {P Q R : ℚ[X]}

theorem polynomial_number (c : ℚ) : (polynomial x i).number (some c) (C c) := ⟨c, rfl, rfl⟩

theorem polynomial_nat (n : ℕ) : (polynomial x i).number (Scalar.nat n) (n : ℚ[X]) :=
  ⟨n, PartialRational.nat_eq n, (C_eq_natCast n).symm⟩

theorem literal_polynomial (H : (polynomial x i).Literal n P) : P = n := by
  obtain ⟨v, hv, c, rfl, rfl⟩ := H
  have hc : some c = some (n : ℚ) := (PartialRational.eq_of_eq hv).trans (PartialRational.nat_eq n)
  rw [Option.some.inj hc, C_eq_natCast]

theorem standIn_polynomial (H : (polynomial x i).number v P) : (polynomial x i).StandIn v P :=
  ⟨P, H, rfl⟩

theorem standIn_nat (H : P = n) : (polynomial x i).StandIn (Scalar.nat n) P :=
  ⟨n, polynomial_nat n, H⟩

@[simp] theorem le_polynomial : (polynomial x i).le P Q ↔ P = Q := .rfl

theorem lawful_polynomial (x : Array ℚ) (i : ℕ) : (polynomial x i).Lawful where
  refl := rfl
  trans h h' := h.trans h'
  unary_mono := by
    rintro op P _ R H rfl
    exact ⟨R, H, rfl⟩
  binary_mono := by
    rintro op P Q _ _ R H rfl rfl
    exact ⟨R, H, rfl⟩
  equal := by
    rintro v w P ⟨c, rfl, rfl⟩ he
    rw [← PartialRational.eq_of_eq he]
    exact standIn_polynomial (polynomial_number c)
  unary_number := by
    rintro op v P Q ⟨c, rfl, rfl⟩ H
    cases H with
    | neg => exact standIn_polynomial ⟨-c, rfl, C_neg.symm⟩
    | sqr => exact standIn_polynomial ⟨c * c, rfl, C_mul.symm⟩
  binary_number := by
    rintro op v w P Q R ⟨a, rfl, rfl⟩ ⟨b, rfl, rfl⟩ H
    generalize hb : C b = Q at H
    cases H with
    | add => exact standIn_polynomial ⟨a + b, rfl, by rw [← hb, C_add]⟩
    | sub => exact standIn_polynomial ⟨a - b, rfl, by rw [← hb, C_sub]⟩
    | mul => exact standIn_polynomial ⟨a * b, rfl, by rw [← hb, C_mul]⟩
    | div hc =>
      cases C_injective hb
      exact standIn_polynomial
        ⟨a / b, PartialRational.rational?_div hc, by rw [← C_mul, div_eq_mul_inv]⟩
  neg_neg := by
    rintro P _ _ ⟨⟩ ⟨⟩
    exact neg_neg P
  zero_add hz H := by
    cases H
    simp [literal_polynomial hz]
  add_zero hz H := by
    cases H
    simp [literal_polynomial hz]
  sub_zero hz H := by
    cases H
    simp [literal_polynomial hz]
  zero_sub {_ P _} hz H := by
    cases H
    exact ⟨-P, .neg, by simp [literal_polynomial hz]⟩
  zero_mul hz H := by
    cases H
    exact standIn_nat (by simp [literal_polynomial hz])
  mul_zero hz H := by
    cases H
    exact standIn_nat (by simp [literal_polynomial hz])
  one_mul hz H := by
    cases H
    simp [literal_polynomial hz]
  mul_one hz H := by
    cases H
    simp [literal_polynomial hz]
  div_one hz H := by
    have hone := literal_polynomial hz
    cases H with
    | div hc =>
      rw [Nat.cast_one, ← C_1] at hone
      cases C_injective hone
      simp
  zero_div hz H := by
    cases H
    exact standIn_nat (by simp [literal_polynomial hz])
  pow_one _ H := nomatch H
  pow_zero _ H := nomatch H

end Interpretation

/-! ## Rules -/

/-- The rule of an operator gives the derivative of what the operator makes of polynomials. -/
theorem UnaryOp.OnPolynomial.rule {x : Array ℚ} {i : ℕ} {op : UnaryOp} {P Q : ℚ[X]}
    {rule : Formula Unit} (H : op.OnPolynomial P Q) (hrule : op.rule? = some rule) :
    rule.Reads (.polynomial x i) (fun _ => P) (fun _ => derivative P) (derivative Q) := by
  cases H with
  | neg =>
    cases hrule
    rw [derivative_neg]
    exact .unary (.tangent ()) .neg
  | sqr =>
    cases hrule
    have h2 : derivative (P * P) = (2 : ℕ) * P * derivative P := by
      rw [derivative_mul, Nat.cast_ofNat]
      ring
    rw [h2]
    exact .binary (.binary (.num (Interpretation.polynomial_nat 2)) (.arg ()) .mul) (.tangent ())
      .mul

open Side Formula.Reads in
theorem BinaryOp.OnPolynomials.rule {x : Array ℚ} {i : ℕ} {op : BinaryOp} {P Q R : ℚ[X]}
    (H : op.OnPolynomials P Q R) (b : Bool) :
    (op.rule b).Reads (.polynomial x i) (Side.select P Q)
      (Side.select (derivative P) (derivative Q)) (derivative R) := by
  cases H with
  | add =>
    rw [derivative_add]
    exact .binary (tangent left) (tangent right) .add
  | sub =>
    rw [derivative_sub]
    exact .binary (tangent left) (tangent right) .sub
  | mul =>
    rw [derivative_mul]
    exact .binary (.binary (tangent left) (arg right) .mul) (.binary (arg left) (tangent right) .mul)
      .add
  | @div c P hc =>
    have hquotient : derivative (P * C c⁻¹) =
        (derivative P * C c - P * derivative (C c)) * C (c * c)⁻¹ := by
      rw [derivative_mul, derivative_C, derivative_C, mul_zero, add_zero, sub_zero, mul_assoc,
        ← C_mul, mul_inv, mul_inv_cancel_left₀ hc]
    have hdivisor : BinaryOp.OnPolynomials .mul (C c) (C c) (C (c * c)) := C_mul (R := ℚ) ▸ .mul
    rw [hquotient]
    exact .binary (.binary (.binary (tangent left) (arg right) .mul)
      (.binary (arg left) (tangent right) .mul) .sub) (.binary (arg right) (arg right) hdivisor)
      (.div (mul_ne_zero hc hc))

/-! ## Derivatives of nodes -/

namespace Pool

variable {p : Pool PartialRational} {h d : Handle} {i : ℕ} {x : Array ℚ} {P : ℚ[X]}

theorem Means.reads (H : p.Means (.polynomial x i) h P) : p.Reads (.polynomial x i) h P := by
  obtain ⟨Q, hQ, rfl⟩ := H
  exact hQ

/-- The derivative of a polynomial is a polynomial, its derivative. -/
def PolynomialAt (p : Pool PartialRational) (h : Handle) (i : ℕ) (d : Handle) : Prop :=
  ∀ (x : Array ℚ) {P}, p.Reads (.polynomial x i) h P →
    p.Reads (.polynomial x i) d (derivative P)

theorem inherited_polynomialAt : Inherited PolynomialAt where
  mono H hp hle hh x _ hP := (H x (hP.old hp hle hh)).mono hle
  derives {p h i n r} hp H hn hd x P hP := by
    have L := Interpretation.lawful_polynomial x i
    replace hP := hP.old hp (hd.yields hp hn).grows.le hn.names
    cases hd with
    | const =>
      obtain ⟨c, rfl, rfl⟩ := hP.of_const hn
      rw [derivative_C]
      exact (means_constant L hp (by simpa using Interpretation.polynomial_nat 0)).reads
    | @var j =>
      obtain ⟨c, _, rfl⟩ := hP.of_var hn
      refine (means_constant L hp ?_).reads
      have hnat := Interpretation.polynomial_nat (x := x) (i := i) (if j = i then 1 else 0)
      by_cases hji : j = i
      · simpa [hji] using hnat
      · simpa [hji] using hnat
    | unary hda hrule =>
      obtain ⟨Q, hQ, hop⟩ := hP.of_unary hn
      exact (Formula.kept L.kept hp (fun _ => hQ.means L) (fun _ => (H hda x hQ).means L)
        (hop.rule hrule)).reads
    | binary hda hdb =>
      obtain ⟨Q, R, hQ, hR, hop⟩ := hP.of_binary hn
      exact (Formula.kept L.kept hp (Side.forall.mpr ⟨hQ.means L, hR.means L⟩)
        (Side.forall.mpr ⟨(H hda x hQ).means L, (H hdb x hR).means L⟩) (hop.rule _)).reads

/-- A remembered derivative of a polynomial is its derivative. -/
theorem Reached.polynomial (H : p.Reached) (hd : p.derivative? h i = some d)
    (hP : p.Reads (.polynomial x i) h P) : p.Reads (.polynomial x i) d (derivative P) :=
  H.inherits inherited_polynomialAt hd x hP

/-- There is no step below a polynomial. -/
theorem Reads.not_stepped (H : p.Reads (.polynomial x i) h P) : ¬p.Stepped h := by
  rintro ⟨k, a, hk, hn⟩
  obtain ⟨Q, hQ⟩ := H.reaches hk
  obtain ⟨_, _, hop⟩ := hQ.of_unary hn
  cases hop

/-! ## Values -/

/-- Where a node is a polynomial, its value at some distance is that of the polynomial. -/
theorem Reads.eval (H : p.Reads (.polynomial x i) h P) (s : ℚ) :
    p.Reads (.evaluation ((x.modify i (· + s)).map some)) h (some (P.eval s)) := by
  induction H with
  | const hn hP =>
    obtain ⟨c, rfl, rfl⟩ := hP
    exact .const hn (congrArg some eval_C)
  | @var h k _ hn hP =>
    obtain ⟨c, hk, rfl⟩ := hP
    refine .var hn ?_
    by_cases hki : k = i
    · cases hki
      simp [Interpretation.evaluation, Array.getElem?_modify, hk]
    · simp [Interpretation.evaluation, Array.getElem?_modify, hk, hki, Ne.symm hki]
  | unary hn _ hop ih =>
    cases hop with
    | neg => exact .unary hn ih (congrArg some (eval_neg ..))
    | sqr => exact .unary hn ih (congrArg some eval_mul)
  | binary hn _ _ hop ihP ihQ =>
    cases hop with
    | add => exact .binary hn ihP ihQ (congrArg some eval_add)
    | sub => exact .binary hn ihP ihQ (congrArg some (eval_sub ..))
    | mul => exact .binary hn ihP ihQ (congrArg some eval_mul)
    | div hc =>
      rw [eval_C] at ihQ
      refine .binary hn ihP ihQ ?_
      rw [eval_mul, eval_C, ← div_eq_mul_inv]
      exact (PartialRational.rational?_div hc).symm

theorem Reads.eval_zero (H : p.Reads (.polynomial x i) h P) :
    p.Reads (.evaluation (x.map some)) h (some (P.eval 0)) := by
  have hx : x.modify i (· + 0) = x := by
    refine Array.ext Array.size_modify fun k _ _ => ?_
    simp [Array.getElem_modify]
  exact hx ▸ H.eval 0

end Pool

end Downhill
