import Mathlib.Analysis.SpecialFunctions.Pow.Real
import Mathlib.Analysis.SpecialFunctions.Trigonometric.Inverse
import Mathlib.Analysis.SpecialFunctions.Trigonometric.Arctan
import Downhill.Proofs.Meaning.Evaluation

/-!
# Real numbers as scalars

Exact arithmetic on the reals, where an operator outside of its domain has no result. The identities
behind simplification hold for all numbers (`PartialReal.identities`), so whatever simplification
does, a term that can be evaluated keeps its value.
-/

namespace Downhill

/-- A real number, or nothing where a number would be undefined. -/
abbrev PartialReal := Option ℝ

noncomputable section

open scoped Classical

/-! ## Operators -/

namespace UnaryOp

/-- The function of an operator, extended beyond its domain. -/
def real : UnaryOp → ℝ → ℝ
  | neg, a => -a
  | sqr, a => a * a
  | sqrt, a => √a
  | exp, a => Real.exp a
  | log, a => Real.log a
  | sin, a => Real.sin a
  | cos, a => Real.cos a
  | tan, a => Real.tan a
  | asin, a => Real.arcsin a
  | acos, a => Real.arccos a
  | atan, a => Real.arctan a
  | sigmoid, a => 1 / (1 + Real.exp (-a))
  | logSigmoid, a => -Real.log (1 + Real.exp (-a))
  | ramp, a => if 0 < a then a else 0
  | unitStep, a => if 0 ≤ a then 1 else 0

def Domain : UnaryOp → ℝ → Prop
  | sqrt, a => 0 ≤ a
  | log, a => 0 < a
  | tan, a => Real.cos a ≠ 0
  | asin, a | acos, a => -1 ≤ a ∧ a ≤ 1
  | neg, _ | sqr, _ | exp, _ | sin, _ | cos, _ | atan, _ | sigmoid, _ | logSigmoid, _ | ramp, _
  | unitStep, _ => True

end UnaryOp

namespace BinaryOp

def real : BinaryOp → ℝ → ℝ → ℝ
  | add, a, b => a + b
  | sub, a, b => a - b
  | mul, a, b => a * b
  | div, a, b => a / b
  | pow, a, b => a ^ b

/-- Zero has powers that are not negative, and a negative number has integer powers. -/
def Domain : BinaryOp → ℝ → ℝ → Prop
  | div, _, b => b ≠ 0
  | pow, a, b => 0 < a ∨ a = 0 ∧ 0 ≤ b ∨ a < 0 ∧ ∃ n : ℤ, b = n
  | add, _, _ | sub, _, _ | mul, _, _ => True

end BinaryOp

/-- Natural powers are defined everywhere. -/
theorem pow_domain (u : ℝ) (n : ℕ) : BinaryOp.pow.Domain u n := by
  rcases lt_trichotomy u 0 with hu | hu | hu
  · exact .inr (.inr ⟨hu, n, by simp⟩)
  · exact .inr (.inl ⟨hu, n.cast_nonneg⟩)
  · exact .inl hu

/-! ## Scalars -/

namespace PartialReal

def unary (op : UnaryOp) (a : PartialReal) : PartialReal :=
  a.bind fun u => if op.Domain u then some (op.real u) else none

def binary (op : BinaryOp) (a b : PartialReal) : PartialReal :=
  a.bind fun u => b.bind fun v => if op.Domain u v then some (op.real u v) else none

/-- Whether two numbers, both of them there, are in a relation. -/
def compare (R : ℝ → ℝ → Prop) : PartialReal → PartialReal → Bool
  | some u, some v => decide (R u v)
  | _, _ => false

instance : Scalar PartialReal where
  decimal m k := some (m / 10 ^ k)
  unary := unary
  binary := binary
  power := binary .pow
  eq := compare (· = ·)
  lt := compare (· < ·)
  le := compare (· ≤ ·)
  abs a := a.map abs
  isFinite a := a.isSome

variable {a b : PartialReal} {u v w : ℝ}

@[simp] theorem nat_eq (n : ℕ) : (Scalar.nat n : PartialReal) = some (n : ℝ) := by
  simp [Scalar.nat, Scalar.decimal]

theorem unary_eq_some :
    Scalar.unary op a = some w ↔ ∃ u, a = some u ∧ op.Domain u ∧ op.real u = w := by
  cases a <;> simp [Scalar.unary, unary]

theorem binary_eq_some : Scalar.binary op a b = some w ↔
    ∃ u v, a = some u ∧ b = some v ∧ op.Domain u v ∧ op.real u v = w := by
  cases a <;> cases b <;> simp [Scalar.binary, binary]

theorem eq_some : Scalar.eq (some u : PartialReal) (some v) = true ↔ u = v := by
  simp [Scalar.eq, compare]

theorem binary_some (H : op.Domain u v) :
    Scalar.binary op (some u : PartialReal) (some v) = some (op.real u v) :=
  binary_eq_some.mpr ⟨u, v, rfl, rfl, H, rfl⟩

theorem unary_some (H : op.Domain u) : Scalar.unary op (some u : PartialReal) = some (op.real u) :=
  unary_eq_some.mpr ⟨u, rfl, H, rfl⟩

/-- What is defined is a number. -/
def Defined (a : PartialReal) : Prop := ∃ u, a = some u

def just (u : ℝ) : Subtype Defined := ⟨some u, u, rfl⟩

theorem unary_of_defined (H : Defined (Scalar.unary op (some u))) :
    Scalar.unary op (some u : PartialReal) = some (op.real u) := by
  obtain ⟨w, hw⟩ := H
  obtain ⟨u', hu, _, rfl⟩ := unary_eq_some.mp hw
  cases hu
  exact hw

theorem binary_of_defined (H : Defined (Scalar.binary op (some u) (some v))) :
    Scalar.binary op (some u : PartialReal) (some v) = some (op.real u v) := by
  obtain ⟨w, hw⟩ := H
  obtain ⟨u', v', hu, hv, _, rfl⟩ := binary_eq_some.mp hw
  cases hu
  cases hv
  exact hw

theorem literal_right {n : ℕ} (H : op.Domain u n) (hw : op.real u n = w) :
    Scalar.binary op (some u : PartialReal) (Scalar.nat n) = some w := by
  rw [nat_eq, binary_some H, hw]

theorem literal_left {n : ℕ} (H : op.Domain n u) (hw : op.real n u = w) :
    Scalar.binary op (Scalar.nat n : PartialReal) (some u) = some w := by
  rw [nat_eq, binary_some H, hw]

theorem identities : Scalar.Identities Defined where
  eq_sound {a b} ha he := by
    obtain ⟨u, rfl⟩ := ha
    cases b with
    | none => cases he
    | some v => rw [eq_some.mp he]
  add_zero {a} ha := by
    obtain ⟨u, rfl⟩ := ha
    exact literal_right trivial (by simp [BinaryOp.real])
  zero_add {a} ha := by
    obtain ⟨u, rfl⟩ := ha
    exact literal_left trivial (by simp [BinaryOp.real])
  sub_zero {a} ha := by
    obtain ⟨u, rfl⟩ := ha
    exact literal_right trivial (by simp [BinaryOp.real])
  zero_sub {a} ha := by
    obtain ⟨u, rfl⟩ := ha
    have hsub : Scalar.binary .sub (Scalar.nat 0 : PartialReal) (some u) = some (-u) :=
      literal_left trivial (by simp [BinaryOp.real])
    have hneg : Scalar.unary .neg (some u : PartialReal) = some (-u) := unary_some trivial
    exact hsub.trans hneg.symm
  neg_neg {a} ha := by
    obtain ⟨u, rfl⟩ := ha
    have hneg (u : ℝ) : Scalar.unary .neg (some u : PartialReal) = some (-u) := unary_some trivial
    exact (congrArg (Scalar.unary .neg) (hneg u)).trans ((hneg (-u)).trans (by rw [neg_neg]))
  mul_one {a} ha := by
    obtain ⟨u, rfl⟩ := ha
    exact literal_right trivial (by simp [BinaryOp.real])
  one_mul {a} ha := by
    obtain ⟨u, rfl⟩ := ha
    exact literal_left trivial (by simp [BinaryOp.real])
  mul_zero {a} ha := by
    obtain ⟨u, rfl⟩ := ha
    have hmul : Scalar.binary .mul (some u : PartialReal) (Scalar.nat 0) = some ((0 : ℕ) : ℝ) :=
      literal_right trivial (by simp [BinaryOp.real])
    exact hmul.trans (nat_eq 0).symm
  zero_mul {a} ha := by
    obtain ⟨u, rfl⟩ := ha
    have hmul : Scalar.binary .mul (Scalar.nat 0 : PartialReal) (some u) = some ((0 : ℕ) : ℝ) :=
      literal_left trivial (by simp [BinaryOp.real])
    exact hmul.trans (nat_eq 0).symm
  div_one {a} ha := by
    obtain ⟨u, rfl⟩ := ha
    exact literal_right (by simp [BinaryOp.Domain]) (by simp [BinaryOp.real])
  zero_div {a} ha hd := by
    obtain ⟨u, rfl⟩ := ha
    obtain ⟨w, hw⟩ := hd
    obtain ⟨z, v, hz, _, _, hzv⟩ := binary_eq_some.mp hw
    cases (nat_eq 0).symm.trans hz
    have h0 : w = ((0 : ℕ) : ℝ) := by rw [← hzv]; simp [BinaryOp.real]
    exact hw.trans (h0 ▸ (nat_eq 0).symm)
  pow_one {a} ha := by
    obtain ⟨u, rfl⟩ := ha
    exact literal_right (pow_domain u 1) (by simp [BinaryOp.real])
  pow_zero {a} ha := by
    obtain ⟨u, rfl⟩ := ha
    have hpow : Scalar.binary .pow (some u : PartialReal) (Scalar.nat 0) = some ((1 : ℕ) : ℝ) :=
      literal_right (pow_domain u 0) (by simp [BinaryOp.real])
    exact hpow.trans (nat_eq 1).symm

theorem compiled_evaluates_quotient :
    ∃ (p : Pool PartialReal) (h : Handle),
      Written p (.expression h) (.binary .div (.num (some 6)) (.var 0)) ∧
      (∃ f q, (Build.function 1 (.expression h)).run p = (.ok f, q) ∧
        f.apply #[some 2] = .ok (some (6 / 2))) ∧
      ∃ g, (Build.compile [h, h] 1).run p = (.ok g, p) ∧
        g.run .point #[some 2] = [some (6 / 2), some (6 / 2)] := by
  obtain ⟨hfunction, hcompile, _⟩ := compiled_evaluates identities #[some 2]
  have hx := Written.var (α := PartialReal) .empty 0
  have hnum := (Written.number (v := some 6) hx.valid.1).expression rfl
  have ht := hnum.binary (hx.later (.call .rfl (.constant (some 6)) trivial)) .div
  have hv : (Term.binary .div (.num (some 6)) (.var 0)).Evaluates Defined #[some 2]
      (some (6 / 2)) := by
    have he : Scalar.binary .div (some 6 : PartialReal) (some 2) = some (6 / 2) :=
      binary_some two_ne_zero
    rw [← he]
    exact .binary (.num ⟨6, rfl⟩) (.var rfl ⟨2, rfl⟩) ⟨_, he⟩
  obtain ⟨g, hg, _, hrun⟩ :=
    hcompile ht.valid.1 (.cons ht (.cons ht .nil)) (.cons hv (.cons hv .nil))
  exact ⟨_, _, ht, hfunction ht hv, g, hg, hrun⟩

end PartialReal

end

end Downhill
