import Mathlib.Algebra.Polynomial.Degree.Lemmas
import Mathlib.Tactic.FieldSimp
import Downhill.Proofs.Rational.Polynomial
import Downhill.Tensor.Algebra

/-!
# Central differences of quadratic functions

The degree of a term, as it is written, bounds the degree of the polynomials that it is along the
axes (`Term.HasDegree.reads`). On both sides of a point a polynomial of degree two has the same
excess over its tangent, so the difference of the two values is exactly the slope times the
distance, whatever the distance (`central_differences_exact`).
-/

namespace Downhill

open Polynomial
open scoped Scalar

/-- The degree of a polynomial in so many coordinates, as it is written. -/
inductive Term.HasDegree (dim : ℕ) : Term PartialRational → ℕ → Prop where
  | num (c : ℚ) : HasDegree dim (.num (some c)) 0
  | var : i < dim → HasDegree dim (.var i) 1
  | neg : HasDegree dim t n → HasDegree dim (.unary .neg t) n
  | sqr : HasDegree dim t n → HasDegree dim (.unary .sqr t) (2 * n)
  | add : HasDegree dim s m → HasDegree dim t n → HasDegree dim (.binary .add s t) (max m n)
  | sub : HasDegree dim s m → HasDegree dim t n → HasDegree dim (.binary .sub s t) (max m n)
  | mul : HasDegree dim s m → HasDegree dim t n → HasDegree dim (.binary .mul s t) (m + n)
  | div : HasDegree dim t n → c ≠ 0 → HasDegree dim (.binary .div t (.num (some c))) n

theorem Term.HasDegree.reads {t : Term PartialRational} {x : Array ℚ} (H : t.HasDegree x.size n)
    (i : ℕ) : ∃ P, t.Reads (.polynomial x i) P ∧ P.natDegree ≤ n := by
  induction H with
  | num c => exact ⟨C c, .num ⟨c, rfl, rfl⟩, (natDegree_C c).le⟩
  | @var k hk =>
    refine ⟨_, .var ⟨x[k], Array.getElem?_eq_getElem hk, rfl⟩, ?_⟩
    split
    · exact natDegree_C_add.trans_le natDegree_X_le
    · rw [add_zero, natDegree_C]
      exact Nat.zero_le 1
  | neg _ ih =>
    obtain ⟨P, hP, hn⟩ := ih
    exact ⟨-P, .unary hP .neg, (natDegree_neg P).trans_le hn⟩
  | sqr _ ih =>
    obtain ⟨P, hP, hn⟩ := ih
    exact ⟨P * P, .unary hP .sqr, (natDegree_mul_le_of_le hn hn).trans_eq (two_mul _).symm⟩
  | add _ _ ihs iht =>
    obtain ⟨P, hP, hm⟩ := ihs
    obtain ⟨Q, hQ, hn⟩ := iht
    exact ⟨P + Q, .binary hP hQ .add, natDegree_add_le_of_le hm hn⟩
  | sub _ _ ihs iht =>
    obtain ⟨P, hP, hm⟩ := ihs
    obtain ⟨Q, hQ, hn⟩ := iht
    exact ⟨P - Q, .binary hP hQ .sub, natDegree_sub_le_of_le hm hn⟩
  | mul _ _ ihs iht =>
    obtain ⟨P, hP, hm⟩ := ihs
    obtain ⟨Q, hQ, hn⟩ := iht
    exact ⟨P * Q, .binary hP hQ .mul, natDegree_mul_le_of_le hm hn⟩
  | @div t n c _ hc ih =>
    obtain ⟨P, hP, hn⟩ := ih
    exact ⟨P * C c⁻¹, .binary hP (.num ⟨c, rfl, rfl⟩) (.div hc), (natDegree_mul_C_le P _).trans hn⟩

/-- The difference quotient of a quadratic polynomial around zero is its slope there. -/
theorem difference_quotient {P : ℚ[X]} (hP : P.natDegree ≤ 2) {eps : ℚ} (heps : eps ≠ 0) :
    (P.eval eps - P.eval (-eps)) / (2 * eps) = (derivative P).eval 0 := by
  rw [P.as_sum_range_C_mul_X_pow' (Nat.lt_succ_of_le hP)]
  simp only [Finset.sum_range_succ, Finset.sum_range_zero, zero_add, pow_zero, mul_one, pow_one,
    eval_add, eval_mul, eval_C, eval_X, eval_pow, derivative_add, derivative_C, derivative_C_mul,
    derivative_X, derivative_X_pow]
  field_simp
  ring

/-! ## Points beside a point -/

theorem mapM_ok {f : β → Except ε γ} {g : β → γ} {l : List β} (H : ∀ b ∈ l, f b = .ok (g b)) :
    l.mapM f = .ok (l.map g) := by
  induction l with
  | nil => rfl
  | cons b l ih =>
    rw [List.mapM_cons, H b List.mem_cons_self, ih fun c hc => H c (List.mem_cons_of_mem b hc)]
    rfl

namespace Point

variable {x : Array ℚ}

section

variable {α : Type} [Scalar α] {dim i k : ℕ} {eps : α}

@[simp] theorem size_axis : (axis dim i eps).size = dim := by
  rw [axis, Array.size_setIfInBounds, Array.size_replicate]

@[simp] theorem getElem_axis (hk : k < (axis dim i eps).size) :
    (axis dim i eps)[k] = if i = k then eps else Scalar.nat 0 := by
  have hk : k < (Array.replicate dim (Scalar.nat 0 : α)).size := by simpa using hk
  refine (Array.getElem_setIfInBounds hk).trans ?_
  rw [Array.getElem_replicate]

end

theorem above_eq (x : Array ℚ) (i : ℕ) (eps : ℚ) :
    (x.map some).zipWith (· + ·) (axis x.size i (some eps : PartialRational)) =
      (x.modify i (· + eps)).map some := by
  refine Array.ext (by simp) fun k _ _ => ?_
  by_cases hik : i = k
  · simp [Array.getElem_modify, hik]
  · simp [Array.getElem_modify, hik]

theorem below_eq (x : Array ℚ) (i : ℕ) (eps : ℚ) :
    (x.map some).zipWith (· - ·) (axis x.size i (some eps : PartialRational)) =
      (x.modify i (· + -eps)).map some := by
  refine Array.ext (by simp) fun k _ _ => ?_
  by_cases hik : i = k
  · simp [Array.getElem_modify, hik, sub_eq_add_neg]
  · simp [Array.getElem_modify, hik]

/-- Central differences from values on both sides of a point along each axis. -/
theorem centralDifferences_ok {f : Point PartialRational → Except ε PartialRational} {eps : ℚ}
    {slope : ℕ → ℚ} (heps : eps ≠ 0)
    (H : ∀ i < x.size, ∃ value : ℚ → ℚ,
      (∀ s, f ((x.modify i (· + s)).map some) = .ok (some (value s))) ∧
        (value eps - value (-eps)) / (2 * eps) = slope i) :
    centralDifferences f (x.map some) (some eps) =
      .ok (((List.range x.size).map slope).toArray.map some) := by
  have hslopes : ∀ i ∈ List.range x.size, (do
      let e := axis x.size i (some eps : PartialRational)
      let above ← f ((x.map some).zipWith (· + ·) e)
      let below ← f ((x.map some).zipWith (· - ·) e)
      return (above - below) / (Scalar.nat 2 * some eps)) = .ok (some (slope i)) := by
    intro i hi
    obtain ⟨value, hvalue, hslope⟩ := H i (List.mem_range.mp hi)
    dsimp only
    rw [above_eq, below_eq, hvalue, hvalue, ← hslope]
    have hdistance : (Scalar.nat 2 * some eps : PartialRational) = some (2 * eps) := by
      rw [PartialRational.nat_eq, PartialRational.some_mul, Nat.cast_ofNat]
    have hquotient := PartialRational.some_div (u := value eps - value (-eps))
      (mul_ne_zero two_ne_zero heps)
    rw [← hdistance] at hquotient
    exact congrArg Except.ok hquotient
  rw [centralDifferences, Array.size_map, mapM_ok hslopes]
  simp

end Point

/-! ## Compiled expressions -/

section

variable {p q : Pool PartialRational} {h : Handle} {dim n : ℕ} {x : Array ℚ} {P : ℕ → ℚ[X]}

/-- The slopes at zero of polynomials, one for each coordinate. -/
noncomputable def slopes (P : ℕ → ℚ[X]) (dim : ℕ) : Array ℚ :=
  ((List.range dim).map fun i => (derivative (P i)).eval 0).toArray

theorem size_slopes : (slopes P dim).size = dim := by simp [slopes]

namespace Pool

/-- Along every axis through a point, a node is a polynomial of degree two at most. -/
structure Quadratic (p : Pool PartialRational) (h : Handle) (x : Array ℚ) (P : ℕ → ℚ[X]) :
    Prop where
  reads : ∀ i, p.Reads (.polynomial x i) h (P i)
  degree : ∀ i, (P i).natDegree ≤ 2

namespace Quadratic

theorem mono (H : p.Quadratic h x P) (hle : p ≤ q) : q.Quadratic h x P :=
  ⟨fun i => (H.reads i).mono hle, H.degree⟩

/-- Central differences of the function are the slopes. -/
theorem differences (H : p.Quadratic h x P) (hp : p.WF) {f : CompiledFunction PartialRational}
    (hr : (Build.function x.size (.expression h)).run p = (.ok f, q)) {eps : ℚ} (heps : eps ≠ 0) :
    Tensor.centralDifferences? f.call (.ofVector (x.map some)) (some eps) =
      .ok (.ofVector ((slopes P x.size).map some)) := by
  have hvalue (i : ℕ) (s : ℚ) :
      f.call ⟨[x.size], (x.modify i (· + s)).map some⟩ = .ok (some ((P i).eval s)) := by
    have hsize : ((x.modify i (· + s)).map some).size = x.size := by simp
    rw [← hsize] at hr
    exact (if_pos rfl).trans (Build.run_function_apply hp hr ((H.reads i).eval s))
  have hvalues : ∀ i < x.size, ∃ value : ℚ → ℚ,
      (∀ s, f.call ⟨[x.size], (x.modify i (· + s)).map some⟩ = .ok (some (value s))) ∧
        (value eps - value (-eps)) / (2 * eps) = (derivative (P i)).eval 0 := fun i _ =>
    ⟨fun s => (P i).eval s, hvalue i, difference_quotient (H.degree i) heps⟩
  have hslopes : Point.centralDifferences (fun v => f.call ⟨[x.size], v⟩) (x.map some) (some eps) =
      .ok ((slopes P x.size).map some) := Point.centralDifferences_ok heps hvalues
  rw [Tensor.centralDifferences?, Tensor.ofVector, Array.size_map, hslopes, Tensor.ofVector,
    Array.size_map, size_slopes]
  rfl

/-- The compiled gradient has the slopes as values. -/
theorem gradient (H : p.Quadratic h x P) (hp : p.Reached) {ds : List Handle}
    (hr : (Build.gradient h x.size).run p = (.ok ds, q)) :
    ∃ g, (Build.compiledGradient x.size (.expression h)).run p = (.ok g, q) ∧
      g.call (.ofVector (x.map some)) = .ok ((slopes P x.size).map some) := by
  have h0 := (names_iff.mp (H.reads 0).names).1
  obtain ⟨he, hds⟩ := (Build.gradient_ensures hp.wf h0 x.size).run_ok hr
  have hq : q.Reached := Build.run_snd hr ▸ hp.call (.gradient h x.size) h0
  have hvs : List.Forall₂ (q.Reads (.evaluation (x.map some))) ds
      ((slopes P x.size).map some).toList := by
    rw [slopes, Array.toList_map, List.forall₂_map_right_iff, List.forall₂_map_right_iff]
    exact hds.flip.imp fun d i hd => (hq.polynomial hd ((H.mono (he.le hp.wf)).reads i)).eval_zero
  have hsize : (x.map some).size = x.size := Array.size_map
  rw [← hsize] at hr
  obtain ⟨g, hg, _, hx⟩ := Build.run_compiledGradient_apply hq.wf hr hvs
  exact ⟨g, hsize ▸ hg, (if_pos rfl).trans hx⟩

end Quadratic

end Pool

/-- An expression of a degree, as it is stored or as it was written. -/
inductive Pool.HasDegree (p : Pool PartialRational) (h : Handle) (dim n : ℕ) : Prop where
  | stored : p.Reached → p.Unfolds h t → t.HasDegree dim n → HasDegree p h dim n
  | written : Written p (.expression h) t → t.HasDegree dim n → HasDegree p h dim n

namespace Pool.HasDegree

theorem reached (H : p.HasDegree h dim n) : p.Reached := by
  cases H with
  | stored hp => exact hp
  | written hw => exact hw.valid.1

/-- An expression of degree two at most is a polynomial of degree two at most along every axis. -/
theorem quadratic (H : p.HasDegree h x.size n) (hn : n ≤ 2) : ∃ P, p.Quadratic h x P := by
  have along (i : ℕ) : ∃ P, p.Reads (.polynomial x i) h P ∧ P.natDegree ≤ 2 := by
    cases H with
    | stored _ ht hdeg =>
      obtain ⟨P, hP, hle⟩ := hdeg.reads i
      exact ⟨P, ht.reads_iff.mpr hP, hle.trans hn⟩
    | written hw hdeg =>
      obtain ⟨P, hP, hle⟩ := hdeg.reads i
      have L := Interpretation.lawful_polynomial x i
      exact ⟨P, Pool.Means.reads (hw.means L hP), hle.trans hn⟩
  choose P hP hdeg using along
  exact ⟨P, hP, hdeg⟩

end Pool.HasDegree

/-- Central differences of an expression of degree two at most are the values of its compiled
gradient, at all points and with all distances. -/
theorem central_differences_exact (H : p.HasDegree h dim n) (hn : n ≤ 2) :
    ∃ f, (Build.function dim (.expression h)).run p = (.ok f, p) ∧
      ∀ {q}, p.Leads q → ∃ g r, (Build.compiledGradient dim (.expression h)).run q = (.ok g, r) ∧
        ∀ {x : Array ℚ} {eps : ℚ}, x.size = dim → 0 < eps → ∃ v : Array ℚ,
          g.call (.ofVector (x.map some)) = .ok (v.map some) ∧
          Tensor.centralDifferences? f.call (.ofVector (x.map some)) (some eps) =
            .ok (.ofVector (v.map some)) := by
  obtain ⟨x, rfl⟩ : ∃ x : Array ℚ, x.size = dim := ⟨.replicate dim 0, Array.size_replicate⟩
  obtain ⟨P, hP⟩ := H.quadratic hn
  have hp := H.reached
  obtain ⟨f, hf, _⟩ := Build.run_function (u := .expression h) rfl hp.wf (hP.reads 0).eval_zero
  rw [Array.size_map] at hf
  refine ⟨f, hf, fun {q} hq => ?_⟩
  have hle := hq.le hp.wf
  obtain ⟨ds, r, hds, _⟩ := Build.run_gradient (hp.leads hq).wf ((hP.reads 0).names.mono hle)
    ((hP.mono hle).reads 0).not_stepped x.size
  obtain ⟨g, hg, _⟩ := (hP.mono hle).gradient (hp.leads hq) hds
  refine ⟨g, r, hg, fun {y eps} hy heps => ?_⟩
  rw [← hy] at H hf hds hg
  obtain ⟨Q, hQ⟩ := H.quadratic hn
  obtain ⟨g', hg', hx⟩ := (hQ.mono hle).gradient (hp.leads hq) hds
  cases hg.symm.trans hg'
  exact ⟨_, hx, hQ.differences hp.wf hf heps.ne'⟩

end

/-- The product of two coordinates. -/
theorem central_differences_exact_product :
    ∃ (p q : Pool PartialRational) (h : Handle) (f : CompiledFunction PartialRational)
      (g : CompiledGradient PartialRational) (v : Array ℚ),
      Written p (.expression h) (.binary .mul (.var 0) (.var 1)) ∧
      (Build.function 2 (.expression h)).run p = (.ok f, p) ∧
      (Build.compiledGradient 2 (.expression h)).run p = (.ok g, q) ∧
      g.call (.ofVector #[some 3, some 5]) = .ok (v.map some) ∧
      Tensor.centralDifferences? f.call (.ofVector #[some 3, some 5]) (some (1 / 2)) =
        .ok (.ofVector (v.map some)) := by
  have hx := Written.var (α := PartialRational) .empty 0
  have hy := Written.var hx.valid.1 1
  have hw := (hx.later (Pool.Leads.rfl.call (.var 1) trivial)).binary hy .mul
  have hdeg : Term.HasDegree 2 (.binary .mul (.var 0) (.var 1)) 2 :=
    .mul (.var Nat.two_pos) (.var Nat.one_lt_two)
  obtain ⟨f, hf, H⟩ := central_differences_exact (.written hw hdeg) le_rfl
  obtain ⟨g, q, hg, hvalues⟩ := H .rfl
  have heps : (0 : ℚ) < 1 / 2 := by norm_num
  obtain ⟨v, hv, hdifferences⟩ := hvalues (x := #[3, 5]) rfl heps
  exact ⟨_, q, _, f, g, v, hw, hf, hg, by simpa using hv, by simpa using hdifferences⟩

end Downhill
