import Mathlib
import Downhill.Proofs.Real.Jet

/-!
# Slopes are derivatives

A term is a function of each of its variables. Where it is read as a jet, the jet has its value and
its derivative in the sense of analysis (`Term.Reads.touches`). The function is the one that `Real`
extends beyond the domains of the operators; where the term has a value, that is the value
(`Term.Evaluates.real_eq`).
-/

namespace Downhill

noncomputable section

/-! ## Operators -/

namespace UnaryOp

theorem one_add_exp_ne_zero (a : ℝ) : 1 + Real.exp (-a) ≠ 0 :=
  (add_pos one_pos (Real.exp_pos _)).ne'

theorem hasDerivAt_one_add_exp (a : ℝ) :
    HasDerivAt (fun s => 1 + Real.exp (-s)) (-Real.exp (-a)) a := by
  have H := ((hasDerivAt_id a).neg.exp).const_add 1
  exact H.congr_deriv (by simp)

theorem hasDerivAt_ramp {a : ℝ} (H : a ≠ 0) : HasDerivAt ramp.real (ramp.slope a) a := by
  rcases lt_or_gt_of_ne H with ha | ha
  · rw [slope, if_neg ha.not_gt]
    refine (hasDerivAt_const a 0).congr_of_eventuallyEq ?_
    filter_upwards [eventually_lt_nhds ha] with s hs
    exact if_neg hs.not_gt
  · rw [slope, if_pos ha]
    refine (hasDerivAt_id a).congr_of_eventuallyEq ?_
    filter_upwards [eventually_gt_nhds ha] with s hs
    exact if_pos hs

theorem hasDerivAt {op : UnaryOp} {a : ℝ} (H : op.Smooth a) :
    HasDerivAt op.real (op.slope a) a := by
  cases op with
  | neg => exact hasDerivAt_neg a
  | sqr => exact ((hasDerivAt_id a).mul (hasDerivAt_id a)).congr_deriv (by simp [slope, two_mul])
  | sqrt => exact Real.hasDerivAt_sqrt H.ne'
  | exp => exact Real.hasDerivAt_exp a
  | log => exact (Real.hasDerivAt_log H.ne').congr_deriv (one_div a).symm
  | sin => exact Real.hasDerivAt_sin a
  | cos => exact Real.hasDerivAt_cos a
  | tan => exact Real.hasDerivAt_tan H
  | asin => exact Real.hasDerivAt_arcsin H.1.ne' H.2.ne
  | acos => exact Real.hasDerivAt_arccos H.1.ne' H.2.ne
  | atan => exact Real.hasDerivAt_arctan a
  | sigmoid =>
    have hr := one_add_exp_ne_zero a
    refine ((hasDerivAt_const a 1).div (hasDerivAt_one_add_exp a) hr).congr_deriv ?_
    simp only [slope, real]
    field_simp
    ring
  | logSigmoid =>
    have hr := one_add_exp_ne_zero a
    refine ((hasDerivAt_one_add_exp a).log hr).neg.congr_deriv ?_
    simp only [slope, real]
    field_simp
    ring
  | ramp => exact hasDerivAt_ramp H
  | unitStep => exact H.elim

end UnaryOp

/-! ## Functions of one variable -/

/-- A jet at a place of a function of the reals. -/
structure Jet.Touches (j : Jet) (f : ℝ → ℝ) (s : ℝ) : Prop where
  value : f s = j.value
  slope : HasDerivAt f j.slope s
  fixed : j.fixed = true → ∀ r, f r = j.value

namespace Jet.Touches

variable {j k : Jet} {f g : ℝ → ℝ} {s : ℝ}

theorem unary (H : j.Touches f s) (hs : op.Smooth j.value) :
    (j.unary op).Touches (fun r => op.real (f r)) s := by
  refine ⟨congrArg op.real H.value, ?_, fun h r => congrArg op.real (H.fixed h r)⟩
  have hop := UnaryOp.hasDerivAt (H.value.symm ▸ hs)
  exact (hop.comp s H.slope).congr_deriv (by rw [H.value, slope_unary])

theorem hasDerivAt_pow (H : j.Touches f s) (H' : k.Touches g s) (hs : Smooth .pow j k) :
    HasDerivAt (fun r => f r ^ g r) (tangent .pow j k) s := by
  rw [Smooth] at hs
  rw [tangent]
  cases hf : k.fixed with
  | true =>
    rw [hf, if_pos rfl] at hs
    have hbase : f s ≠ 0 ∨ 1 ≤ k.value := by
      rw [H.value]
      rcases hs with ha | ⟨_, hb⟩ | ⟨ha, _⟩
      · exact .inl ha.ne'
      · exact .inr (sub_nonneg.mp hb)
      · exact .inl ha.ne
    have hg : g = fun _ => k.value := funext (H'.fixed hf)
    rw [if_pos rfl, hg]
    exact (H.slope.rpow_const hbase).congr_deriv (by rw [H.value]; ring)
  | false =>
    rw [hf, if_neg Bool.false_ne_true] at hs
    rw [if_neg Bool.false_ne_true]
    refine (H.slope.rpow H'.slope (H.value.symm ▸ hs)).congr_deriv ?_
    rw [H.value, H'.value, Real.rpow_sub_one hs.ne']
    ring

theorem binary (H : j.Touches f s) (H' : k.Touches g s) (hs : Smooth op j k) :
    (j.binary op k).Touches (fun r => op.real (f r) (g r)) s := by
  refine ⟨congrArg₂ op.real H.value H'.value, ?_, ?_⟩
  · cases op with
    | add => exact H.slope.add H'.slope
    | sub => exact H.slope.sub H'.slope
    | mul => exact (H.slope.mul H'.slope).congr_deriv (by rw [H.value, H'.value]; rfl)
    | div =>
      refine (H.slope.div H'.slope (H'.value.symm ▸ hs)).congr_deriv ?_
      rw [H.value, H'.value]
      rfl
    | pow => exact hasDerivAt_pow H H' hs
  · intro h r
    obtain ⟨hj, hk⟩ := Bool.and_eq_true_iff.mp h
    exact congrArg₂ op.real (H.fixed hj r) (H'.fixed hk r)

end Jet.Touches

/-! ## Terms -/

namespace Term

/-- A term as a function of its variables. A number that is not there counts as zero. -/
def real (y : Nat → ℝ) : Term PartialReal → ℝ
  | num v => v.getD 0
  | var k => y k
  | unary op t => op.real (t.real y)
  | binary op s t => op.real (s.real y) (t.real y)

variable {x : Array ℝ} {i : Nat} {t : Term PartialReal}

/-- The coordinates of a point, one of them replaced. -/
def moved (x : Array ℝ) (i : Nat) (s : ℝ) (k : Nat) : ℝ := if k = i then s else x.getD k 0

theorem moved_self (x : Array ℝ) (i : Nat) : moved x i (x.getD i 0) = fun k => x.getD k 0 := by
  funext k
  rw [moved]
  split
  · rename_i hk; rw [hk]
  · rfl

/-- What is evaluated is the value of the function. -/
theorem Evaluates.real_eq {v : PartialReal}
    (H : t.Evaluates PartialReal.Defined (x.map some) v) :
    v = some (t.real fun k => x.getD k 0) := by
  induction H with
  | num hv =>
    obtain ⟨u, rfl⟩ := hv
    rfl
  | @var k _ hk =>
    rw [Array.getElem?_map] at hk
    obtain ⟨u, hu, rfl⟩ := Option.map_eq_some_iff.mp hk
    rw [real, Array.getD_eq_getD_getElem?, hu]
    rfl
  | unary _ hv ih =>
    rw [ih] at hv ⊢
    exact PartialReal.unary_of_defined hv
  | binary _ _ hv ihs iht =>
    rw [ihs, iht] at hv ⊢
    exact PartialReal.binary_of_defined hv

/-- What is read as a jet has a value. -/
theorem Reads.evaluates (H : t.Reads (.jet x i) j) :
    t.Evaluates PartialReal.Defined (x.map some) (some j.value) := by
  induction H with
  | num hj =>
    obtain ⟨u, rfl, rfl⟩ := hj
    exact .num ⟨u, rfl⟩
  | var hj =>
    obtain ⟨u, hu, rfl⟩ := hj
    exact .var ((Array.getElem?_map ..).trans (congrArg (Option.map some) hu)) ⟨u, rfl⟩
  | unary _ hk ih =>
    obtain ⟨hs, rfl⟩ := hk
    have he := PartialReal.unary_some hs.domain
    exact he ▸ .unary ih ⟨_, he⟩
  | binary _ _ hl ihj ihk =>
    obtain ⟨hs, rfl⟩ := hl
    have he := PartialReal.binary_some hs.domain
    exact he ▸ .binary ihj ihk ⟨_, he⟩

/-- The jet of a term is that of the function of `x[i]`. -/
theorem Reads.touches (H : t.Reads (.jet x i) j) :
    j.Touches (fun s => t.real (moved x i s)) (x.getD i 0) := by
  induction H with
  | num hj =>
    obtain ⟨u, rfl, rfl⟩ := hj
    exact ⟨rfl, hasDerivAt_const _ u, fun _ _ => rfl⟩
  | @var k _ hj =>
    obtain ⟨u, hu, rfl⟩ := hj
    have hx : x.getD k 0 = u := by rw [Array.getD_eq_getD_getElem?, hu]; rfl
    refine ⟨by rw [moved_self]; exact hx, ?_, nofun⟩
    by_cases hk : k = i
    · simpa [real, moved, Jet.coordinate, hk] using hasDerivAt_id' (x.getD i 0)
    · simpa [real, moved, Jet.coordinate, hk] using hasDerivAt_const (x.getD i 0) (x.getD k 0)
  | unary _ hj ih =>
    obtain ⟨hs, rfl⟩ := hj
    exact ih.unary hs
  | binary _ _ hj ihj ihk =>
    obtain ⟨hs, rfl⟩ := hj
    exact ihj.binary ihk hs

end Term

end

end Downhill
