import Downhill.Proofs.Real.Calculus
import Downhill.Proofs.Real.Derivatives

/-!
# Derivatives of written terms

An expression that was written without the one operator that has no rule has a derivative by each
variable, and the node that is returned evaluates to the derivative of the term, in any reached pool
and wherever the term is differentiable (`differentiateBy_slope`).
-/

namespace Downhill

open PartialReal

/-! ## Terms that have a rule everywhere -/

def Term.Ruled : Term α → Prop
  | num _ | var _ => True
  | unary op t => op ≠ .unitStep ∧ t.Ruled
  | binary _ s t => s.Ruled ∧ t.Ruled

/-- Only what has rules is read. -/
def Interpretation.ruled : Interpretation α Unit where
  number _ _ := True
  var _ _ := True
  unary op _ _ := op.rule? ≠ none
  binary _ _ _ _ := True
  le _ _ := True

theorem Interpretation.lawful_ruled [Scalar α] : (ruled : Interpretation α Unit).Lawful where
  refl := trivial
  trans _ _ := trivial
  unary_mono H _ := ⟨(), H, trivial⟩
  binary_mono _ _ _ := ⟨(), trivial, trivial⟩
  equal _ _ := ⟨(), trivial, trivial⟩
  unary_number _ _ := ⟨(), trivial, trivial⟩
  binary_number _ _ _ := ⟨(), trivial, trivial⟩
  neg_neg _ _ := trivial
  zero_add _ _ := trivial
  add_zero _ _ := trivial
  sub_zero _ _ := trivial
  zero_sub _ _ := ⟨(), UnaryOp.rule?_ne_none.mpr nofun, trivial⟩
  zero_mul _ _ := ⟨(), trivial, trivial⟩
  mul_zero _ _ := ⟨(), trivial, trivial⟩
  one_mul _ _ := trivial
  mul_one _ _ := trivial
  div_one _ _ := trivial
  zero_div _ _ := ⟨(), trivial, trivial⟩
  pow_one _ _ := trivial
  pow_zero _ _ := ⟨(), trivial, trivial⟩

theorem Term.Ruled.reads {t : Term α} (H : t.Ruled) : t.Reads .ruled () := by
  induction t with
  | num => exact .num trivial
  | var => exact .var trivial
  | unary op t ih => exact .unary (ih H.2) (UnaryOp.rule?_ne_none.mpr H.1)
  | binary op s t ihs iht => exact .binary (ihs H.1) (iht H.2) trivial

/-- Below an expression that was written with rules only, every operator has a rule. -/
theorem Written.rule?_ne_none [Scalar α] {p : Pool α} {t : Term α} (H : Written p (.expression h) t)
    (ht : t.Ruled) (hk : p.Reaches h k) (hn : p.Holds k (.unary op a)) : op.rule? ≠ none := by
  obtain ⟨_, hh, _⟩ := H.means Interpretation.lawful_ruled ht.reads
  obtain ⟨_, hr⟩ := hh.reaches hk
  obtain ⟨_, _, hrule⟩ := hr.of_unary hn
  exact hrule

/-! ## Correctness -/

variable {p : Pool PartialReal} {h : Handle} {t : Term PartialReal}

/-- What the derivative of an expression evaluates to is the slope of the term it was written as.
The term has the value of a function there, and the slope is the derivative of that function. -/
theorem differentiateBy_slope (H : Written p (.expression h) t) (ht : t.Ruled) (i : Nat) :
    ∃ d q, (Build.differentiateBy h i).run p = (.ok d, q) ∧
      ∀ x j, t.Reads (.jet x i) j →
        t.Evaluates Defined (x.map some) (some (t.real fun k => x.getD k 0)) ∧
        HasDerivAt (fun s => t.real (Term.moved x i s)) j.slope (x.getD i 0) ∧
        ∃ f, (Build.function x.size (.expression d)).run q = (.ok f, q) ∧
          f.apply (x.map some) = .ok (some j.slope) := by
  obtain ⟨hp, hh⟩ := H.valid
  obtain ⟨d, q, hr, he, hd⟩ := Build.run_differentiate (i := i) hp.wf hh (H.rule?_ne_none ht)
  refine ⟨d, q, hr, ?_⟩
  intro x j hj
  have hvalue := hj.evaluates
  rw [hvalue.real_eq] at hvalue
  refine ⟨hvalue, hj.touches.slope, ?_⟩
  obtain ⟨k, hk, hle⟩ := H.means (Interpretation.lawful_jet x i) hj
  have hslope := (he.sound hp.wf hp.sound).slopeAt hd x k (hk.mono (he.le hp.wf))
  rw [← hle.slope] at hslope
  obtain ⟨f, hf, hx⟩ := Build.run_function (u := .expression d) rfl (he.wf hp.wf) hslope.evaluates
  rw [Array.size_map] at hf
  exact ⟨f, hf, hx⟩

theorem differentiateBy_slope_log :
    ∃ (p : Pool PartialReal) (h d : Handle) (q : Pool PartialReal),
      Written p (.expression h) (.unary .log (.var 0)) ∧
      (Build.differentiateBy h 0).run p = (.ok d, q) ∧
      ∃ f, (Build.function 1 (.expression d)).run q = (.ok f, q) ∧
        f.apply #[some 4] = .ok (some (1 / 4)) := by
  have hw := (Written.var (α := PartialReal) .empty 0).unary .log
  obtain ⟨d, q, hr, H⟩ := differentiateBy_slope hw ⟨nofun, trivial⟩ 0
  have hj : Term.Reads (.jet #[4] 0) (.unary .log (.var 0))
      ((Jet.coordinate 4 true).unary .log) := .unary (.var ⟨4, rfl, rfl⟩) ⟨four_pos, rfl⟩
  obtain ⟨_, _, f, hf, hx⟩ := H #[4] _ hj
  have hslope : ((Jet.coordinate 4 true).unary .log).slope = 1 / 4 := by
    simp [Jet.coordinate, UnaryOp.slope]
  rw [hslope] at hx
  exact ⟨_, _, d, q, hw, hr, f, hf, by simpa using hx⟩

end Downhill
