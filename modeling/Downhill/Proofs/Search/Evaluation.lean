import Downhill.Proofs.Scalar.Double
import Downhill.Search.Improvement
import Downhill.Search.LineSearch

/-!
# What a search computes

Whatever a search does with an objective that can be evaluated everywhere succeeds: points of one
dimension are combined, a coefficient is taken only where there is one, and the tracker divides by
no zero. What remains is the candidates, each with the value at its point (`Candidate.At`). Settings
pass validation only by all of their tests (`LineSearchSettings.validate_iff`).
-/

namespace Downhill

theorem ok_bind {x : Except ε β} {k : β → Except ε γ} (H : x = .ok b) : (x >>= k) = k b := by
  rw [H]
  rfl

theorem mapError_ok_bind {x : Except ε β} {e : ε → δ} {k : β → Except δ γ} (H : x = .ok b) :
    (x.mapError e >>= k) = k b := by
  rw [H]
  rfl

theorem mem_toOption {x : Except ε β} : b ∈ x.toOption ↔ x = .ok b := by
  cases x with
  | error => exact iff_of_false (Option.not_mem_none b) (by simp)
  | ok => exact Option.mem_some.trans ⟨congrArg Except.ok, Except.ok.inj⟩

/-- What is ok has passed the test. -/
theorem ite_error_eq_ok_iff {c : Prop} [Decidable c] {e : ε} {x : Except ε β} :
    (if c then .error e else x) = .ok b ↔ ¬c ∧ x = .ok b := by
  split
  next hc => exact iff_of_false nofun fun H => H.1 hc
  next hc => exact (and_iff_right hc).symm

/-! ## Scalars -/

/-- Only a zero has an absolute value that is zero. -/
def Scalar.ZeroAbs (α : Type) [Scalar α] : Prop :=
  ∀ v : α, Scalar.eq (Scalar.abs v) (Scalar.nat 0) = true → Scalar.eq v (Scalar.nat 0) = true

theorem Double.zeroAbs : Scalar.ZeroAbs Float := fun _ => Double.eq_zero_of_abs

open scoped Scalar

variable {α : Type} [Scalar α]

theorem Scalar.quotient?_eq_ok {a b : α} (H : ¬Scalar.eq b (Scalar.nat 0) = true) :
    Scalar.quotient? a b = .ok (a / b) := if_neg H

theorem ImprovementTracker.isImprovement_ok (hz : Scalar.ZeroAbs α) (t : ImprovementTracker α)
    (u v : α) : ∃ b, t.isImprovement u v = .ok b := by
  rw [isImprovement]
  split
  · exact ⟨_, rfl⟩
  split
  · exact ⟨_, rfl⟩
  · rename_i hu
    exact ⟨_, ok_bind (Scalar.quotient?_eq_ok (mt (hz u) hu))⟩

theorem ImprovementTracker.update_ok (hz : Scalar.ZeroAbs α) (t : ImprovementTracker α) (u v : α) :
    ∃ r, t.update u v = .ok r := by
  obtain ⟨b, hb⟩ := t.isImprovement_ok hz u v
  rw [update, ok_bind hb]
  cases b with
  | true => exact ⟨_, rfl⟩
  | false => exact ⟨_, rfl⟩

/-! ## Settings -/

/-- The tests that settings pass. -/
theorem DescentSettings.validate_iff {s t : DescentSettings α} : s.validate = .ok t ↔
    0 ≤ s.maxSteps ∧ ¬Scalar.le s.stepFactor (Scalar.nat 0) = true ∧ 1 ≤ s.patience ∧ s = t := by
  rw [validate]
  simp only [ite_error_eq_ok_iff, Int.not_lt, Except.ok.injEq]

theorem LineSearchSettings.validate_iff {s t : LineSearchSettings α} : s.validate = .ok t ↔
    s.toDescentSettings.validate = .ok s.toDescentSettings ∧ Scalar.isFraction s.alpha = true ∧
      Scalar.isFraction s.beta = true ∧ 1 ≤ s.maxTrials ∧
      ¬Scalar.lt s.normBound (Scalar.nat 0) = true ∧ s = t := by
  cases hd : s.toDescentSettings.validate with
  | error e => exact iff_of_false (by rw [validate, hd]; nofun) fun H => nomatch H.1
  | ok d =>
    have hdescent : s.toDescentSettings = d := (DescentSettings.validate_iff.mp hd).2.2.2
    -- Each test throws, or goes on to the next one.
    have htests : s.validate = if (!Scalar.isFraction s.alpha) = true then .error .alphaOutside
        else if (!Scalar.isFraction s.beta) = true then .error .betaOutside
        else if s.maxTrials < 1 then .error .tooFewTrials
        else if Scalar.lt s.normBound (Scalar.nat 0) = true then .error .negativeNorm
        else .ok s := by
      rw [validate, hd]
      rfl
    rw [htests, hdescent, and_iff_right rfl]
    simp only [ite_error_eq_ok_iff, Int.not_lt, Except.ok.injEq, Bool.not_eq_true',
      Bool.not_eq_false]

/-! ## Points -/

namespace Point

variable {a b x d : Point α} {u v : α}

theorem combine?_ok (H : a.size = b.size) (u v : α) :
    ∃ c, a.combine? b u v = .ok c ∧ c.size = a.size :=
  ⟨_, if_pos H, by rw [Array.size_zipWith, H, Nat.min_self]⟩

theorem size_along (H : d.size = x.size) (t : α) : (x.along d t).size = x.size := by
  rw [along, Array.size_zipWith, H, Nat.min_self]

theorem size_flip (a : Point α) : a.flip.size = a.size := Array.size_map ..

/-- There is a coefficient unless the old gradient is zero. -/
theorem polakRibiere?_eq (H : a.size = b.size) : polakRibiere? a b =
    .ok (if Scalar.eq (b.dot b) (Scalar.nat 0) then none
      else some (a.dot (a.zipWith (· - ·) b) / b.dot b)) := by
  rw [polakRibiere?]
  split
  · rfl
  · rename_i hb
    have hminus : a.minus? b = .ok (a.zipWith (· - ·) b) := if_pos H
    have hsize : a.size = (a.zipWith (· - ·) b).size := by rw [Array.size_zipWith, H, Nat.min_self]
    have hdot : a.dot? (a.zipWith (· - ·) b) = .ok (a.dot (a.zipWith (· - ·) b)) := if_pos hsize
    rw [ok_bind hminus, ok_bind hdot, mapError_ok_bind (Scalar.quotient?_eq_ok hb)]
    rfl

theorem polakRibiere?_ok (H : a.size = b.size) : ∃ c, polakRibiere? a b = .ok c :=
  ⟨_, polakRibiere?_eq H⟩

end Point

/-! ## Objectives that can be evaluated -/

/-- A function and its gradient with results at all points of a dimension. -/
structure Evaluable (f : Point α → Except ε α) (g : Point α → Except ε (Point α)) (dim : Nat) :
    Prop where
  value : ∀ {x : Point α}, x.size = dim → ∃ v, f x = .ok v
  gradient : ∀ {x : Point α}, x.size = dim → ∃ d, g x = .ok d ∧ d.size = dim

/-- A candidate with the value at its point. -/
structure Candidate.At (f : Point α → Except ε α) (dim : Nat) (c : Candidate α) : Prop where
  value : f c.point = .ok c.value
  size : c.point.size = dim

namespace LineSearch

variable {f : Point α → Except ExpressionError α} {g : Point α → Except ExpressionError (Point α)}
  {dim : Nat} {x d : Point α}

theorem backtrack_ok (E : Evaluable f g dim) (o : LineSearch α) (hx : x.size = dim)
    (hd : d.size = dim) (fx slope : α) (left : Nat) (step : α) (trials : Nat) :
    ∃ r, o.backtrack f x d fx slope left step trials = .ok r ∧ r.candidate.At f dim := by
  have hp (t : α) : (x.along d t).size = dim := (Point.size_along (hd.trans hx.symm) t).trans hx
  induction left generalizing step trials with
  | zero =>
    obtain ⟨v, hv⟩ := E.value (hp step)
    rw [backtrack, ok_bind hv]
    split
    · exact ⟨_, rfl, hv, hp step⟩
    · exact ⟨_, rfl, hv, hp step⟩
  | succ left ih =>
    obtain ⟨v, hv⟩ := E.value (hp step)
    rw [backtrack, ok_bind hv]
    split
    · exact ⟨_, rfl, hv, hp step⟩
    · exact ih _ _

theorem search_ok (E : Evaluable f g dim) {o : LineSearch α} (ho : o.validate = .ok ())
    (hx : x.size = dim) (hd : d.size = dim) :
    ∃ r, o.search f g x d = .ok r ∧ r.candidate.At f dim := by
  obtain ⟨fx, hfx⟩ := E.value hx
  obtain ⟨gx, hgx, hsize⟩ := E.gradient hx
  have hdot : gx.dot? d = .ok (gx.dot d) := if_pos (hsize.trans hd.symm)
  obtain ⟨r, hr, hat⟩ :=
    backtrack_ok E o hx hd fx (gx.dot d) (o.maxTrials.toNat - 1) (Scalar.nat 1) 1
  refine ⟨r, ?_, hat⟩
  rw [search, ok_bind ho, mapError_ok_bind hfx, mapError_ok_bind hgx, mapError_ok_bind hdot, hr]
  rfl

end LineSearch

end Downhill
