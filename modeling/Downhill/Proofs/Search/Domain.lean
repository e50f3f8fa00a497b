import Downhill.Proofs.Scalar.Order
import Downhill.Proofs.Search.Backtracking
import Downhill.Proofs.Search.Outcomes

/-!
# Searching outside of the domain

Armijo's test is one comparison. A trial with value NaN does not pass, and neither does one with an
infinite value, unless the value is minus infinity, or infinity is what it is compared with
(`LineSearch.sufficientAt_cases`). So a search backs away from points outside the domain as long as
it meets no infinity that passes, and then the strategies go on (`backtracking_backs_away`). At
minus infinity it stops (`search_stops_at_pole`).
-/

namespace Downhill

open scoped Scalar

variable {α : Type} [Scalar α]

/-! ## The first trial that passes -/

namespace LineSearch

variable {f : Point α → Except ExpressionError α} {g : Point α → Except ExpressionError (Point α)}
  {dim : ℕ} {o : LineSearch α} {x d gx : Point α} {fx slope : α} {left j k : ℕ}
  {r : LineSearchResult α}

/-- The step of a trial, counted from zero. -/
def stepAt (o : LineSearch α) (j : ℕ) : α := (· * o.beta)^[j] (Scalar.nat 1)

/-- What the value of a trial is compared with. -/
def bound (o : LineSearch α) (fx slope step : α) : α := fx + o.alpha * step * slope

/-- A search stops no later than at a trial that falls enough. -/
theorem Ends.stops (H : o.Ends f x d fx slope left (Scalar.nat 1) 0 k r) (hj : j ≤ left)
    (hfalls : o.Falls f x d fx slope (o.stepAt j)) : r.sufficient = true ∧ k ≤ j := by
  have hk : k ≤ j := Nat.le_of_not_lt fun hlt => H.failed j hlt hfalls
  refine ⟨Bool.of_not_eq_false fun hr => ?_, hk⟩
  have hlast := H.exhausted hr
  obtain rfl : j = k := by omega
  have hs := H.sufficient.mpr (H.step ▸ hfalls)
  exact Bool.false_ne_true (hr.symm.trans hs)

theorem search_ends (E : Evaluable f g dim) (ho : o.validate = .ok ()) (hx : x.size = dim)
    (hd : d.size = dim) (hfx : f x = .ok fx) (hgx : g x = .ok gx) :
    ∃ r k, o.search f g x d = .ok r ∧
      o.Ends f x d fx (gx.dot d) (o.maxTrials.toNat - 1) (Scalar.nat 1) 0 k r := by
  obtain ⟨gx', hgx', hsize⟩ := E.gradient hx
  cases hgx.symm.trans hgx'
  have hdot : gx.dot? d = .ok (gx.dot d) := if_pos (hsize.trans hd.symm)
  obtain ⟨r, k, hr, H⟩ :=
    backtrack_ends E o hx hd fx (gx.dot d) (o.maxTrials.toNat - 1) (Scalar.nat 1) 0
  refine ⟨r, k, ?_, H⟩
  rw [search, ok_bind ho, mapError_ok_bind hfx, mapError_ok_bind hgx, mapError_ok_bind hdot, hr]
  rfl

end LineSearch

/-! ## Strategies that go on -/

section

variable {f : Point α → Except ExpressionError α} {g : Point α → Except ExpressionError (Point α)}
  {dim k : ℕ} {settings : LineSearchSettings α} {found : LineSearchResult α} {d : Point α}

/-- An iteration whose line search ends with a finite value does not fail. -/
theorem BacktrackingDescent.step_ok {s : State α} (hz : Scalar.ZeroAbs α)
    (hd : g s.current.point = .ok d)
    (hfound : (LineSearch.ofSettings settings).search f g s.current.point d.flip = .ok found)
    (hfinite : Scalar.isFinite found.candidate.value = true) :
    ∃ t, step settings f g k s = .ok t := by
  obtain ⟨⟨exhausted, tracker⟩, hu⟩ := s.tracker.update_ok hz s.current.value found.candidate.value
  rw [step, mapError_ok_bind hd]
  dsimp only
  split
  · exact ⟨_, rfl⟩
  rw [ok_bind hfound, hfinite, Bool.not_true, if_neg Bool.false_ne_true, mapError_ok_bind hu]
  cases exhausted with
  | true => exact ⟨_, rfl⟩
  | false => exact ⟨_, rfl⟩

theorem ConjugateGradient.step_ok {s : State α} (hz : Scalar.ZeroAbs α) (E : Evaluable f g dim)
    (hs : s.Sound f g dim)
    (hfound : (LineSearch.ofSettings settings).search f g s.current.point s.direction = .ok found)
    (hat : found.candidate.At f dim) (hfinite : Scalar.isFinite found.candidate.value = true) :
    ∃ t, step settings f g k s = .ok t := by
  obtain ⟨d, hd, hsize⟩ := E.gradient hat.size
  obtain ⟨c, hc⟩ := Point.polakRibiere?_ok (hsize.trans hs.gradient_size.symm)
  obtain ⟨direction, hdirection, _⟩ := Point.combine?_ok (hs.direction_size.trans hsize.symm)
    (-Scalar.nat 1) (weight c)
  obtain ⟨⟨exhausted, tracker⟩, hu⟩ := s.tracker.update_ok hz s.current.value found.candidate.value
  rw [step, ok_bind hfound]
  dsimp only
  rw [hfinite, Bool.not_true, if_neg Bool.false_ne_true, mapError_ok_bind hd, mapError_ok_bind hc,
    mapError_ok_bind hdirection, mapError_ok_bind hu]
  cases exhausted with
  | true => exact ⟨_, rfl⟩
  | false =>
    dsimp only
    rw [if_neg Bool.false_ne_true]
    split
    · exact ⟨_, rfl⟩
    · exact ⟨_, rfl⟩

end

/-! ## Trials at infinity -/

section

variable {f : Point Float → Except ExpressionError Float}
  {g : Point Float → Except ExpressionError (Point Float)} {dim : ℕ}

namespace LineSearch

variable {o : LineSearch Float} {x d gx : Point Float} {fx slope step v : Float}

/-- A trial within the budget falls enough, and no trial up to it can pass because of an infinity:
no value is minus infinity, and none is compared with infinity. -/
structure WayBack (o : LineSearch Float) (f : Point Float → Except ExpressionError Float)
    (x d : Point Float) (fx slope : Float) (j : ℕ) : Prop where
  lt : j < o.maxTrials
  falls : o.Falls f x d fx slope (o.stepAt j)
  value : ∀ i ≤ j, ∀ v, f (x.along d (o.stepAt i)) = .ok v → ¬Double.IsBottom v
  bound : ∀ i ≤ j, ¬Double.IsTop (o.bound fx slope (o.stepAt i))

theorem sufficientAt_cases (H : o.sufficientAt fx slope step v = true) :
    Scalar.isFinite v = true ∨ Double.IsBottom v ∨
      Double.IsTop v ∧ Double.IsTop (o.bound fx slope step) :=
  Double.le_cases H

theorem search_back (E : Evaluable f g dim) (ho : o.validate = .ok ()) (hx : x.size = dim)
    (hd : d.size = dim) (hfx : f x = .ok fx) (hgx : g x = .ok gx) :
    ∃ r, o.search f g x d = .ok r ∧ r.candidate.At f dim ∧
      (r.sufficient = true → Scalar.isFinite r.candidate.value = true ∨
        Double.IsBottom r.candidate.value ∨
        Double.IsTop r.candidate.value ∧ Double.IsTop (o.bound fx (gx.dot d) r.step)) ∧
      ∀ j, o.WayBack f x d fx (gx.dot d) j →
        r.sufficient = true ∧ r.trials ≤ j + 1 ∧ Scalar.isFinite r.candidate.value = true := by
  obtain ⟨r, k, hr, H⟩ := search_ends E ho hx hd hfx hgx
  have hsize : r.candidate.point.size = dim := by
    rw [H.point]
    exact (Point.size_along (hd.trans hx.symm) _).trans hx
  have hcases (hs : r.sufficient = true) : Scalar.isFinite r.candidate.value = true ∨
      Double.IsBottom r.candidate.value ∨
      Double.IsTop r.candidate.value ∧ Double.IsTop (o.bound fx (gx.dot d) r.step) := by
    obtain ⟨v, hv, hpass⟩ := H.sufficient.mp hs
    cases (H.point ▸ H.value).symm.trans hv
    exact sufficientAt_cases hpass
  refine ⟨r, hr, ⟨H.value, hsize⟩, hcases, fun j hj => ?_⟩
  have hlt := hj.lt
  obtain ⟨hs, hk⟩ := H.stops (j := j) (by omega) hj.falls
  have htrials := H.trials
  refine ⟨hs, by omega, ?_⟩
  rcases hcases hs with hfinite | hbottom | ⟨_, htop⟩
  · exact hfinite
  · refine absurd hbottom (hj.value k hk _ ?_)
    rw [stepAt, ← H.step, ← H.point]
    exact H.value
  · rw [H.step] at htop
    exact absurd htop (hj.bound k hk)

end LineSearch

end

/-! ## Two objectives with a border -/

/-- Four times the root of the coordinate, which is NaN below zero. -/
def rootObjective (y : Point Float) : Except ExpressionError Float :=
  .ok (4 * Float.sqrt (y.getD 0 0))

def rootGradient (y : Point Float) : Except ExpressionError (Point Float) :=
  .ok (y.map (2 / Float.sqrt ·))

theorem evaluable_root : Evaluable rootObjective rootGradient 1 :=
  ⟨fun _ => ⟨_, rfl⟩, fun h => ⟨_, rfl, by simpa using h⟩⟩

/-- From one against the gradient, four trials are NaN before the first that passes. -/
theorem wayBack_root : (LineSearch.ofSettings ({} : LineSearchSettings Float)).WayBack rootObjective
    #[1] (Point.flip #[2 / Float.sqrt 1]) (4 * Float.sqrt 1)
    (Point.dot #[2 / Float.sqrt 1] (Point.flip #[2 / Float.sqrt 1])) 4 where
  lt := by decide
  falls := ⟨_, rfl, by decide +kernel⟩
  value := by
    have hvalues : ∀ i ≤ 4, ¬Double.IsBottom (4 * Float.sqrt ((Point.along #[1]
        (Point.flip #[2 / Float.sqrt 1])
        ((LineSearch.ofSettings ({} : LineSearchSettings Float)).stepAt i)).getD 0 0)) := by
      decide +kernel
    rintro i hi v ⟨⟩
    exact hvalues i hi
  bound := by decide +kernel

/-- In doubles a trial that passes Armijo's test is finite, or it passes because of an infinity.
Unless there is one of those before, a search stops no later than at a trial that passes, with a
finite value, and then the strategies do not fail. -/
theorem backtracking_backs_away {f : Point Float → Except ExpressionError Float}
    {g : Point Float → Except ExpressionError (Point Float)} {dim : ℕ} (E : Evaluable f g dim) :
    (∀ {o : LineSearch Float} {x d fx gx}, o.validate = .ok () → x.size = dim → d.size = dim →
      f x = .ok fx → g x = .ok gx → ∃ r, o.search f g x d = .ok r ∧
        (r.sufficient = true → Scalar.isFinite r.candidate.value = true ∨
          Double.IsBottom r.candidate.value ∨
          Double.IsTop r.candidate.value ∧ Double.IsTop (o.bound fx (gx.dot d) r.step)) ∧
        ∀ j, o.WayBack f x d fx (gx.dot d) j →
          r.sufficient = true ∧ r.trials ≤ j + 1 ∧ Scalar.isFinite r.candidate.value = true) ∧
    (∀ {settings : LineSearchSettings Float} {s : BacktrackingDescent.State Float} {d j} k,
      settings.validate = .ok settings → s.current.Sound f dim → g s.current.point = .ok d →
      (LineSearch.ofSettings settings).WayBack f s.current.point d.flip s.current.value
        (d.dot d.flip) j → ∃ t, BacktrackingDescent.step settings f g k s = .ok t) ∧
    ∀ {settings : LineSearchSettings Float} {s : ConjugateGradient.State Float} {j} k,
      settings.validate = .ok settings → s.Sound f g dim →
      (LineSearch.ofSettings settings).WayBack f s.current.point s.direction s.current.value
        (s.gradient.dot s.direction) j → ∃ t, ConjugateGradient.step settings f g k s = .ok t := by
  refine ⟨fun ho hx hd hfx hgx => ?_, fun {settings s d j} k hm hs hd hback => ?_,
    fun {settings s j} k hm hs hback => ?_⟩
  · obtain ⟨r, hr, _, H⟩ := LineSearch.search_back E ho hx hd hfx hgx
    exact ⟨r, hr, H⟩
  · obtain ⟨d', hd', hsize⟩ := E.gradient hs.size
    cases hd.symm.trans hd'
    obtain ⟨found, hfound, _, _, H⟩ := LineSearch.search_back E
      (LineSearchSettings.validate_ok hm).2 hs.size ((Point.size_flip d).trans hsize) hs.value hd
    exact BacktrackingDescent.step_ok Double.zeroAbs hd hfound (H j hback).2.2
  · obtain ⟨found, hfound, hat, _, H⟩ := LineSearch.search_back E
      (LineSearchSettings.validate_ok hm).2 hs.current.size hs.direction_size hs.current.value
      hs.gradient
    exact ConjugateGradient.step_ok Double.zeroAbs E hs hfound hat (H j hback).2.2

theorem backtracking_backs_away_root :
    let o := LineSearch.ofSettings ({} : LineSearchSettings Float)
    let start : Candidate Float := ⟨4 * Float.sqrt 1, #[1]⟩
    (∃ r, o.search rootObjective rootGradient #[1] (Point.flip #[2 / Float.sqrt 1]) = .ok r ∧
      r.sufficient = true ∧ r.trials ≤ 5 ∧ Scalar.isFinite r.candidate.value = true) ∧
    (∃ t, BacktrackingDescent.step {} rootObjective rootGradient 1 ⟨start, .ofSettings {}⟩ =
      .ok t) ∧
    ∃ t, ConjugateGradient.step {} rootObjective rootGradient 1
      ⟨start, #[2 / Float.sqrt 1], Point.flip #[2 / Float.sqrt 1], .ofSettings {}⟩ = .ok t := by
  obtain ⟨hsearch, hdescent, hconjugate⟩ := backtracking_backs_away evaluable_root
  have hm : ({} : LineSearchSettings Float).validate = .ok {} := rfl
  have hg : rootGradient #[1] = .ok #[2 / Float.sqrt 1] := by simp [rootGradient]
  have hs : (⟨4 * Float.sqrt 1, #[1]⟩ : Candidate Float).Sound rootObjective 1 :=
    ⟨⟨rfl, rfl⟩, by decide +kernel⟩
  have hsize : (Point.flip #[2 / Float.sqrt 1]).size = 1 := Point.size_flip _
  refine ⟨?_, hdescent 1 hm hs hg wayBack_root,
    hconjugate 1 hm ⟨hs, hg, rfl, hsize⟩ wayBack_root⟩
  obtain ⟨r, hr, _, H⟩ := hsearch (LineSearchSettings.validate_ok hm).2 rfl hsize rfl hg
  exact ⟨r, hr, H 4 wayBack_root⟩

/-- The negated reciprocal of the coordinate, with its derivative. -/
def poleObjective (y : Point Float) : Except ExpressionError Float := .ok (-1 / y.getD 0 0)

def poleGradient (y : Point Float) : Except ExpressionError (Point Float) :=
  .ok (y.map fun v => 1 / (v * v))

/-- From one towards zero the first trial is minus infinity and passes, though the second would pass
as well and is finite. So the iteration fails. -/
theorem search_stops_at_pole :
    let o := LineSearch.ofSettings ({} : LineSearchSettings Float)
    (∃ r, o.search poleObjective poleGradient #[1] #[-1] = .ok r ∧ r.sufficient = true ∧
      r.trials = 1 ∧ Double.IsBottom r.candidate.value) ∧
    (∃ v, poleObjective (Point.along #[1] #[-1] (o.stepAt 1)) = .ok v ∧ Scalar.isFinite v = true ∧
      Scalar.le v (o.bound (-1) (-1) (o.stepAt 1)) = true) ∧
    BacktrackingDescent.step {} poleObjective poleGradient 1 ⟨⟨-1, #[1]⟩, .ofSettings {}⟩ =
      .error (.noFinitePoint .backtrackingDescent 1) := by
  refine ⟨?_, ⟨_, rfl, by decide +kernel, by decide +kernel⟩, ?_⟩
  · have H : (((LineSearch.ofSettings ({} : LineSearchSettings Float)).search poleObjective
        poleGradient #[1] #[-1]).toOption.any fun r =>
          r.sufficient && r.trials == 1 && decide (Double.IsBottom r.candidate.value)) = true := by
      decide +kernel
    rcases hr : (LineSearch.ofSettings ({} : LineSearchSettings Float)).search poleObjective
      poleGradient #[1] #[-1] with e | r
    · rw [hr] at H
      cases H
    · rw [hr] at H
      obtain ⟨⟨hs, ht⟩, hv⟩ : (r.sufficient = true ∧ r.trials = 1) ∧
          Double.IsBottom r.candidate.value := by
        simpa [Except.toOption] using H
      exact ⟨r, rfl, hs, ht, hv⟩
  · have H : (match BacktrackingDescent.step {} poleObjective poleGradient 1
        ⟨⟨-1, #[1]⟩, .ofSettings {}⟩ with
      | .error (.noFinitePoint s k) => decide (s = .backtrackingDescent ∧ k = 1)
      | _ => false) = true := by decide +kernel
    split at H
    · rename_i s k hstep
      obtain ⟨rfl, rfl⟩ := of_decide_eq_true H
      exact hstep
    · cases H

end Downhill
