import Downhill.Proofs.Meaning.Execution
import Downhill.Proofs.Search.Evaluation
import Downhill.Proofs.Search.Following
import Downhill.Search.BacktrackingDescent
import Downhill.Search.ConjugateGradient
import Downhill.Search.GradientDescent

/-!
# Steps of the strategies

Where the objective can be evaluated, a step of any strategy ends the search for want of a finite
value, stops it, or goes on with a candidate whose value is finite and that of its point
(`SoundStep`): that is what is kept from iteration to iteration.
-/

namespace Downhill

open scoped Scalar

variable {α : Type} [Scalar α]

/-- A candidate with the value at its point, which is finite. -/
structure Candidate.Sound (f : Point α → Except ExpressionError α) (dim : Nat) (c : Candidate α) :
    Prop extends c.At f dim where
  finite : Scalar.isFinite c.value = true

/-- What iteration `k` of a search comes to whose states satisfy `P`. -/
inductive SoundStep {α σ : Type} [Scalar α] (f : Point α → Except ExpressionError α) (dim : Nat)
    (P : σ → Prop) (strategy : Strategy) (k : Nat) :
    Except (SearchError α) (Iteration α × Verdict σ α) → Prop where
  | noTrial : SoundStep f dim P strategy k (.error (.noFiniteTrial strategy k))
  | noPoint : SoundStep f dim P strategy k (.error (.noFinitePoint strategy k))
  | stop : c.Sound f dim → reason ≠ .stepLimit →
    SoundStep f dim P strategy k (.ok (i, .stop ⟨c, reason, k⟩))
  | next : P s → SoundStep f dim P strategy k (.ok (i, .continue s))

variable {f : Point α → Except ExpressionError α} {g : Point α → Except ExpressionError (Point α)}
  {dim k : Nat}

/-- Sound steps keep what is asked of the states. -/
theorem Trace.Continues.sound {σ : Type} {P : σ → Prop}
    {step : Nat → σ → Except (SearchError α) (Iteration α × Verdict σ α)} {s t : σ}
    (hstep : ∀ {k s}, P s → SoundStep f dim P strategy k (step k s))
    (H : Continues step k s past t) (hs : P s) : P t := by
  refine H.keeps ?_ hs
  intro k s i t hs ht
  have H := ht ▸ hstep hs
  cases H with | next H => exact H

/-! ## Gradient descent -/

namespace GradientDescent

variable {settings : DescentSettings α} {s : State α}

theorem sample_ok (E : Evaluable f g dim) {x d : Point α} (hx : x.size = dim) (hd : d.size = dim)
    (factor size : α) : ∃ t, sample f factor x d size = .ok t ∧ t.2.At f dim := by
  obtain ⟨y, hy, hsize⟩ :=
    Point.combine?_ok (hx.trans hd.symm) (-size * factor) (Scalar.nat 1)
  obtain ⟨v, hv⟩ := E.value (hsize.trans hx)
  exact ⟨_, (mapError_ok_bind hy).trans (mapError_ok_bind hv), hv, hsize.trans hx⟩

theorem samples_ok (E : Evaluable f g dim) {x d : Point α} (hx : x.size = dim) (hd : d.size = dim)
    (factor : α) : ∃ all, stepSizes.mapM (sample f factor x d) = .ok all ∧
      ∀ t ∈ all, t.2.At f dim := by
  rcases mapM_cases (sample f factor x d) stepSizes with ⟨all, he, hall⟩ | ⟨size, _, e, he, _⟩
  · refine ⟨all, he, ?_⟩
    intro t ht
    obtain ⟨size, _, hs⟩ := forall₂_mem hall.flip ht
    obtain ⟨t', ht', hat⟩ := sample_ok E hx hd factor size
    cases hs.symm.trans ht'
    exact hat
  · obtain ⟨t, ht, _⟩ := sample_ok E hx hd factor size
    exact nomatch he.symm.trans ht

theorem best_cons (first c : Candidate α) (others : List (Candidate α)) :
    best first (c :: others) = best (if Scalar.lt c.value first.value then c else first) others :=
  rfl

/-- The best candidate is one of those that there are. -/
theorem best_mem (first : Candidate α) (others : List (Candidate α)) :
    best first others ∈ first :: others := by
  induction others generalizing first with
  | nil => exact List.mem_singleton_self first
  | cons c others ih =>
    rw [best_cons]
    rcases List.mem_cons.mp (ih (if Scalar.lt c.value first.value then c else first)) with he | hmem
    · rw [he]
      split
      · exact List.mem_cons_of_mem _ List.mem_cons_self
      · exact List.mem_cons_self
    · exact List.mem_cons_of_mem _ (List.mem_cons_of_mem _ hmem)

theorem step_sound (hz : Scalar.ZeroAbs α) (E : Evaluable f g dim) (hs : s.current.Sound f dim) :
    SoundStep f dim (fun s => s.current.Sound f dim) .gradientDescent k
      (step settings f g k s) := by
  obtain ⟨d, hd, hsize⟩ := E.gradient hs.size
  obtain ⟨all, hall, hat⟩ := samples_ok E hs.size hsize settings.stepFactor
  rw [step, mapError_ok_bind hd, ok_bind hall]
  dsimp only
  generalize hsamples : List.filter _ all = samples
  split
  · exact .noTrial
  have hbest : (best s.current (samples.map (·.2))).Sound f dim := by
    rcases List.mem_cons.mp (best_mem s.current (samples.map (·.2))) with he | hmem
    · rw [he]
      exact hs
    · obtain ⟨t, ht, he⟩ := List.mem_map.mp hmem
      obtain ⟨ht, hfinite⟩ := List.mem_filter.mp (hsamples ▸ ht)
      exact he ▸ ⟨hat t ht, hfinite⟩
  obtain ⟨⟨exhausted, tracker⟩, hu⟩ :=
    s.tracker.update_ok hz s.current.value (best s.current (samples.map (·.2))).value
  rw [mapError_ok_bind hu]
  cases exhausted with
  | true => exact .stop hs nofun
  | false => exact .next hbest

end GradientDescent

/-! ## Line searches -/

variable {settings : LineSearchSettings α}

namespace BacktrackingDescent

variable {s : State α}

theorem step_sound (hz : Scalar.ZeroAbs α) (E : Evaluable f g dim)
    (ho : (LineSearch.ofSettings settings).validate = .ok ()) (hs : s.current.Sound f dim) :
    SoundStep f dim (fun s => s.current.Sound f dim) .backtrackingDescent k
      (step settings f g k s) := by
  obtain ⟨d, hd, hsize⟩ := E.gradient hs.size
  obtain ⟨found, hfound, hat⟩ := LineSearch.search_ok E ho hs.size ((Point.size_flip d).trans hsize)
  rw [step, mapError_ok_bind hd]
  dsimp only
  split
  · exact .stop hs nofun
  rw [ok_bind hfound]
  split
  · exact .noPoint
  rename_i hfinite
  obtain ⟨⟨exhausted, tracker⟩, hu⟩ := s.tracker.update_ok hz s.current.value found.candidate.value
  rw [mapError_ok_bind hu]
  cases exhausted with
  | true => exact .stop hs nofun
  | false => exact .next ⟨hat, by simpa using hfinite⟩

end BacktrackingDescent

namespace ConjugateGradient

/-- What holds between iterations: the gradient is that of the current point. -/
structure State.Sound (f : Point α → Except ExpressionError α)
    (g : Point α → Except ExpressionError (Point α)) (dim : Nat) (s : State α) : Prop where
  current : s.current.Sound f dim
  gradient : g s.current.point = .ok s.gradient
  gradient_size : s.gradient.size = dim
  direction_size : s.direction.size = dim

variable {s : State α}

theorem step_sound (hz : Scalar.ZeroAbs α) (E : Evaluable f g dim)
    (ho : (LineSearch.ofSettings settings).validate = .ok ()) (hs : s.Sound f g dim) :
    SoundStep f dim (State.Sound f g dim) .conjugateGradient k (step settings f g k s) := by
  obtain ⟨found, hfound, hat⟩ := LineSearch.search_ok E ho hs.current.size hs.direction_size
  rw [step, ok_bind hfound]
  dsimp only
  split
  · exact .noPoint
  rename_i hfinite
  obtain ⟨d, hd, hsize⟩ := E.gradient hat.size
  obtain ⟨c, hc⟩ := Point.polakRibiere?_ok (hsize.trans hs.gradient_size.symm)
  obtain ⟨direction, hdirection, hdirsize⟩ := Point.combine?_ok (hs.direction_size.trans hsize.symm)
    (-Scalar.nat 1) (weight c)
  obtain ⟨⟨exhausted, tracker⟩, hu⟩ := s.tracker.update_ok hz s.current.value found.candidate.value
  rw [mapError_ok_bind hd, mapError_ok_bind hc, mapError_ok_bind hdirection, mapError_ok_bind hu]
  have hcandidate : found.candidate.Sound f dim := ⟨hat, by simpa using hfinite⟩
  cases exhausted with
  | true => exact .stop hs.current nofun
  | false =>
    dsimp only
    rw [if_neg Bool.false_ne_true]
    split
    · exact .stop hcandidate nofun
    · exact .next ⟨hcandidate, hd, hsize, hdirsize.trans hs.direction_size⟩

end ConjugateGradient

end Downhill
