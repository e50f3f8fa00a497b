import Downhill.Proofs.Search.Objectives
import Downhill.Proofs.Search.Steps

/-!
# Outcomes of searches

A search ends with a point and the finite value of the objective there, or with one of the failures
that say that no finite value was found (`Trace.follow_sound`, for any step that is sound). With
validated settings and an objective that compiles, nothing else can happen (`minimise_sound`).
-/

namespace Downhill

variable {α : Type} [Scalar α]

/-! ## Whole searches -/

/-- An outcome that has the value of the objective, and counts its iterations. -/
structure Outcome.Sound (f : Point α → Except ExpressionError α) (dim : Nat) (maxSteps : Int)
    (o : Outcome α) : Prop where
  candidate : o.candidate.Sound f dim
  le : o.iterations ≤ maxSteps
  limit : o.reason.status = .maxStepsReached → o.iterations = maxSteps
  converged : o.reason.status = .converged → 1 ≤ o.iterations

/-- What a search of at most `maxSteps` iterations ends with. -/
inductive SoundEnding {α : Type} [Scalar α] (f : Point α → Except ExpressionError α) (dim : Nat)
    (strategy : Strategy) (maxSteps : Int) : Except (SearchError α) (Outcome α) → Prop where
  | ok : o.Sound f dim maxSteps → SoundEnding f dim strategy maxSteps (.ok o)
  | noTrial {k : Nat} : 1 ≤ k → k ≤ maxSteps →
    SoundEnding f dim strategy maxSteps (.error (.noFiniteTrial strategy k))
  | noPoint {k : Nat} : 1 ≤ k → k ≤ maxSteps →
    SoundEnding f dim strategy maxSteps (.error (.noFinitePoint strategy k))

theorem Reason.converged_of_ne {r : Reason} (H : r ≠ .stepLimit) : r.status = .converged := by
  cases r <;> first | rfl | exact absurd rfl H

theorem Trace.follow_sound {σ : Type} {P : σ → Prop} {current : σ → Candidate α}
    {step : Nat → σ → Except (SearchError α) (Iteration α × Verdict σ α)} {maxSteps : Int}
    {s : σ} (h0 : 0 ≤ maxSteps) (hcurrent : ∀ {s}, P s → (current s).Sound f dim)
    (hstep : ∀ {k s}, P s → SoundStep f dim P strategy k (step k s)) (hs : P s) :
    SoundEnding f dim strategy maxSteps (follow current step maxSteps.toNat 1 s).ending := by
  have hends := follow_ends current step maxSteps.toNat 1 s
  generalize follow current step maxSteps.toNat 1 s = t at hends ⊢
  cases hends with
  | error hc hl he =>
    have H := he ▸ hstep (hc.sound hstep hs)
    cases H with
    | noTrial => exact .noTrial (Nat.le_add_right ..) (by omega)
    | noPoint => exact .noPoint (Nat.le_add_right ..) (by omega)
  | @stop past _ _ _ hc hl ho =>
    have H := ho ▸ hstep (hc.sound hstep hs)
    cases H with
    | stop hcandidate hreason =>
      have hle : ((1 + past.length : Nat) : Int) ≤ maxSteps := by omega
      have hstatus := Reason.converged_of_ne hreason
      exact .ok ⟨hcandidate, hle, fun h => absurd (hstatus.symm.trans h) nofun,
        fun _ => Nat.le_add_right ..⟩
  | limit hc =>
    have heq : ((1 + maxSteps.toNat - 1 : Nat) : Int) = maxSteps := by omega
    exact .ok ⟨hcurrent (hc.sound hstep hs), heq.le, fun _ => heq, nofun⟩

/-! ## Settings -/

theorem DescentSettings.validate_ok {s s' : DescentSettings α} (H : s.validate = .ok s') :
    0 ≤ s.maxSteps ∧ 1 ≤ s.patience := by
  obtain ⟨hsteps, _, hpatience, _⟩ := validate_iff.mp H
  exact ⟨hsteps, hpatience⟩

theorem LineSearchSettings.validate_ok {s s' : LineSearchSettings α} (H : s.validate = .ok s') :
    (0 ≤ s.maxSteps ∧ 1 ≤ s.patience) ∧ (LineSearch.ofSettings s).validate = .ok () := by
  obtain ⟨hd, halpha, hbeta, htrials, _⟩ := validate_iff.mp H
  refine ⟨DescentSettings.validate_ok hd, ?_⟩
  rw [LineSearch.validate, LineSearch.ofSettings, halpha, hbeta, if_neg (by simp), if_neg (by simp),
    if_neg (Int.not_lt.mpr htrials)]

namespace Method

/-- The settings of a method passed validation. -/
def Validated : Method α → Prop
  | gradientDescent s => s.validate = .ok s
  | backtrackingDescent s | conjugateGradient s => s.validate = .ok s

theorem search_sound (hz : Scalar.ZeroAbs α) {f : Point α → Except ExpressionError α}
    {g : Point α → Except ExpressionError (Point α)} {dim : Nat} {c : Candidate α} {m : Method α}
    (E : Evaluable f g dim) (hm : m.Validated) (hc : c.Sound f dim) :
    SoundEnding f dim m.strategy m.maxSteps (m.search f g c).ending := by
  cases m with
  | gradientDescent s =>
    exact Trace.follow_sound (DescentSettings.validate_ok hm).1 id
      (GradientDescent.step_sound hz E) hc
  | backtrackingDescent s =>
    obtain ⟨⟨h0, _⟩, ho⟩ := LineSearchSettings.validate_ok hm
    exact Trace.follow_sound h0 id (BacktrackingDescent.step_sound hz E ho) hc
  | conjugateGradient s =>
    obtain ⟨⟨h0, _⟩, ho⟩ := LineSearchSettings.validate_ok hm
    obtain ⟨d, hd, hsize⟩ := E.gradient hc.size
    change SoundEnding f dim _ _ (ConjugateGradient.search s f g c).ending
    rw [ConjugateGradient.search, hd]
    exact Trace.follow_sound h0 ConjugateGradient.State.Sound.current
      (ConjugateGradient.step_sound hz E ho) ⟨hc, hd, hsize, (Point.size_flip d).trans hsize⟩

end Method

/-! ## Minimising -/

theorem Method.start_ending {m : Method α} {f : CompiledFunction α} {g : CompiledGradient α}
    {x : Point α} (hv : f.apply x = .ok v) :
    (m.start f g x).trace.ending =
      if Scalar.isFinite v then (m.search f.apply g.apply ⟨v, x⟩).ending
      else .error (.startNotFinite m.strategy v) := by
  rw [start, hv]
  dsimp only
  split <;> rfl

/-- An objective that compiles is searched from where its value is finite. -/
theorem Method.minimise_trace {m : Method α} {o : Objective α} {x : Point α}
    {f : CompiledFunction α} {g : CompiledGradient α} {p : Pool α}
    (hc : (Build.compiled o x.size).run .empty = (.ok (f, g), p)) (hv : f.apply x = .ok v) :
    (m.minimise o x).trace =
      if Scalar.isFinite v then m.search f.apply g.apply ⟨v, x⟩
      else ⟨[], .error (.startNotFinite m.strategy v)⟩ := by
  rw [minimise, hc]
  dsimp only
  rw [start, hv]
  dsimp only
  split <;> rfl

/-- An objective that compiles has a value at the start. If that is finite the search is sound; if
not, that is the failure, and the only one without an iteration. -/
theorem minimise_sound {m : Method Float} {o : Objective Float} {x : Point Float}
    {f : CompiledFunction Float} {g : CompiledGradient Float} {p : Pool Float} (hm : m.Validated)
    (ho : o.Proper) (hc : (Build.compiled o x.size).run .empty = (.ok (f, g), p)) :
    ∃ v, f.apply x = .ok v ∧
      (Scalar.isFinite v = false →
        (m.minimise o x).trace.ending = .error (.startNotFinite m.strategy v)) ∧
      (Scalar.isFinite v = true →
        SoundEnding f.apply x.size m.strategy m.maxSteps (m.minimise o x).trace.ending) ∧
      ∀ e, (m.minimise o x).trace.ending = .error e →
        (e.iteration? = none ↔ Scalar.isFinite v = false) := by
  have E := Build.compiled_evaluable ho hc
  obtain ⟨v, hv⟩ := E.value (x := x) rfl
  have hstart : m.minimise o x = m.start f g x := by rw [Method.minimise, hc]
  have hfailed (hfinite : Scalar.isFinite v = false) :
      (m.minimise o x).trace.ending = .error (.startNotFinite m.strategy v) := by
    rw [hstart, Method.start_ending hv, hfinite, if_neg Bool.false_ne_true]
  have hsearched (hfinite : Scalar.isFinite v = true) :
      SoundEnding f.apply x.size m.strategy m.maxSteps (m.minimise o x).trace.ending := by
    rw [hstart, Method.start_ending hv, if_pos hfinite]
    exact Method.search_sound Double.zeroAbs E hm ⟨⟨hv, rfl⟩, hfinite⟩
  refine ⟨v, hv, hfailed, hsearched, ?_⟩
  intro e he
  cases hfinite : Scalar.isFinite v with
  | false =>
    cases he.symm.trans (hfailed hfinite)
    exact ⟨fun _ => rfl, fun _ => rfl⟩
  | true =>
    have H := he ▸ hsearched hfinite
    cases H with
    | noTrial | noPoint => exact ⟨nofun, nofun⟩

/-- The square of a single coordinate. -/
def squareObjective : Objective Float := fun xs => (Term.unary .sqr (.var 0)).build xs

theorem minimise_sound_square :
    ∃ f g p, (Build.compiled squareObjective 1).run .empty = (.ok (f, g), p) ∧
      SoundEnding f.apply 1 .conjugateGradient 5000
        ((Method.conjugateGradient {}).minimise squareObjective #[3]).trace.ending := by
  have hstart : (match ((Build.compiled squareObjective 1).run .empty).1 with
      | .ok (f, _) => (f.apply #[3]).toOption.any Scalar.isFinite
      | .error _ => false) = true := by decide +kernel
  have hm : (Method.conjugateGradient {} : Method Float).Validated := rfl
  rcases hc : (Build.compiled squareObjective 1).run .empty with ⟨e | ⟨f, g⟩, p⟩
  · rw [hc] at hstart
    cases hstart
  · rw [hc] at hstart
    obtain ⟨v, hv, _, hsound, _⟩ := minimise_sound (x := #[3]) hm (Term.proper _) hc
    have hfinite : (f.apply #[3]).toOption.any Scalar.isFinite = true := hstart
    rw [hv] at hfinite
    exact ⟨f, g, p, rfl, hsound hfinite⟩

end Downhill
