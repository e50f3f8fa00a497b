import Downhill.Proofs.Search.Armijo

/-!
# Conjugate gradients without conjugation

A coefficient that is not positive counts as zero, and then the next direction is the negative
gradient, as it is in the beginning. So as long as no coefficient is positive, conjugate gradients
and backtracking descent make the same line searches (`ConjugateGradient.step_alike`), although one
takes the gradient before the check for improvement and the other after it, and their runs are the
same but for names (`conjugateGradient_clamped`). The coefficient is first needed after the first
iteration, which is therefore always the same.
-/

namespace Downhill

open scoped Scalar
open Point (embed)

/-! ## Traces of two strategies -/

section

variable {α σ τ : Type}

/-- The same failure of another strategy. -/
def SearchError.relabel (strategy : Strategy) : SearchError α → SearchError α
  | startNotFinite _ v => startNotFinite strategy v
  | noFiniteTrial _ k => noFiniteTrial strategy k
  | noFinitePoint _ k => noFinitePoint strategy k
  | e => e

/-- An iteration of a strategy that has no coefficients to lose. -/
def Iteration.unmarked (i : Iteration α) : Iteration α := { i with restarted := false }

/-- The same trace of another strategy. -/
def Trace.relabel (strategy : Strategy) (t : Trace α) : Trace α :=
  ⟨t.iterations.map .unmarked, t.ending.mapError (·.relabel strategy)⟩

/-- Two strategies do the same in an iteration, and if both go on their states are related. -/
inductive StepsAlike (strategy : Strategy) (P : Iteration α → σ → τ → Prop) :
    Except (SearchError α) (Iteration α × Verdict σ α) →
    Except (SearchError α) (Iteration α × Verdict τ α) → Prop where
  | error : StepsAlike strategy P (.error e) (.error (e.relabel strategy))
  | stop : StepsAlike strategy P (.ok (i, .stop o)) (.ok (i.unmarked, .stop o))
  | next : P i s t → StepsAlike strategy P (.ok (i, .continue s)) (.ok (i.unmarked, .continue t))

variable {strategy : Strategy} {P P' : Iteration α → σ → τ → Prop}
  {a : Except (SearchError α) (Iteration α × Verdict σ α)}
  {b : Except (SearchError α) (Iteration α × Verdict τ α)}

theorem StepsAlike.mono (H : StepsAlike strategy P a b) (hP : ∀ {i s t}, P i s t → P' i s t) :
    StepsAlike strategy P' a b := by
  cases H with
  | error => exact .error
  | stop => exact .stop
  | next h => exact .next (hP h)

namespace Trace

variable {current : σ → Candidate α} {current' : τ → Candidate α}
  {step : ℕ → σ → Except (SearchError α) (Iteration α × Verdict σ α)}
  {step' : ℕ → τ → Except (SearchError α) (Iteration α × Verdict τ α)} {s : σ} {t : τ} {left k : ℕ}

/-- No step is left to either of two searches. -/
theorem follow_zero (strategy : Strategy)
    (step : ℕ → σ → Except (SearchError α) (Iteration α × Verdict σ α))
    (step' : ℕ → τ → Except (SearchError α) (Iteration α × Verdict τ α)) (k : ℕ)
    (H : current' t = current s) :
    follow current' step' 0 k t = (follow current step 0 k s).relabel strategy := by
  rw [follow, follow, H]
  rfl

/-- Strategies whose steps are alike as long as the iterations are as they should be. -/
theorem follow_alike {R : σ → τ → Prop} {Q : Iteration α → Prop}
    (hcurrent : ∀ {s t}, R s t → current' t = current s)
    (hstep : ∀ {k s t}, R s t →
      StepsAlike strategy (fun i s t => Q i → R s t) (step k s) (step' k t))
    (hR : R s t) (hQ : ∀ i ∈ (follow current step left k s).iterations, Q i) :
    follow current' step' left k t = (follow current step left k s).relabel strategy := by
  induction left generalizing k s t with
  | zero => exact follow_zero strategy step step' k (hcurrent hR)
  | succ left ih =>
    have H := hstep (k := k) hR
    rw [follow] at hQ
    rw [follow, follow]
    generalize step k s = a at H hQ
    generalize step' k t = b at H
    cases H with
    | error =>
      rw [hcurrent hR]
      rfl
    | stop => rfl
    | next hP =>
      have hR := hP (hQ _ List.mem_cons_self)
      have hrest := ih (k := k + 1) hR fun i hi => hQ i (List.mem_cons_of_mem _ hi)
      dsimp only
      rw [hrest]
      rfl

/-- Two searches see the same in the first iteration, and if one of them ends there they are the
same. -/
structure BeginAlike (strategy : Strategy) (t u : Trace α) : Prop where
  first : u.iterations.head? = (t.relabel strategy).iterations.head?
  ends : t.iterations.length ≤ 1 ∨ u.iterations.length ≤ 1 → u = t.relabel strategy

theorem follow_length_pos (current : σ → Candidate α)
    (step : ℕ → σ → Except (SearchError α) (Iteration α × Verdict σ α)) (left k : ℕ) (s : σ) :
    0 < (follow current step (left + 1) k s).iterations.length := by
  rw [follow]
  split <;> exact Nat.succ_pos _

theorem follow_beginAlike (hcurrent : current' t = current s)
    (hstep : StepsAlike strategy (fun _ s t => current' t = current s) (step k s) (step' k t)) :
    (follow current step left k s).BeginAlike strategy (follow current' step' left k t) := by
  cases left with
  | zero =>
    rw [follow_zero strategy step step' k hcurrent]
    exact ⟨rfl, fun _ => rfl⟩
  | succ left =>
    rw [follow, follow]
    generalize step k s = a at hstep
    generalize step' k t = b at hstep
    cases hstep with
    | error =>
      rw [hcurrent]
      exact ⟨rfl, fun _ => rfl⟩
    | stop => exact ⟨rfl, fun _ => rfl⟩
    | @next i s t hP =>
      refine ⟨rfl, fun hlength => ?_⟩
      cases left with
      | zero =>
        dsimp only
        rw [follow_zero strategy step step' (k + 1) hP]
        rfl
      | succ left =>
        have hone := follow_length_pos current step left (k + 1) s
        have hone' := follow_length_pos current' step' left (k + 1) t
        simp only [List.length_cons] at hlength
        omega

end Trace

end

/-! ## Coefficients that are not positive -/

variable {α K : Type} [Scalar α] [CommRing K] [LinearOrder K] {num : K → α} {dim : ℕ}

theorem Point.combine?_embed (A : Scalar.ExactArithmetic num) (a b : Fin dim → K) (s t : K) :
    (embed num a).combine? (embed num b) (num s) (num t) = .ok (embed num (t • a + s • b)) := by
  rw [combine?, if_pos (by simp)]
  refine congrArg _ (Array.ext (by simp) fun i _ _ => ?_)
  simp [A.num_mul, A.num_add, mul_comm]

theorem Scalar.ExactArithmetic.norm_not_lt (A : ExactArithmetic num) (a : Point α) :
    Scalar.lt a.norm (Scalar.nat 0) = false := by
  refine Bool.eq_false_iff.mpr fun H => ?_
  obtain ⟨c, z, hc, hz, hlt⟩ := A.lt.mp H
  cases A.injective (A.zero.symm.trans hz)
  exact hlt.not_ge (A.sqrt hc)

namespace ConjugateGradient

variable {settings : LineSearchSettings α} {f : Point α → Except ExpressionError α}
  {g : Point α → Except ExpressionError (Point α)} {k : ℕ} {s s' : State α}
  {t t' : BacktrackingDescent.State α} {i : Iteration α} {start : Candidate α}

/-- No positive coefficient comes of an iteration. -/
def Clamped (g : Point α → Except ExpressionError (Point α)) (i : Iteration α) : Prop :=
  ∀ {c old new v}, i.candidate? = some c → g i.current.point = .ok old → g c.point = .ok new →
    Point.polakRibiere? new old = .ok (some v) → Scalar.le v (Scalar.nat 0) = true

instance (g : Point α → Except ExpressionError (Point α)) (i : Iteration α) :
    Decidable (Clamped g i) :=
  decidable_of_iff (∀ c ∈ i.candidate?, ∀ old ∈ (g i.current.point).toOption,
    ∀ new ∈ (g c.point).toOption, ∀ w ∈ (Point.polakRibiere? new old).toOption, ∀ v ∈ w,
      Scalar.le v (Scalar.nat 0) = true) <| by
    simp only [mem_toOption]
    constructor
    · intro H c old new v hc ho hn hv
      exact H c hc old ho new hn _ hv v rfl
    · intro H c hc old ho new hn w hw v hv
      cases hv
      exact H hc ho hn hw

/-- Both strategies stand at a point over the ring, from where both are to search against the
gradient. -/
structure Alongside (num : K → α) (f : Point α → Except ExpressionError α)
    (g : Point α → Except ExpressionError (Point α)) (dim : ℕ) (s : State α)
    (t : BacktrackingDescent.State α) : Prop extends s.Sound f g dim where
  same : t = ⟨s.current, s.tracker⟩
  point : ∃ x : Fin dim → K, s.current.point = embed num x
  against : s.direction = s.gradient.flip

/-- What an iteration goes on with, whatever the coefficient. -/
structure Turns (num : K → α) (f : Point α → Except ExpressionError α)
    (g : Point α → Except ExpressionError (Point α)) (dim : ℕ) (s : State α) (i : Iteration α)
    (s' : State α) : Prop extends s'.Sound f g dim where
  seen : i.current = s.current
  candidate : i.candidate? = some s'.current
  along : ∃ r, s'.current.point = s.current.point.along s.direction (num r)
  turn : ∃ c, Point.polakRibiere? s'.gradient s.gradient = .ok c ∧
    s.direction.combine? s'.gradient (-Scalar.nat 1) (weight c) = .ok s'.direction

/-- Whatever the coefficient, both strategies make the same line search and the same check. -/
theorem step_alike [IsStrictOrderedRing K] (A : Scalar.ExactArithmetic num) (E : Evaluable f g dim)
    (ho : (LineSearch.ofSettings settings).validate = .ok ())
    (hbound : settings.normBound = Scalar.nat 0) (H : Alongside num f g dim s t) :
    StepsAlike .backtrackingDescent
      (fun i s' t' => t' = ⟨s'.current, s'.tracker⟩ ∧ Turns num f g dim s i s')
      (step settings f g k s) (BacktrackingDescent.step settings f g k t) := by
  obtain ⟨a, b, _, hb, _⟩ := LineSearch.fractions A ho
  obtain ⟨found, hfound, hat⟩ := LineSearch.search_ok E ho H.current.size H.direction_size
  obtain ⟨found', n, hfound', hends⟩ :=
    LineSearch.search_ends E ho H.current.size H.direction_size H.current.value H.gradient
  cases hfound.symm.trans hfound'
  have halong : found.candidate.point = s.current.point.along s.direction (num (b ^ n)) := by
    rw [hends.point, hends.step, hb, A.iterate_mul]
  rw [H.against] at hfound'
  rw [step, ok_bind hfound, H.same, BacktrackingDescent.step, mapError_ok_bind H.gradient, hbound]
  dsimp only
  rw [A.norm_not_lt, Bool.false_and, if_neg Bool.false_ne_true, ok_bind hfound']
  cases hfinite : Scalar.isFinite found.candidate.value with
  | false => exact .error
  | true =>
    obtain ⟨d, hd, hsize⟩ := E.gradient hat.size
    obtain ⟨c, hc⟩ := Point.polakRibiere?_ok (hsize.trans H.gradient_size.symm)
    obtain ⟨direction, hdirection, hdirsize⟩ := Point.combine?_ok
      (H.direction_size.trans hsize.symm) (-Scalar.nat 1) (weight c)
    obtain ⟨⟨exhausted, tracker⟩, hu⟩ :=
      s.tracker.update_ok A.zeroAbs s.current.value found.candidate.value
    rw [Bool.not_true, if_neg Bool.false_ne_true, if_neg Bool.false_ne_true, mapError_ok_bind hd,
      mapError_ok_bind hc, mapError_ok_bind hdirection, mapError_ok_bind hu, mapError_ok_bind hu]
    cases exhausted with
    | true => exact .stop
    | false =>
      dsimp only
      rw [if_neg Bool.false_ne_true, A.norm_not_lt, Bool.false_and, if_neg Bool.false_ne_true]
      refine .next ⟨rfl, ?_⟩
      exact {
        current := ⟨hat, hfinite⟩
        gradient := hd
        gradient_size := hsize
        direction_size := hdirsize.trans H.direction_size
        seen := rfl
        candidate := rfl
        along := ⟨_, halong⟩
        turn := ⟨c, hc, hdirection⟩ }

theorem weight_none (A : Scalar.ExactArithmetic num) : weight (none : Option α) = num 0 := by
  rw [weight, Point.orRestart, Option.getD_none, ite_self, A.zero]

theorem weight_some (A : Scalar.ExactArithmetic num) {c : K} (hc : c ≤ 0) :
    weight (some (num c)) = num 0 := by
  rw [weight, Point.orRestart, Option.getD_some]
  split
  · exact A.zero
  · rename_i hlt
    have hnonneg : 0 ≤ c := le_of_not_gt fun h => hlt (A.lt.mpr ⟨c, 0, rfl, A.zero, h⟩)
    rw [le_antisymm hc hnonneg]

/-- A gradient whose square is zero is zero. -/
theorem eq_zero_of_dot_self [IsStrictOrderedRing K] (A : Scalar.ExactArithmetic num) {d : Point α}
    (hd : d.size = dim) (H : Scalar.eq (d.dot d) (Scalar.nat 0) = true) :
    d = embed num (0 : Fin dim → K) := by
  obtain ⟨c, hc, hz⟩ := A.eq.mp H
  cases A.injective (A.zero.symm.trans hz)
  obtain ⟨G, G', rfl, hG', hsum⟩ := (Point.dot_eq A.toOrderedRing hd hd).mp hc
  cases Point.embed_injective A.injective hG'
  have hzero := (Finset.sum_mul_self_eq_zero_iff Finset.univ G).mp hsum
  exact congrArg _ (funext fun i => hzero i (Finset.mem_univ i))

/-- There are no undefined gradients with a coefficient that is not positive, nor with one that is
refused because the search does not move. -/
theorem weight_clamped [IsStrictOrderedRing K] (A : Scalar.ExactArithmetic num) {x : Fin dim → K}
    {old new y : Point α} {r : K} {c : Option α} (hold : old.size = dim) (hnew : new.size = dim)
    (hg : g (embed num x) = .ok old) (hg' : g y = .ok new)
    (hy : y = (embed num x).along old.flip (num r)) (hc : Point.polakRibiere? new old = .ok c)
    (hclamp : ∀ v ∈ c, Scalar.le v (Scalar.nat 0) = true) :
    ∃ G G' : Fin dim → K, old = embed num G ∧ new = embed num G' ∧ weight c = num 0 := by
  rw [Point.polakRibiere?_eq (hnew.trans hold.symm)] at hc
  cases hc
  split at hclamp
  · rename_i hzero
    -- The search does not move, so the gradient stays zero.
    obtain rfl := eq_zero_of_dot_self A hold hzero
    rw [Point.flip_embed A, Point.along_embed A.toOrderedRing, neg_zero, smul_zero, add_zero] at hy
    cases hg.symm.trans (hy ▸ hg')
    exact ⟨0, 0, rfl, rfl, by rw [if_pos hzero, weight_none A]⟩
  · rename_i hnonzero
    -- A coefficient that is compared is defined, and so is all that it was computed of.
    obtain ⟨c, z, hc, hz, hle⟩ := A.le.mp (hclamp _ rfl)
    cases A.injective (A.zero.symm.trans hz)
    obtain ⟨n, m, hn, hm, _⟩ := A.div.mp hc
    obtain ⟨G, _, hG, _⟩ := (Point.dot_eq A.toOrderedRing hold hold).mp hm
    obtain ⟨G', _, hG', _⟩ := (Point.dot_eq A.toOrderedRing hnew
      (by rw [Array.size_zipWith, hnew, hold, Nat.min_self])).mp hn
    exact ⟨G, G', hG, hG', by rw [if_neg hnonzero, hc, weight_some A hle]⟩

/-- Without a positive coefficient the next direction is the negative gradient again. -/
theorem Turns.alongside [IsStrictOrderedRing K] (A : Scalar.ExactArithmetic num)
    (H : Alongside num f g dim s t) (hturns : Turns num f g dim s i s')
    (hsame : t' = ⟨s'.current, s'.tracker⟩) (hclamped : Clamped g i) :
    Alongside num f g dim s' t' := by
  obtain ⟨x, hx⟩ := H.point
  obtain ⟨r, hr⟩ := hturns.along
  obtain ⟨c, hc, hdirection⟩ := hturns.turn
  rw [H.against] at hr hdirection
  rw [hx] at hr
  obtain ⟨G, G', hG, hG', hweight⟩ := weight_clamped A H.gradient_size hturns.gradient_size
    (hx ▸ H.gradient) hturns.gradient hr hc fun v hv => by
      cases hv
      exact hclamped hturns.candidate (hturns.seen ▸ H.gradient) hturns.gradient hc
  have hminus : -Scalar.nat 1 = num (-1) := A.neg.mpr ⟨1, by rw [A.nat, Nat.cast_one], rfl⟩
  have hagainst : s'.direction = s'.gradient.flip := by
    rw [hG, hG', Point.flip_embed A, hweight, hminus, Point.combine?_embed A, zero_smul, zero_add,
      neg_one_smul] at hdirection
    rw [hG', Point.flip_embed A]
    exact (Except.ok.inj hdirection).symm
  have hpoint : ∃ z : Fin dim → K, s'.current.point = embed num z := by
    rw [hG, Point.flip_embed A, Point.along_embed A.toOrderedRing] at hr
    exact ⟨_, hr⟩
  exact { toSound := hturns.toSound, same := hsame, point := hpoint, against := hagainst }

theorem search_clamped [IsStrictOrderedRing K] (A : Scalar.ExactArithmetic num)
    (E : Evaluable f g dim) (ho : (LineSearch.ofSettings settings).validate = .ok ())
    (hbound : settings.normBound = Scalar.nat 0) {x : Fin dim → K} (hs : start.Sound f dim)
    (hx : start.point = embed num x) :
    ((∀ i ∈ (search settings f g start).iterations, Clamped g i) →
      BacktrackingDescent.search settings f g start =
        (search settings f g start).relabel .backtrackingDescent) ∧
    (search settings f g start).BeginAlike .backtrackingDescent
      (BacktrackingDescent.search settings f g start) := by
  obtain ⟨d, hd, hsize⟩ := E.gradient hs.size
  have hstart : Alongside num f g dim
      ⟨start, d, d.flip, .ofSettings settings.toDescentSettings⟩
      ⟨start, .ofSettings settings.toDescentSettings⟩ := {
    current := hs
    gradient := hd
    gradient_size := hsize
    direction_size := (Point.size_flip d).trans hsize
    same := rfl
    point := ⟨x, hx⟩
    against := rfl }
  rw [search, hd]
  constructor
  · intro hclamped
    refine Trace.follow_alike (R := Alongside num f g dim) (Q := Clamped g) ?_ ?_ hstart hclamped
    · intro s t H
      rw [H.same]
    · intro k s t H
      refine (step_alike A E ho hbound H).mono ?_
      rintro i s' t' ⟨hsame, hturns⟩ hi
      exact hturns.alongside A H hsame hi
  · refine Trace.follow_beginAlike rfl ((step_alike A E ho hbound hstart).mono ?_)
    rintro i s' t' ⟨rfl, -⟩
    rfl

end ConjugateGradient

/-- In exact arithmetic and without a bound on norms, conjugate gradients whose coefficients are
never positive are backtracking descent. Whatever the coefficients, the first iteration is the
same. -/
theorem conjugateGradient_clamped [IsStrictOrderedRing K] (A : Scalar.ExactArithmetic num)
    {settings : LineSearchSettings α} {o : Objective α} (x : Fin dim → K)
    (hsettings : settings.validate = .ok settings) (hbound : settings.normBound = Scalar.nat 0)
    (ho : o.Proper) :
    ((∀ {f g p}, (Build.compiled o dim).run .empty = (.ok (f, g), p) →
      ∀ i ∈ ((Method.conjugateGradient settings).minimise o (embed num x)).trace.iterations,
        ConjugateGradient.Clamped g.apply i) →
      ((Method.backtrackingDescent settings).minimise o (embed num x)).trace =
        ((Method.conjugateGradient settings).minimise o (embed num x)).trace.relabel
          .backtrackingDescent) ∧
    ((Method.conjugateGradient settings).minimise o (embed num x)).trace.BeginAlike
      .backtrackingDescent
      ((Method.backtrackingDescent settings).minimise o (embed num x)).trace := by
  have hdim : (embed num x).size = dim := Point.size_embed
  rcases hc : (Build.compiled o dim).run .empty with ⟨e | ⟨f, g⟩, p⟩
  · rw [Method.minimise, Method.minimise, hdim, hc]
    exact ⟨fun _ => rfl, rfl, fun _ => rfl⟩
  · have E := Build.compiled_evaluable ho hc
    obtain ⟨v, hv⟩ := E.value hdim
    have hc' : (Build.compiled o (embed num x).size).run .empty = (.ok (f, g), p) := by rwa [hdim]
    rw [Method.minimise_trace hc' hv, Method.minimise_trace hc' hv]
    split
    · rename_i hfinite
      have hstart : (⟨v, embed num x⟩ : Candidate α).Sound f.apply dim := ⟨⟨hv, hdim⟩, hfinite⟩
      obtain ⟨hclamped, hbegin⟩ := ConjugateGradient.search_clamped A E
        (LineSearchSettings.validate_ok hsettings).2 hbound hstart rfl
      exact ⟨fun H => hclamped (H rfl), hbegin⟩
    · exact ⟨fun _ => rfl, rfl, fun _ => rfl⟩

open PartialRational in
/-- Every search from `3` leads to the same side of the minimum, and less far out. -/
theorem conjugateGradient_clamped_square :
    ((Method.conjugateGradient twoSteps).minimise square #[some 3]).trace.iterations.length = 2 ∧
    ((Method.backtrackingDescent twoSteps).minimise square #[some 3]).trace =
      ((Method.conjugateGradient twoSteps).minimise square #[some 3]).trace.relabel
        .backtrackingDescent := by
  have hclamps : (match ((Build.compiled square 1).run .empty).1 with
      | .ok (_, g) => decide (∀ i ∈ ((Method.conjugateGradient twoSteps).minimise square
          #[some 3]).trace.iterations, ConjugateGradient.Clamped g.apply i)
      | .error _ => false) = true := by decide +kernel
  have H := (conjugateGradient_clamped exactArithmetic (o := square) ![3]
    twoSteps_validate rfl (Term.proper _)).1
  refine ⟨by decide +kernel, H fun {f g p} hc => ?_⟩
  rw [hc] at hclamps
  exact of_decide_eq_true hclamps

end Downhill
