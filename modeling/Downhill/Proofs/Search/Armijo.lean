import Downhill.Proofs.Scalar.Exact
import Downhill.Proofs.Search.Checks
import Downhill.Proofs.Search.Domain

/-!
# Descent by Armijo's inequality

Against the gradient the slope is minus its square, so a step that satisfies Armijo's inequality
makes the value fall (`BacktrackingDescent.Searched.drops`): the search that an iteration makes
starts from the value that is current, and goes against the gradient there. Values then never rise
along a run all of whose searches succeed (`backtrackingDescent_falls`). The last step of a budget
that is used up is taken as well, and may lead up.
-/

namespace Downhill

open scoped Scalar
open Point (embed)

variable {α K : Type} [Scalar α] [CommRing K] [LinearOrder K] {num : K → α}
  {settings : LineSearchSettings α} {f : Point α → Except ExpressionError α}
  {g : Point α → Except ExpressionError (Point α)} {c start : Candidate α}
  {found : LineSearchResult α} {dim : ℕ}

/-! ## Single searches -/

/-- By what the value falls along a sufficient step against the gradient. -/
def LineSearch.Drops (num : K → α) (alpha : α) (g : Point α → Except ExpressionError (Point α))
    (c : Candidate α) (found : LineSearchResult α) : Prop :=
  ∃ (a t u v : K) (G : Fin c.point.size → K), alpha = num a ∧ found.step = num t ∧
    c.value = num u ∧ found.candidate.value = num v ∧ g c.point = .ok (embed num G) ∧
    v ≤ u - a * t * ∑ i, G i ^ 2 ∧ v ≤ u ∧ (G ≠ 0 → v < u)

/-- Sufficient steps against the gradient, between elements of the ring. -/
theorem LineSearch.Ends.armijo [IsStrictOrderedRing K] (A : Scalar.ExactArithmetic num)
    {o : LineSearch α} {x d : Point α} {fx : α} {left tried k : ℕ} {a b : K} (hx : d.size = dim)
    (ha : o.alpha = num a) (hb : o.beta = num b)
    (H : o.Ends f x d.flip fx (d.dot d.flip) left (Scalar.nat 1) tried k found)
    (hs : found.sufficient = true) :
    ∃ (u v : K) (G : Fin dim → K), fx = num u ∧ found.candidate.value = num v ∧
      d = embed num G ∧ found.step = num (b ^ k) ∧ v ≤ u - a * b ^ k * ∑ i, G i ^ 2 := by
  have hstep : found.step = num (b ^ k) := by
    rw [H.step, hb, A.iterate_mul]
  obtain ⟨w, hw, hle⟩ := H.sufficient.mp hs
  cases (H.point ▸ H.value).symm.trans hw
  rw [sufficientAt, ha, hstep, A.num_mul] at hle
  obtain ⟨v, e, hv, he, hve⟩ := A.le.mp hle
  obtain ⟨u, m, hu, hm, rfl⟩ := A.add.mp he
  obtain ⟨s, l, hs, hslope, rfl⟩ := A.mul.mp hm
  cases A.injective hs
  -- A slope that is compared is defined, and so are the coordinates of the gradient.
  obtain ⟨G, D, rfl, hD, rfl⟩ :=
    (Point.dot_eq A.toOrderedRing hx ((Point.size_flip d).trans hx)).mp hslope
  cases Point.embed_injective A.injective ((Point.flip_embed A G).symm.trans hD)
  refine ⟨u, v, G, hu, hv, rfl, hstep, ?_⟩
  have hsum : ∑ i, G i * (-G) i = -∑ i, G i ^ 2 := by
    simp only [Pi.neg_apply, mul_neg, Finset.sum_neg_distrib, sq]
  rwa [hsum, mul_neg, ← sub_eq_add_neg] at hve

theorem LineSearch.fractions (A : Scalar.ExactArithmetic num) {o : LineSearch α}
    (ho : o.validate = .ok ()) :
    ∃ a b, o.alpha = num a ∧ o.beta = num b ∧ 0 < a ∧ 0 < b := by
  rw [validate] at ho
  split at ho
  · cases ho
  rename_i halpha
  split at ho
  · cases ho
  rename_i hbeta
  obtain ⟨a, ha, ha0, _⟩ := A.exists_of_isFraction (by simpa using halpha)
  obtain ⟨b, hb, hb0, _⟩ := A.exists_of_isFraction (by simpa using hbeta)
  exact ⟨a, b, ha, hb, ha0, hb0⟩

theorem BacktrackingDescent.Searched.drops [IsStrictOrderedRing K] (A : Scalar.ExactArithmetic num)
    (E : Evaluable f g dim) (ho : (LineSearch.ofSettings settings).validate = .ok ())
    (hc : c.Sound f dim) (H : Searched settings f g c found) (hs : found.sufficient = true) :
    LineSearch.Drops num settings.alpha g c found := by
  obtain ⟨d, hd, hsearch⟩ := H
  obtain ⟨d', hd', hsize⟩ := E.gradient hc.size
  cases hd.symm.trans hd'
  obtain rfl := hc.size
  obtain ⟨a, b, ha, hb, ha0, hb0⟩ := LineSearch.fractions A ho
  obtain ⟨r, k, hr, hends⟩ :=
    LineSearch.search_ends E ho rfl ((Point.size_flip d).trans hsize) hc.value hd
  cases hsearch.symm.trans hr
  obtain ⟨u, v, G, hu, hv, rfl, ht, hle⟩ := hends.armijo A hsize ha hb hs
  have hstep : 0 < a * b ^ k := mul_pos ha0 (pow_pos hb0 k)
  have hsquare : 0 ≤ ∑ i, G i ^ 2 := Finset.sum_nonneg fun i _ => sq_nonneg (G i)
  refine ⟨a, b ^ k, u, v, G, ha, ht, hu, hv, hd, hle, ?_, fun hG => ?_⟩
  · exact hle.trans (sub_le_self u (mul_nonneg hstep.le hsquare))
  · obtain ⟨i, hi⟩ := Function.ne_iff.mp hG
    have hpos : 0 < ∑ i, G i ^ 2 :=
      Finset.sum_pos' (fun i _ => sq_nonneg (G i)) ⟨i, Finset.mem_univ i, sq_pos_of_ne_zero hi⟩
    exact hle.trans_lt (sub_lt_self u (mul_pos hstep hpos))

theorem LineSearch.Drops.le (A : Scalar.ExactArithmetic num) {alpha : α}
    (H : Drops num alpha g c found) : Scalar.le found.candidate.value c.value = true := by
  obtain ⟨_, _, u, v, _, _, _, hu, hv, _, _, hle, _⟩ := H
  exact A.le.mpr ⟨v, u, hv, hu, hle⟩

/-! ## Runs -/

variable {past : List (Iteration α)} {R : Candidate α → Candidate α → Prop}

/-- What adopts no higher candidates comes to nothing higher. -/
theorem Path.le (A : Scalar.ExactArithmetic num)
    (hs : Scalar.isFinite start.value = true) (H : Path R start past c)
    (hle : ∀ i ∈ past, ∀ d, i.candidate? = some d → Scalar.le d.value i.current.value = true) :
    Scalar.le c.value start.value = true := by
  induction H with
  | start => exact A.le_refl hs
  | next _ hi hd _ ih =>
    have hprevious := ih fun i hi => hle i (List.mem_append_left _ hi)
    have hlast := hle _ List.mem_concat_self _ hd
    exact A.le_trans hlast (hi ▸ hprevious)

namespace Trace

variable {σ : Type} {current : σ → Candidate α} {tracker : σ → ImprovementTracker α}
  {other : Reason → Prop} {step : ℕ → σ → Except (SearchError α) (Iteration α × Verdict σ α)}
  {s : σ} {o : Outcome α}

/-- A search without higher candidates returns no higher value. -/
theorem follow_le (A : Scalar.ExactArithmetic num)
    (hstep : ∀ {k s}, CheckedStep current tracker R other k s (step k s))
    (hs : Scalar.isFinite (current s).value = true) {left k : ℕ}
    (hle : ∀ i ∈ (follow current step left k s).iterations, ∀ d, i.candidate? = some d →
      Scalar.le d.value i.current.value = true)
    (ho : (follow current step left k s).ending = .ok o) :
    Scalar.le o.candidate.value (current s).value = true := by
  have hends := follow_ends current step left k s
  generalize follow current step left k s = t at hle ho hends
  cases hends with
  | error => cases ho
  | stop hc _ hstop =>
    cases ho
    have hbefore := (hc.path hstep).le A hs fun i hi => hle i (List.mem_append_left _ hi)
    have hchecked := hstop ▸ hstep
    cases hchecked with
    | early | exhausted => exact hbefore
    | late hi hd =>
      have hlast := hle _ List.mem_concat_self _ hd
      exact A.le_trans hlast (hi ▸ hbefore)
  | limit hc =>
    cases ho
    exact (hc.path hstep).le A hs hle

/-- Every line search that led to a candidate found a step that falls enough. -/
def Sufficient (settings : LineSearchSettings α) (f : Point α → Except ExpressionError α)
    (g : Point α → Except ExpressionError (Point α)) (t : Trace α) : Prop :=
  ∀ {k i c found}, Numbered t.iterations k i → i.candidate? = some c →
    BacktrackingDescent.Searched settings f g i.current found → found.sufficient = true

/-- A search whose values fall with every sufficient step. -/
structure Falls (num : K → α) (settings : LineSearchSettings α)
    (f : Point α → Except ExpressionError α) (g : Point α → Except ExpressionError (Point α))
    (start : Candidate α) (t : Trace α) : Prop where
  /-- All candidates come from line searches against the gradient. -/
  searched : ∀ {k i c}, Numbered t.iterations k i → i.candidate? = some c →
    ∃ found, BacktrackingDescent.Searched settings f g i.current found ∧ found.candidate = c
  drops : ∀ {k i found}, Numbered t.iterations k i →
    BacktrackingDescent.Searched settings f g i.current found → found.sufficient = true →
    LineSearch.Drops num settings.alpha g i.current found
  walk : t.Sufficient settings f g →
    Walk (fun c d => Scalar.le d.value c.value = true) start t.iterations
  returned : t.Sufficient settings f g → ∀ {o}, t.ending = .ok o →
    Scalar.le o.candidate.value start.value = true

/-- A search that does not begin has no searches to succeed. -/
theorem Falls.failed (e : SearchError α) : Falls num settings f g start ⟨[], .error e⟩ where
  searched hi := absurd hi List.not_mem_nil
  drops hi := absurd hi List.not_mem_nil
  walk _ := ⟨fun hi => absurd hi List.not_mem_nil, fun hi => absurd hi List.not_mem_nil⟩
  returned _ _ h := by cases h

end Trace

theorem BacktrackingDescent.search_falls [IsStrictOrderedRing K] (A : Scalar.ExactArithmetic num)
    (E : Evaluable f g dim) (ho : (LineSearch.ofSettings settings).validate = .ok ())
    (hs : start.Sound f dim) :
    (search settings f g start).Falls num settings f g start := by
  have hsearched {i : Iteration α} {c : Candidate α}
      (hi : i ∈ (search settings f g start).iterations) (hc : i.candidate? = some c) :
      ∃ found, Searched settings f g i.current found ∧ found.candidate = c :=
    Trace.follow_candidate step_checked hi hc
  have hdrops {k : ℕ} {i : Iteration α} {found : LineSearchResult α}
      (hi : Numbered (search settings f g start).iterations k i)
      (hfound : Searched settings f g i.current found) (hsufficient : found.sufficient = true) :
      LineSearch.Drops num settings.alpha g i.current found := by
    obtain ⟨past, t, hc, _, _, hcurrent, _⟩ := Trace.exists_rest step_checked hi
    have hsound : t.current.Sound f dim :=
      hc.sound (P := fun s => s.current.Sound f dim) (step_sound A.zeroAbs E ho) hs
    exact hfound.drops A E ho (hcurrent ▸ hsound) hsufficient
  have hle (hall : (search settings f g start).Sufficient settings f g) {k : ℕ} {i : Iteration α}
      {c : Candidate α} (hi : Numbered (search settings f g start).iterations k i)
      (hc : i.candidate? = some c) : Scalar.le c.value i.current.value = true := by
    obtain ⟨found, hfound, rfl⟩ := hsearched hi.mem hc
    exact (hdrops hi hfound (hall hi hc hfound)).le A
  refine ⟨fun hi hc => hsearched hi.mem hc, hdrops, fun hall => ?_, fun hall o hend => ?_⟩
  · have hwalk : Walk _ start (search settings f g start).iterations :=
      Trace.follow_walk step_checked settings.maxSteps.toNat
        ⟨start, .ofSettings settings.toDescentSettings⟩
    refine ⟨hwalk.first, fun hi hj => ?_⟩
    have hnext := (hwalk.next hi hj).1
    exact ⟨hnext, hle hall hi hnext⟩
  · refine Trace.follow_le A step_checked hs.finite (fun i hi c hc => ?_) hend
    obtain ⟨k, hk⟩ := exists_numbered hi
    exact hle hall hk hc

/-- In exact arithmetic every sufficient step of backtracking descent makes the value fall by
`alpha` times the step times the square of the gradient at least, and a run in which all are
sufficient returns nothing higher than it started from. -/
theorem backtrackingDescent_falls [IsStrictOrderedRing K] (A : Scalar.ExactArithmetic num)
    {settings : LineSearchSettings α} {o : Objective α} {x : Point α} {f : CompiledFunction α}
    {g : CompiledGradient α} {p : Pool α} (hsettings : settings.validate = .ok settings)
    (ho : o.Proper) (hc : (Build.compiled o x.size).run .empty = (.ok (f, g), p)) :
    ∃ v, f.apply x = .ok v ∧ ((Method.backtrackingDescent settings).minimise o x).trace.Falls
      num settings f.apply g.apply ⟨v, x⟩ := by
  have E := Build.compiled_evaluable ho hc
  obtain ⟨v, hv⟩ := E.value (x := x) rfl
  refine ⟨v, hv, ?_⟩
  rw [Method.minimise_trace hc hv]
  split
  · rename_i hfinite
    exact BacktrackingDescent.search_falls A E (LineSearchSettings.validate_ok hsettings).2
      ⟨⟨hv, rfl⟩, hfinite⟩
  · exact .failed _

namespace PartialRational

/-- The square of a single coordinate. -/
def square : Objective PartialRational := fun xs => (Term.unary .sqr (.var 0)).build xs

def twoSteps : LineSearchSettings PartialRational :=
  { maxSteps := 2, normBound := Scalar.nat 0 }

theorem twoSteps_validate : twoSteps.validate = .ok twoSteps := by with_unfolding_all rfl

end PartialRational

open PartialRational in
/-- The first step from `3` is sufficient. -/
theorem backtrackingDescent_falls_square :
    ∃ (f : CompiledFunction PartialRational) (g : CompiledGradient PartialRational)
      (v : PartialRational),
      2 ≤ ((Method.backtrackingDescent twoSteps).minimise square
        #[some 3]).trace.iterations.length ∧
      (∃ found, BacktrackingDescent.Searched twoSteps f.apply g.apply ⟨v, #[some 3]⟩ found ∧
        found.sufficient = true) ∧
      ((Method.backtrackingDescent twoSteps).minimise square #[some 3]).trace.Falls some twoSteps
        f.apply g.apply ⟨v, #[some 3]⟩ := by
  have hsearch : (match ((Build.compiled square 1).run .empty).1 with
      | .ok (f, g) => match g.apply #[some 3] with
        | .ok d => match (LineSearch.ofSettings twoSteps).search f.apply g.apply #[some 3]
            (Point.flip d) with
          | .ok found => found.sufficient
          | .error _ => false
        | .error _ => false
      | .error _ => false) = true := by decide +kernel
  rcases hc : (Build.compiled square 1).run .empty with ⟨e | ⟨f, g⟩, p⟩
  · rw [hc] at hsearch
    cases hsearch
  · rw [hc] at hsearch
    dsimp only at hsearch
    obtain ⟨v, _, H⟩ := backtrackingDescent_falls (x := #[some 3]) exactArithmetic
      twoSteps_validate (Term.proper _) hc
    refine ⟨f, g, v, by decide +kernel, ?_, H⟩
    split at hsearch
    · rename_i d hd
      split at hsearch
      · rename_i found hfound
        exact ⟨found, ⟨d, hd, hfound⟩, hsearch⟩
      · cases hsearch
    · cases hsearch

end Downhill
