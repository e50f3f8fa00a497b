import Downhill.Proofs.Scalar.Zeros
import Downhill.Proofs.Search.Descent
import Downhill.Proofs.Search.Streaks

/-!
# Searches that stall

Gradient descent that finds nothing lower stays where it is, and so it tries the same steps again.
A number less itself is zero (`Scalar.NoDrop`), which is no improvement: the streak grows by one
with every iteration (`GradientDescent.step_stalled`) until there are as many as the patience, or no
step is left (`GradientDescent.follow_stalled`). The rest of a run is therefore known from the first
iteration that stalls (`gradientDescent_stays`).
-/

namespace Downhill

open scoped Scalar

variable {α : Type} [Scalar α]

/-- A finite number less itself is below all that is positive. -/
def Scalar.NoDrop (α : Type) [Scalar α] : Prop :=
  ∀ {v m : α}, isFinite v = true → lt (nat 0) m = true → lt (v - v) m = true

theorem Double.noDrop : Scalar.NoDrop Float := by
  intro v m hv hm
  rw [lt_iff] at hm ⊢
  exact (congrArg (·.lt m.toModel.unpack) (unpack_sub_self hv)).trans hm

/-- The same value again is one more step without improvement. -/
theorem ImprovementTracker.update_self {t : ImprovementTracker α} {v : α} (hd : Scalar.NoDrop α)
    (hv : Scalar.isFinite v = true) (hm : Scalar.lt (Scalar.nat 0) t.minAbsolute = true) :
    t.update v v =
      .ok (decide (t.patience ≤ t.streak + 1), { t with streak := t.streak + 1 }) := by
  have himprovement : t.isImprovement v v = .ok false := if_pos (hd hv hm)
  rw [update, ok_bind himprovement]
  rfl

namespace GradientDescent

variable {settings : DescentSettings α} {f : Point α → Except ExpressionError α}
  {g : Point α → Except ExpressionError (Point α)} {c start : Candidate α} {dim k : ℕ}
  {s : State α} {i : Iteration α}

/-! ## Steps -/

/-- There is a finite trial, and none is lower than the candidate. -/
structure Stalled (settings : DescentSettings α) (f : Point α → Except ExpressionError α)
    (g : Point α → Except ExpressionError (Point α)) (c : Candidate α) : Prop where
  finite : ∃ t, Trial settings f g c.point t ∧ Scalar.isFinite t.value = true
  none_lower : ∀ {t}, Trial settings f g c.point t → Scalar.isFinite t.value = true →
    Scalar.lt t.value c.value = false

/-- Of equal candidates the first one is kept. -/
theorem best_eq_first {others : List (Candidate α)}
    (H : ∀ c ∈ others, Scalar.lt c.value start.value = false) : best start others = start := by
  induction others with
  | nil => rfl
  | cons c others ih =>
    rw [best_cons, H c List.mem_cons_self, if_neg Bool.false_ne_true]
    exact ih fun c hc => H c (List.mem_cons_of_mem _ hc)

/-- What a step goes on with that finds nothing lower. -/
def State.linger (s : State α) : State α :=
  { s with tracker := { s.tracker with streak := s.tracker.streak + 1 } }

/-- Whether a candidate stalls shows in the samples that a step keeps. -/
theorem stalled_iff {d : Point α} {all : List (α × Candidate α)} (hg : g c.point = .ok d)
    (hall : stepSizes.mapM (sample f settings.stepFactor c.point d) = .ok all) :
    Stalled settings f g c ↔ (all.filter fun t => Scalar.isFinite t.2.value).isEmpty = false ∧
      ∀ t ∈ all.filter fun t => Scalar.isFinite t.2.value,
        Scalar.lt t.2.value c.value = false := by
  have htrial {t : Candidate α} : Trial settings f g c.point t ↔ ∃ size, (size, t) ∈ all :=
    trial_iff hg hall
  simp only [List.isEmpty_eq_false_iff_exists_mem, List.mem_filter]
  constructor
  · rintro ⟨⟨t, ht, hfinite⟩, hnone⟩
    obtain ⟨size, hmem⟩ := htrial.mp ht
    exact ⟨⟨_, hmem, hfinite⟩, fun t ht => hnone (htrial.mpr ⟨t.1, ht.1⟩) ht.2⟩
  · rintro ⟨⟨t, hmem, hfinite⟩, hnone⟩
    refine ⟨⟨t.2, htrial.mpr ⟨t.1, hmem⟩, hfinite⟩, fun ht hfinite => ?_⟩
    obtain ⟨size, hmem⟩ := htrial.mp ht
    exact hnone _ ⟨hmem, hfinite⟩

/-- A test for candidates that stall where all samples can be evaluated. -/
def stalls (settings : DescentSettings α) (f : Point α → Except ExpressionError α)
    (g : Point α → Except ExpressionError (Point α)) (c : Candidate α) : Bool :=
  match g c.point with
  | .error _ => false
  | .ok d =>
    match stepSizes.mapM (sample f settings.stepFactor c.point d) with
    | .error _ => false
    | .ok all =>
      let samples := all.filter fun t => Scalar.isFinite t.2.value
      !samples.isEmpty && samples.all fun t => !Scalar.lt t.2.value c.value

theorem stalled_of_stalls (H : stalls settings f g c = true) : Stalled settings f g c := by
  rw [stalls] at H
  split at H
  · cases H
  rename_i d hg
  split at H
  · cases H
  rename_i all hall
  obtain ⟨hsome, hnone⟩ := Bool.and_eq_true_iff.mp H
  refine (stalled_iff hg hall).mpr ⟨(Bool.not_eq_true' _).mp hsome, fun t ht => ?_⟩
  exact (Bool.not_eq_true' _).mp (List.all_eq_true.mp hnone t ht)

theorem step_stalled (hd : Scalar.NoDrop α) (E : Evaluable f g dim) (hs : s.current.Sound f dim)
    (hm : Scalar.lt (Scalar.nat 0) s.tracker.minAbsolute = true)
    (H : Stalled settings f g s.current) :
    ∃ i, i.current = s.current ∧ step settings f g k s =
      .ok (i, if s.tracker.patience ≤ s.tracker.streak + 1 then
        .stop ⟨s.current, .noImprovement, k⟩ else .continue s.linger) := by
  obtain ⟨d, hg, hsize⟩ := E.gradient hs.size
  obtain ⟨all, hall, _⟩ := samples_ok E hs.size hsize settings.stepFactor
  obtain ⟨hsome, hnone⟩ := (stalled_iff hg hall).mp H
  rw [step, mapError_ok_bind hg, ok_bind hall]
  dsimp only
  generalize List.filter _ all = samples at hsome hnone ⊢
  have hbest : best s.current (samples.map (·.2)) = s.current := by
    refine best_eq_first fun c hc => ?_
    obtain ⟨t, ht, rfl⟩ := List.mem_map.mp hc
    exact hnone t ht
  rw [hsome, if_neg Bool.false_ne_true, hbest,
    mapError_ok_bind (ImprovementTracker.update_self hd hs.finite hm)]
  by_cases hstop : s.tracker.patience ≤ s.tracker.streak + 1
  · rw [if_pos hstop, decide_eq_true hstop]
    exact ⟨_, rfl, rfl⟩
  · rw [if_neg hstop, decide_eq_false hstop]
    exact ⟨_, rfl, rfl⟩

/-! ## Runs -/

/-- A search that stalls goes on for as long as the streak falls short of the patience. -/
theorem follow_stalled (left : ℕ) (hd : Scalar.NoDrop α) (E : Evaluable f g dim)
    (hs : s.current.Sound f dim) (hm : Scalar.lt (Scalar.nat 0) s.tracker.minAbsolute = true)
    (H : Stalled settings f g s.current) {lacking : ℕ}
    (hpatience : s.tracker.patience = s.tracker.streak + 1 + lacking) :
    (∀ i ∈ (Trace.follow State.current (step settings f g) left k s).iterations,
      i.current = s.current) ∧
    (Trace.follow State.current (step settings f g) left k s).ending =
      .ok (if lacking < left then ⟨s.current, .noImprovement, k + lacking⟩
        else ⟨s.current, .stepLimit, k + left - 1⟩) := by
  induction left generalizing k s lacking with
  | zero =>
    rw [if_neg (Nat.not_lt_zero _)]
    exact ⟨nofun, rfl⟩
  | succ left ih =>
    obtain ⟨i, hi, hstep⟩ := step_stalled (k := k) hd E hs hm H
    rw [Trace.follow, hstep]
    cases lacking with
    | zero =>
      rw [if_pos (by omega), if_pos left.succ_pos]
      exact ⟨fun j hj => List.mem_singleton.mp hj ▸ hi, rfl⟩
    | succ lacking =>
      rw [if_neg (by omega)]
      -- The next state stalls as well: it differs in its streak only.
      obtain ⟨hcurrent, hending⟩ := ih (k := k + 1) (s := s.linger) hs hm H
        (show s.tracker.patience = s.tracker.streak + 1 + 1 + lacking by omega)
      refine ⟨fun j hj => ?_, ?_⟩
      · rcases List.mem_cons.mp hj with rfl | hj
        · exact hi
        · exact hcurrent j hj
      · rw [Nat.add_right_comm k 1, Nat.add_right_comm k 1] at hending
        simp only [Nat.add_lt_add_iff_right, ← Nat.add_assoc]
        exact hending

end GradientDescent

open GradientDescent

variable {settings : DescentSettings α} {f : Point α → Except ExpressionError α}
  {g : Point α → Except ExpressionError (Point α)} {c start : Candidate α} {dim k : ℕ}
  {i : Iteration α}

/-- A search that stays at a candidate from iteration `k` on. It ends when the streak that there was
before has grown to the patience, unless it runs out of steps. -/
structure Trace.StaysFrom (settings : DescentSettings α) (k : ℕ) (c : Candidate α) (t : Trace α) :
    Prop where
  current : ∀ {j i}, k ≤ j → Numbered t.iterations j i → i.current = c
  ending : ∃ streak : ℕ, Streak (.ofSettings settings) (t.iterations.take (k - 1)) streak ∧
    t.ending = .ok (if k + settings.patience - 1 - streak ≤ settings.maxSteps then
      ⟨c, .noImprovement, (k + settings.patience - 1 - streak).toNat⟩
      else ⟨c, .stepLimit, settings.maxSteps.toNat⟩)

theorem Trace.StaysFrom.of_rest {past rest : List (Iteration α)} {n lacking : ℕ}
    (hsteps : past.length < settings.maxSteps) (hn : Streak (.ofSettings settings) past n)
    (hpatience : settings.patience = (n : ℤ) + 1 + lacking)
    (hcurrent : ∀ i ∈ rest, i.current = c) :
    StaysFrom settings (past.length + 1) c ⟨past ++ rest,
      .ok (if lacking < settings.maxSteps.toNat - past.length then
        ⟨c, .noImprovement, past.length + 1 + lacking⟩
        else ⟨c, .stepLimit, past.length + 1 + (settings.maxSteps.toNat - past.length) - 1⟩)⟩ where
  current hj hi := hcurrent _ ((numbered_append hj).mp hi).mem
  ending := by
    refine ⟨n, ?_, ?_⟩
    · rw [Nat.add_sub_cancel, List.take_left]
      exact hn
    · have hlast : ((past.length + 1 : ℕ) : ℤ) + settings.patience - 1 - n =
          ((past.length + 1 + lacking : ℕ) : ℤ) := by omega
      have hlimit : past.length + 1 + (settings.maxSteps.toNat - past.length) - 1 =
          settings.maxSteps.toNat := by omega
      have hiff : ((past.length + 1 + lacking : ℕ) : ℤ) ≤ settings.maxSteps ↔
          lacking < settings.maxSteps.toNat - past.length := by omega
      rw [hlast, Int.toNat_natCast, hlimit]
      simp only [hiff]

theorem GradientDescent.search_stays (hd : Scalar.NoDrop α) (hz : Scalar.ZeroAbs α)
    (E : Evaluable f g dim) (hsettings : settings.validate = .ok settings)
    (hm : Scalar.lt (Scalar.nat 0) settings.minAbsolute = true) (hs : start.Sound f dim)
    (hi : Numbered (search settings f g start).iterations k i)
    (H : Stalled settings f g i.current) :
    (search settings f g start).StaysFrom settings k i.current := by
  obtain ⟨hsteps, hpatience⟩ := DescentSettings.validate_ok hsettings
  obtain ⟨past, t, hc, hleft, rfl, hfirst, hsearch⟩ := Trace.exists_rest step_checked hi
  obtain ⟨n, hn, htracker⟩ := hc.streak step_checked
    (show 0 < (ImprovementTracker.ofSettings settings).patience from hpatience) rfl
  have hsound : t.current.Sound f dim :=
    hc.sound (P := fun s => s.current.Sound f dim) (step_sound hz E) hs
  -- The streak before has not come to the patience yet, or the search would have ended.
  obtain ⟨lacking, hlacking⟩ : ∃ lacking : ℕ, settings.patience = (n : ℤ) + 1 + lacking := by
    have hshort : (n : ℤ) < settings.patience := hn.short
    exact ⟨(settings.patience - n - 1).toNat, by omega⟩
  rw [hfirst] at H ⊢
  have hminimum : Scalar.lt (Scalar.nat 0) t.tracker.minAbsolute = true := by
    rw [htracker]
    exact hm
  have hfalls : t.tracker.patience = t.tracker.streak + 1 + lacking := by
    rw [htracker]
    exact hlacking
  obtain ⟨hcurrent, hending⟩ := follow_stalled (k := past.length + 1)
    (settings.maxSteps.toNat - past.length) hd E hsound hminimum H hfalls
  rw [search, hsearch, hending]
  exact .of_rest (by omega) hn hlacking hcurrent

/-- If there is a finite trial and none is lower than the current value, gradient descent stays
where it is. It fails no more, and ends with the last iteration that the streak needs to grow to the
patience, or after all steps. -/
theorem gradientDescent_stays {settings : DescentSettings Float} {o : Objective Float}
    {x : Point Float} {f : CompiledFunction Float} {g : CompiledGradient Float} {p : Pool Float}
    {k : ℕ} {i : Iteration Float} (hsettings : settings.validate = .ok settings)
    (hm : Scalar.lt (Scalar.nat 0) settings.minAbsolute = true) (ho : o.Proper)
    (hc : (Build.compiled o x.size).run .empty = (.ok (f, g), p))
    (hi : Numbered ((Method.gradientDescent settings).minimise o x).trace.iterations k i)
    (H : Stalled settings f.apply g.apply i.current) :
    ((Method.gradientDescent settings).minimise o x).trace.StaysFrom settings k i.current := by
  have E := Build.compiled_evaluable ho hc
  obtain ⟨v, hv⟩ := E.value (x := x) rfl
  rw [Method.minimise_trace hc hv] at hi ⊢
  split at hi
  · rename_i hfinite
    rw [if_pos hfinite]
    exact search_stays Double.noDrop Double.zeroAbs E hsettings hm ⟨⟨hv, rfl⟩, hfinite⟩ hi H
  · exact absurd hi List.not_mem_nil

/-- Steps of which the shortest leads to the other side of a square. -/
def longSteps : DescentSettings Float := { stepFactor := 100 }

/-- The value is the same there, and the other steps lead further up. -/
theorem gradientDescent_stays_square : ∃ v : Float,
    ((Method.gradientDescent longSteps).minimise squareObjective #[3]).trace.StaysFrom
      longSteps 1 ⟨v, #[3]⟩ := by
  have hlength : 0 < ((Method.gradientDescent longSteps).minimise
      squareObjective #[3]).trace.iterations.length := by decide +kernel
  have hstalls : (match ((Build.compiled squareObjective 1).run .empty).1 with
      | .ok (f, g) => (f.apply #[3]).toOption.any fun v =>
        stalls longSteps f.apply g.apply ⟨v, #[3]⟩
      | .error _ => false) = true := by decide +kernel
  obtain ⟨i, l, hi⟩ := List.exists_cons_of_length_pos hlength
  have hfirst : Numbered ((Method.gradientDescent longSteps).minimise
      squareObjective #[3]).trace.iterations 1 i := by
    rw [hi]
    exact List.mem_cons_self
  rcases gradientDescent_descends longSteps squareObjective #[3] with
    ⟨e, he, _⟩ | ⟨f, g, p, v, hc, hv, H⟩
  · rw [he] at hi
    cases hi
  · rw [show (Build.compiled squareObjective 1).run .empty = (.ok (f, g), p) from hc] at hstalls
    dsimp only at hstalls
    rw [hv] at hstalls
    have hcurrent := H.walk.first hfirst
    have hvalid : longSteps.validate = .ok longSteps := rfl
    have hstays := gradientDescent_stays hvalid (by decide +kernel)
      (Term.proper _) hc hfirst (hcurrent ▸ stalled_of_stalls hstalls)
    exact ⟨v, hcurrent ▸ hstays⟩

end Downhill
