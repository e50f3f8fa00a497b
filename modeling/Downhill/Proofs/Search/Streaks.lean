import Downhill.Proofs.Search.Checks
import Downhill.Proofs.Search.Outcomes

/-!
# Streaks without improvement

The tracker counts the iterations in a row that do not improve, and a search ends when there are as
many as its patience. So the count is that of the iterations at the end of the past that do not
improve (`Streak`), and it comes to the patience with the first window of so many iterations that do
not improve (`minimise_stops_exactly`).
-/

namespace Downhill

variable {α : Type} [Scalar α] {t t' : ImprovementTracker α} {l past : List (Iteration α)}
  {i : Iteration α} {c : Candidate α} {k n : Nat} {u v : α} {b : Bool}

/-! ## The tracker -/

/-- A check either starts a new streak or adds to the one that there is. -/
theorem ImprovementTracker.update_cases (H : t.update u v = .ok (b, t')) :
    t.isImprovement u v = .ok true ∧ b = false ∧ t' = { t with streak := 0 } ∨
      t.isImprovement u v = .ok false ∧ b = decide (t.patience ≤ t.streak + 1) ∧
        t' = { t with streak := t.streak + 1 } := by
  rw [update] at H
  cases hi : t.isImprovement u v with
  | error e => rw [hi] at H; cases H
  | ok improves =>
    rw [ok_bind hi] at H
    cases improves with
    | true => cases H; exact .inl ⟨rfl, rfl, rfl⟩
    | false => cases H; exact .inr ⟨rfl, rfl, rfl⟩

/-! ## Windows -/

/-- Iteration `k` came to its check and did not improve. -/
def Stalls (t : ImprovementTracker α) (l : List (Iteration α)) (k : Nat) : Prop :=
  ∃ i c, Numbered l k i ∧ i.candidate? = some c ∧
    t.isImprovement i.current.value c.value = .ok false

/-- As many iterations as the patience do not improve, the last of them being iteration `k`. -/
def Window (t : ImprovementTracker α) (l : List (Iteration α)) (k : Nat) : Prop :=
  t.patience ≤ k ∧ ∀ j : Nat, k - t.patience < j → j ≤ k → Stalls t l j

theorem stalls_push (hk : k ≤ past.length) : Stalls t (past ++ [i]) k ↔ Stalls t past k := by
  constructor
  · rintro ⟨j, c, hj, H⟩
    exact ⟨j, c, hj.before hk, H⟩
  · rintro ⟨j, c, hj, H⟩
    exact ⟨j, c, numbered_push.mpr (.inl hj), H⟩

theorem window_push (hk : k ≤ past.length) : Window t (past ++ [i]) k ↔ Window t past k := by
  have hstalls {j : Nat} (hj : j ≤ k) := stalls_push (t := t) (i := i) (hj.trans hk)
  constructor
  · rintro ⟨hle, H⟩
    exact ⟨hle, fun j hlt hj => (hstalls hj).mp (H j hlt hj)⟩
  · rintro ⟨hle, H⟩
    exact ⟨hle, fun j hlt hj => (hstalls hj).mpr (H j hlt hj)⟩

theorem stalls_last : Stalls t (past ++ [i]) (past.length + 1) ↔
    ∃ c, i.candidate? = some c ∧ t.isImprovement i.current.value c.value = .ok false := by
  constructor
  · rintro ⟨j, c, hj, H⟩
    cases hj.unique numbered_last
    exact ⟨c, H⟩
  · rintro ⟨c, H⟩
    exact ⟨i, c, numbered_last, H⟩

/-! ## Streaks -/

/-- The last `n` iterations do not improve and no more than these, and there was no window yet. -/
structure Streak (t : ImprovementTracker α) (past : List (Iteration α)) (n : Nat) : Prop where
  short : n < t.patience
  le : n ≤ past.length
  stalls : ∀ {k}, past.length < k + n → k ≤ past.length → Stalls t past k
  broken : ¬Stalls t past (past.length - n)
  quiet : ∀ {k}, k ≤ past.length → ¬Window t past k

namespace Streak

theorem start (h0 : 0 < t.patience) : Streak t [] 0 where
  short := h0
  le := le_rfl
  stalls {k} hlt hle := by
    rw [List.length_nil] at hlt hle
    omega
  broken := fun ⟨_, _, hi, _⟩ => nomatch hi
  quiet {k} hk hw := by
    have := hw.1
    rw [List.length_nil] at hk
    omega

/-- Without a window at the end of one more iteration there is none at all. -/
theorem quiet_push (H : Streak t past n) (hi : ¬Window t (past ++ [i]) (past.length + 1))
    (hk : k ≤ (past ++ [i]).length) : ¬Window t (past ++ [i]) k := by
  rw [List.length_append, List.length_singleton] at hk
  rcases Nat.lt_or_eq_of_le hk with hlt | rfl
  · have hk := Nat.le_of_lt_succ hlt
    exact mt (window_push hk).mp (H.quiet hk)
  · exact hi

/-- An iteration that improves, or does not come to its check, breaks a streak. -/
theorem improve (H : Streak t past n) (hi : ¬Stalls t (past ++ [i]) (past.length + 1)) :
    Streak t (past ++ [i]) 0 := by
  have hlength : (past ++ [i]).length = past.length + 1 := List.length_append
  have hshort := H.short
  refine ⟨by omega, Nat.zero_le _, fun hlt hle => by omega, by rwa [hlength], ?_⟩
  intro k
  refine H.quiet_push fun hw => hi ?_
  exact hw.2 _ (by omega) le_rfl

/-- One more iteration that does not improve. -/
theorem stall (H : Streak t past n) (hi : Stalls t (past ++ [i]) (past.length + 1))
    (hshort : (n + 1 : Nat) < t.patience) : Streak t (past ++ [i]) (n + 1) := by
  have hlength : (past ++ [i]).length = past.length + 1 := List.length_append
  have hle := H.le
  refine ⟨hshort, by omega, ?_, ?_, ?_⟩
  · intro k hlt hk
    rcases Nat.lt_or_eq_of_le (hlength ▸ hk) with hbefore | rfl
    · have hk := Nat.le_of_lt_succ hbefore
      exact (stalls_push hk).mpr (H.stalls (by omega) hk)
    · exact hi
  · rw [hlength, Nat.add_sub_add_right, stalls_push (Nat.sub_le ..)]
    exact H.broken
  · intro k
    -- A window would reach back to the iteration that broke the streak before.
    refine H.quiet_push fun hw => H.broken ?_
    have hpatience := hw.1
    exact (stalls_push (Nat.sub_le ..)).mp (hw.2 (past.length - n) (by omega) (by omega))

/-- The last straw. -/
theorem window (H : Streak t past n) (hi : Stalls t (past ++ [i]) (past.length + 1))
    (hlong : t.patience ≤ (n + 1 : Nat)) : Window t (past ++ [i]) (past.length + 1) := by
  have hle := H.le
  refine ⟨by omega, ?_⟩
  intro j hlt hj
  rcases Nat.lt_or_eq_of_le hj with hbefore | rfl
  · have hj := Nat.le_of_lt_succ hbefore
    exact (stalls_push hj).mpr (H.stalls (by omega) hj)
  · exact hi

/-- A check that lets the search go on. -/
theorem goes_on (H : Streak t past n) (hc : i.candidate? = some c)
    (hu : { t with streak := n }.update i.current.value c.value = .ok (false, t')) :
    ∃ m : Nat, Streak t (past ++ [i]) m ∧ t' = { t with streak := m } := by
  rcases ImprovementTracker.update_cases hu with ⟨hi, _, ht⟩ | ⟨hi, hb, ht⟩
  · refine ⟨0, H.improve ?_, ht⟩
    rintro hs
    obtain ⟨d, hd, hs⟩ := stalls_last.mp hs
    cases hc.symm.trans hd
    exact nomatch hi.symm.trans hs
  · have hshort : ¬t.patience ≤ (n : Int) + 1 := of_decide_eq_false hb.symm
    exact ⟨n + 1, H.stall (stalls_last.mpr ⟨c, hc, hi⟩) (by omega), ht⟩

/-- A check that ends the search. -/
theorem ends (H : Streak t past n) (hc : i.candidate? = some c)
    (hu : { t with streak := n }.update i.current.value c.value = .ok (true, t')) :
    Window t (past ++ [i]) (past.length + 1) := by
  rcases ImprovementTracker.update_cases hu with ⟨_, hb, _⟩ | ⟨hi, hb, _⟩
  · cases hb
  · exact H.window (stalls_last.mpr ⟨c, hc, hi⟩) (of_decide_eq_true hb.symm)

end Streak

/-! ## Searches -/

theorem Reason.message_eq_iff {r : Reason} :
    r.message = "Terminating due to no improvement." ↔ r = .noImprovement := by
  cases r <;> decide

/-- A search that ends for want of improvement with the first window and at no other time. -/
structure Trace.StopsExactly (t : ImprovementTracker α) (r : Trace α) : Prop where
  ends_iff : ∀ {k : Nat},
    (∃ o, r.ending = .ok o ∧ o.reason.message = "Terminating due to no improvement." ∧
      o.iterations = k) ↔
    (∃ i c, Numbered r.iterations k i ∧ i.candidate? = some c) ∧ Window t r.iterations k ∧
      ∀ j < k, ¬Window t r.iterations j
  /-- The last candidate is not adopted. -/
  returned : ∀ {o}, r.ending = .ok o → o.reason.message = "Terminating due to no improvement." →
    o.iterations = r.iterations.length ∧
      ∃ i, Numbered r.iterations o.iterations i ∧ o.candidate = i.current
  /-- All candidates before are, improving or not. -/
  adopted : ∀ {k i j}, Numbered r.iterations k i → Numbered r.iterations (k + 1) j →
    i.candidate? = some j.current

namespace Trace

/-- A search without a window ends for another reason. -/
theorem StopsExactly.of_streak {r : Trace α} (H : Streak t r.iterations n)
    (hending : ∀ {o}, r.ending = .ok o → o.reason ≠ .noImprovement)
    (hadopted : ∀ {k i j}, Numbered r.iterations k i → Numbered r.iterations (k + 1) j →
      i.candidate? = some j.current) : r.StopsExactly t where
  ends_iff {k} := by
    constructor
    · rintro ⟨o, ho, hmessage, _⟩
      exact absurd (Reason.message_eq_iff.mp hmessage) (hending ho)
    · rintro ⟨⟨i, _, hi, _⟩, hw, _⟩
      exact absurd hw (H.quiet hi.bounds.2)
  returned ho hmessage := absurd (Reason.message_eq_iff.mp hmessage) (hending ho)
  adopted := hadopted

/-- A search that the last straw ended. -/
theorem StopsExactly.of_window (H : Streak t past n) (hc : i.candidate? = some c)
    (hw : Window t (past ++ [i]) (past.length + 1))
    (hadopted : ∀ {k j j'}, Numbered (past ++ [i]) k j → Numbered (past ++ [i]) (k + 1) j' →
      j.candidate? = some j'.current) :
    StopsExactly t ⟨past ++ [i], .ok ⟨i.current, .noImprovement, past.length + 1⟩⟩ where
  ends_iff {k} := by
    have hquiet {j : Nat} (hj : j ≤ past.length) : ¬Window t (past ++ [i]) j :=
      mt (window_push hj).mp (H.quiet hj)
    constructor
    · rintro ⟨o, ho, _, rfl⟩
      cases ho
      exact ⟨⟨i, c, numbered_last, hc⟩, hw, fun j hj => hquiet (Nat.le_of_lt_succ hj)⟩
    · rintro ⟨⟨j, _, hj, _⟩, hw', _⟩
      refine ⟨_, rfl, rfl, ?_⟩
      rcases numbered_push.mp hj with hj | ⟨rfl, _⟩
      · exact absurd hw' (hquiet hj.bounds.2)
      · rfl
  returned {o} ho _ := by
    cases ho
    have hlength : (past ++ [i]).length = past.length + 1 := List.length_append
    exact ⟨hlength.symm, i, numbered_last, rfl⟩
  adopted := hadopted

variable {σ : Type} {current : σ → Candidate α} {tracker : σ → ImprovementTracker α}
  {R : Candidate α → Candidate α → Prop} {other : Reason → Prop}
  {step : Nat → σ → Except (SearchError α) (Iteration α × Verdict σ α)} {s s' : σ}

/-- The tracker has counted the iterations at the end that do not improve. -/
theorem Continues.streak (hstep : ∀ {k s}, CheckedStep current tracker R other k s (step k s))
    (h0 : 0 < (tracker s).patience) (hs : (tracker s).streak = 0)
    (H : Continues step k s past s') :
    ∃ n : Nat, Streak (tracker s) past n ∧ tracker s' = { tracker s with streak := n } := by
  induction H with
  | rfl =>
    refine ⟨0, .start h0, ?_⟩
    rw [Int.ofNat_zero, ← hs]
  | next _ hu ih =>
    obtain ⟨n, hn, ht⟩ := ih
    have hchecked := hu ▸ hstep
    cases hchecked with
    | next hi hc _ hupdate =>
      rw [← hi, ht] at hupdate
      exact hn.goes_on hc hupdate

theorem follow_stops_exactly (hstep : ∀ {k s}, CheckedStep current tracker R other k s (step k s))
    (hother : ¬other .noImprovement) (s : σ) (h0 : 0 < (tracker s).patience)
    (hs : (tracker s).streak = 0) (left : Nat) :
    (follow current step left 1 s).StopsExactly (tracker s) := by
  have hadopted {k i j} (hi : Numbered (follow current step left 1 s).iterations k i)
      (hj : Numbered (follow current step left 1 s).iterations (k + 1) j) :=
    ((follow_walk hstep left s).next hi hj).1
  have hends := follow_ends current step left 1 s
  generalize follow current step left 1 s = r at hadopted hends ⊢
  have unchecked {past : List (Iteration α)} {i : Iteration α} (hi : i.candidate? = none) :
      ¬Stalls (tracker s) (past ++ [i]) (past.length + 1) := by
    intro H
    obtain ⟨c, hc, _⟩ := stalls_last.mp H
    exact nomatch hi.symm.trans hc
  have other_ne {r : Reason} (hr : other r) : r ≠ .noImprovement := by
    rintro rfl
    exact hother hr
  cases hends with
  | error hc =>
    obtain ⟨n, hn, _⟩ := hc.streak hstep h0 hs
    exact .of_streak (hn.improve (unchecked rfl)) nofun hadopted
  | stop hc _ ho =>
    obtain ⟨n, hn, ht⟩ := hc.streak hstep h0 hs
    have hchecked := ho ▸ hstep
    cases hchecked with
    | early _ hnone hr =>
      refine .of_streak (hn.improve (unchecked hnone)) ?_ hadopted
      rintro o ho
      cases ho
      exact other_ne hr
    | exhausted hi hc _ hu =>
      rw [← hi, ht] at hu
      rw [← hi, Nat.add_comm]
      exact .of_window hn hc (hn.ends hc hu) hadopted
    | late hi hc _ hu hr =>
      rw [← hi, ht] at hu
      obtain ⟨m, hm, _⟩ := hn.goes_on hc hu
      refine .of_streak hm ?_ hadopted
      rintro o ho
      cases ho
      exact other_ne hr
  | limit hc =>
    obtain ⟨n, hn, _⟩ := hc.streak hstep h0 hs
    refine .of_streak hn ?_ hadopted
    rintro o ho
    cases ho
    exact nofun

end Trace

namespace Method

/-- The settings that every strategy has. -/
def descent : Method α → DescentSettings α
  | gradientDescent s => s
  | backtrackingDescent s | conjugateGradient s => s.toDescentSettings

variable {m : Method α}

theorem patience_pos (hm : m.Validated) : 0 < m.descent.patience := by
  cases m with
  | gradientDescent s => exact (DescentSettings.validate_ok hm).2
  | backtrackingDescent s | conjugateGradient s => exact (LineSearchSettings.validate_ok hm).1.2

/-- A search that does not begin has no window either. -/
theorem stops_exactly_failed (hm : m.Validated) (e : SearchError α) :
    Trace.StopsExactly (.ofSettings m.descent) ⟨[], .error e⟩ :=
  .of_streak (.start (patience_pos hm)) nofun nofun

theorem search_stops_exactly (hm : m.Validated) (f : Point α → Except ExpressionError α)
    (g : Point α → Except ExpressionError (Point α)) (c : Candidate α) :
    (m.search f g c).StopsExactly (.ofSettings m.descent) := by
  have h0 := patience_pos hm
  cases m with
  | gradientDescent s =>
    exact Trace.follow_stops_exactly GradientDescent.step_checked id ⟨c, .ofSettings s⟩ h0 rfl _
  | backtrackingDescent s =>
    have hother : ¬Reason.noImprovement = .smallGradient := by decide
    exact Trace.follow_stops_exactly BacktrackingDescent.step_checked hother
      ⟨c, .ofSettings s.toDescentSettings⟩ h0 rfl _
  | conjugateGradient s =>
    rw [search, ConjugateGradient.search]
    split
    · exact stops_exactly_failed hm _
    · rename_i gradient _
      have hother : ¬Reason.noImprovement = .smallDirection := by decide
      exact Trace.follow_stops_exactly ConjugateGradient.step_checked hother
        ⟨c, gradient, gradient.flip, .ofSettings s.toDescentSettings⟩ h0 rfl _

end Method

/-- With validated settings a search ends for want of improvement neither earlier nor later than
with the first window of iterations that do not improve, and returns what was current before the
last. -/
theorem minimise_stops_exactly {m : Method α} (hm : m.Validated) (o : Objective α) (x : Point α) :
    (m.minimise o x).trace.StopsExactly (.ofSettings m.descent) := by
  rw [Method.minimise]
  split
  · exact Method.stops_exactly_failed hm _
  · rename_i f g _
    rw [Method.start]
    split
    · exact Method.stops_exactly_failed hm _
    split
    · exact Method.search_stops_exactly hm f.apply g.apply _
    · exact Method.stops_exactly_failed hm _

/-- Two steps improve by one at least and two do not. -/
theorem minimise_stops_exactly_square :
    ∃ m : Method Float, m.Validated ∧
      Window (.ofSettings m.descent) (m.minimise squareObjective #[3]).trace.iterations 4 ∧
      ¬Window (.ofSettings m.descent) (m.minimise squareObjective #[3]).trace.iterations 3 := by
  have hm : (Method.gradientDescent { minAbsolute := 1 } : Method Float).Validated := rfl
  have hends : (match ((Method.gradientDescent { minAbsolute := 1 } : Method Float).minimise
        squareObjective #[3]).trace.ending with
      | .ok o => decide (o.reason = .noImprovement ∧ o.iterations = 4)
      | .error _ => false) = true := by decide +kernel
  have H := minimise_stops_exactly hm squareObjective #[3]
  refine ⟨_, hm, ?_⟩
  split at hends
  · rename_i o ho
    obtain ⟨hreason, hk⟩ := of_decide_eq_true hends
    obtain ⟨_, hw, hfirst⟩ := H.ends_iff.mp ⟨o, ho, Reason.message_eq_iff.mpr hreason, hk⟩
    exact ⟨hw, hfirst 3 (by decide)⟩
  · cases hends

end Downhill
