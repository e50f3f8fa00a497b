import Downhill.Search.Trace

/-!
# Following a search

What the states of a search have in common is kept by each of its steps (`Continues.keeps`), and a
search ends in one of three ways: a step fails, a step stops, or no step is left (`follow_ends`).
Its trace holds what the steps saw until then, and from any iteration on it is the trace of a search
of its own (`Continues.follow_eq`).
-/

namespace Downhill.Trace

/-- From a state before iteration `k`, steps that see `past` go on to a later state. -/
inductive Continues (step : Nat → σ → Except (SearchError α) (Iteration α × Verdict σ α)) (k : Nat)
    (s : σ) : List (Iteration α) → σ → Prop where
  | rfl : Continues step k s [] s
  | next : Continues step k s past t → step (k + past.length) t = .ok (i, .continue u) →
    Continues step k s (past ++ [i]) u

/-- How a search ends that begins with iteration `k` and takes at most `left` steps. -/
inductive Ends (current : σ → Candidate α)
    (step : Nat → σ → Except (SearchError α) (Iteration α × Verdict σ α)) (left k : Nat) (s : σ) :
    Trace α → Prop where
  | error : Continues step k s past t → past.length < left → step (k + past.length) t = .error e →
    Ends current step left k s ⟨past ++ [{ current := current t }], .error e⟩
  | stop : Continues step k s past t → past.length < left →
    step (k + past.length) t = .ok (i, .stop o) → Ends current step left k s ⟨past ++ [i], .ok o⟩
  | limit : Continues step k s past t → past.length = left →
    Ends current step left k s ⟨past, .ok ⟨current t, .stepLimit, k + left - 1⟩⟩

variable {σ α : Type} {current : σ → Candidate α}
  {step : Nat → σ → Except (SearchError α) (Iteration α × Verdict σ α)} {left k : Nat} {s t u : σ}
  {past its : List (Iteration α)} {i : Iteration α} {r : Except (SearchError α) (Outcome α)}

namespace Continues

theorem first (hs : step k s = .ok (i, .continue t)) (H : Continues step (k + 1) t past u) :
    Continues step k s (i :: past) u := by
  induction H with
  | rfl => exact .next .rfl hs
  | @next past v j w _ hv ih =>
    have hk : k + 1 + past.length = k + (i :: past).length := by
      rw [List.length_cons]
      omega
    exact ih.next (hk ▸ hv)

/-- What every step keeps holds of all states that are reached. -/
theorem keeps {P : σ → Prop}
    (hstep : ∀ {k s i t}, P s → step k s = .ok (i, .continue t) → P t)
    (H : Continues step k s past t) (hs : P s) : P t := by
  induction H with
  | rfl => exact hs
  | next _ hu ih => exact hstep ih hu

end Continues

theorem Ends.first (hs : step k s = .ok (i, .continue t))
    (H : Ends current step left (k + 1) t ⟨its, r⟩) :
    Ends current step (left + 1) k s ⟨i :: its, r⟩ := by
  have hk (past : List (Iteration α)) : k + 1 + past.length = k + (i :: past).length := by
    rw [List.length_cons]
    omega
  cases H with
  | error hc hl he => exact .error (hc.first hs) (Nat.succ_lt_succ hl) (hk _ ▸ he)
  | stop hc hl ho => exact .stop (hc.first hs) (Nat.succ_lt_succ hl) (hk _ ▸ ho)
  | limit hc hl =>
    rw [show k + 1 + left - 1 = k + (left + 1) - 1 by omega]
    exact .limit (hc.first hs) (congrArg Nat.succ hl)

theorem follow_ends (current : σ → Candidate α)
    (step : Nat → σ → Except (SearchError α) (Iteration α × Verdict σ α)) (left k : Nat) (s : σ) :
    Ends current step left k s (follow current step left k s) := by
  induction left generalizing k s with
  | zero => exact .limit .rfl rfl
  | succ left ih =>
    rw [follow]
    split
    · rename_i e he
      exact .error .rfl left.succ_pos he
    · rename_i i o ho
      exact .stop .rfl left.succ_pos ho
    · rename_i i t ht
      exact (ih (k + 1) t).first ht

/-! ## The rest of a search -/

/-- What follows after some steps. -/
theorem Continues.follow_eq (H : Continues step k s past t) (hl : past.length ≤ left) :
    follow current step left k s =
      ⟨past ++ (follow current step (left - past.length) (k + past.length) t).iterations,
        (follow current step (left - past.length) (k + past.length) t).ending⟩ := by
  induction H with
  | rfl => rfl
  | @next past t i u _ hu ih =>
    rw [List.length_append, List.length_singleton] at hl
    have hleft : left - past.length = left - (past.length + 1) + 1 := by omega
    rw [ih (Nat.le_of_succ_le hl), hleft, follow, hu, List.length_append, List.length_singleton,
      List.append_assoc]
    rfl

/-- A search that sees an iteration has come to a state before it. -/
theorem exists_continues {j : Nat} (hj : j < (follow current step left k s).iterations.length) :
    ∃ past t, Continues step k s past t ∧ past.length = j ∧ j < left := by
  induction left generalizing k s j with
  | zero => exact absurd hj (Nat.not_lt_zero _)
  | succ left ih =>
    cases j with
    | zero => exact ⟨[], s, .rfl, rfl, left.succ_pos⟩
    | succ j =>
      rw [follow] at hj
      split at hj
      · exact absurd (Nat.lt_of_succ_lt_succ hj) (Nat.not_lt_zero _)
      · exact absurd (Nat.lt_of_succ_lt_succ hj) (Nat.not_lt_zero _)
      · rename_i i t ht
        obtain ⟨past, u, hc, rfl, hlt⟩ := ih (Nat.lt_of_succ_lt_succ hj)
        exact ⟨i :: past, u, hc.first ht, rfl, Nat.succ_lt_succ hlt⟩

end Downhill.Trace
