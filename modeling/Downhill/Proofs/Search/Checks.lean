import Downhill.Proofs.Search.Following
import Downhill.Search.Method

/-!
# Checks for improvement

Every strategy finds a candidate, has the tracker compare it with the current one, and either stops
because of that or makes it the current one. The strategies differ in how they find the candidate
and in what else ends the search, before the check or after it: `CheckedStep` lists what an
iteration of any of them comes to. So the candidate of every iteration but the last becomes the
current one (`Trace.follow_walk`).
-/

namespace Downhill

variable {α : Type} [Scalar α]

/-- What iteration `k` comes to: the candidate is in a relation to the current one, and there may be
other reasons to stop. -/
inductive CheckedStep {α σ : Type} [Scalar α] (current : σ → Candidate α)
    (tracker : σ → ImprovementTracker α) (R : Candidate α → Candidate α → Prop)
    (other : Reason → Prop) (k : Nat) (s : σ) :
    Except (SearchError α) (Iteration α × Verdict σ α) → Prop where
  | error : CheckedStep current tracker R other k s (.error e)
  /-- The search stops without a check. -/
  | early : i.current = current s → i.candidate? = none → other reason →
    CheckedStep current tracker R other k s (.ok (i, .stop ⟨current s, reason, k⟩))
  /-- The check stops the search. -/
  | exhausted : i.current = current s → i.candidate? = some c → R (current s) c →
    (tracker s).update (current s).value c.value = .ok (true, t) →
    CheckedStep current tracker R other k s (.ok (i, .stop ⟨current s, .noImprovement, k⟩))
  /-- The search stops after the check. -/
  | late : i.current = current s → i.candidate? = some c → R (current s) c →
    (tracker s).update (current s).value c.value = .ok (false, t) → other reason →
    CheckedStep current tracker R other k s (.ok (i, .stop ⟨c, reason, k⟩))
  | next : i.current = current s → i.candidate? = some (current u) → R (current s) (current u) →
    (tracker s).update (current s).value (current u).value = .ok (false, tracker u) →
    CheckedStep current tracker R other k s (.ok (i, .continue u))

/-- A step is what it comes to after each of its computations. -/
theorem CheckedStep.bind {σ β : Type} {current : σ → Candidate α}
    {tracker : σ → ImprovementTracker α} {R : Candidate α → Candidate α → Prop}
    {other : Reason → Prop} {k : Nat} {s : σ} {x : Except (SearchError α) β}
    {f : β → Except (SearchError α) (Iteration α × Verdict σ α)}
    (H : ∀ {b}, x = .ok b → CheckedStep current tracker R other k s (f b)) :
    CheckedStep current tracker R other k s (x >>= f) := by
  cases x with
  | error e => exact .error
  | ok b => exact H rfl

theorem mapError_eq_ok {x : Except ε β} {e : ε → δ} (H : x.mapError e = .ok b) : x = .ok b := by
  cases x with
  | error => cases H
  | ok => cases H; rfl

variable {f : Point α → Except ExpressionError α} {g : Point α → Except ExpressionError (Point α)}
  {k : Nat}

namespace GradientDescent

variable {settings : DescentSettings α} {s : State α}

/-- The best of the current candidate and those of the finite trials. -/
def Competes (settings : DescentSettings α) (f : Point α → Except ExpressionError α)
    (g : Point α → Except ExpressionError (Point α)) (c best : Candidate α) : Prop :=
  ∃ d all, g c.point = .ok d ∧ stepSizes.mapM (sample f settings.stepFactor c.point d) = .ok all ∧
    best = GradientDescent.best c ((all.filter fun t => Scalar.isFinite t.2.value).map (·.2))

theorem step_checked : CheckedStep State.current State.tracker (Competes settings f g)
    (fun _ => False) k s (step settings f g k s) := by
  refine .bind @fun d hd => .bind @fun all hall => ?_
  dsimp only
  split
  · exact .error
  have hbest {c : Candidate α}
      (hc : c = best s.current ((all.filter fun t => Scalar.isFinite t.2.value).map (·.2))) :
      Competes settings f g s.current c := ⟨d, all, mapError_eq_ok hd, hall, hc⟩
  refine .bind @fun (exhausted, tracker) hu => ?_
  cases exhausted with
  | true => exact .exhausted rfl rfl (hbest rfl) (mapError_eq_ok hu)
  | false => exact .next rfl rfl (hbest rfl) (mapError_eq_ok hu)

end GradientDescent

variable {settings : LineSearchSettings α}

namespace BacktrackingDescent

variable {s : State α}

/-- What the line search against the gradient finds from a candidate. -/
def Searched (settings : LineSearchSettings α) (f : Point α → Except ExpressionError α)
    (g : Point α → Except ExpressionError (Point α)) (c : Candidate α)
    (found : LineSearchResult α) : Prop :=
  ∃ d, g c.point = .ok d ∧ (LineSearch.ofSettings settings).search f g c.point d.flip = .ok found

theorem step_checked : CheckedStep State.current State.tracker
    (fun c d => ∃ found, Searched settings f g c found ∧ found.candidate = d)
    (· = .smallGradient) k s (step settings f g k s) := by
  refine .bind @fun d hd => ?_
  dsimp only
  split
  · exact .early rfl rfl rfl
  refine .bind @fun found hfound => ?_
  split
  · exact .error
  have hsearched : ∃ r, Searched settings f g s.current r ∧ r.candidate = found.candidate :=
    ⟨found, ⟨d, mapError_eq_ok hd, hfound⟩, rfl⟩
  refine .bind @fun (exhausted, tracker) hu => ?_
  cases exhausted with
  | true => exact .exhausted rfl rfl hsearched (mapError_eq_ok hu)
  | false => exact .next rfl rfl hsearched (mapError_eq_ok hu)

end BacktrackingDescent

theorem ConjugateGradient.step_checked {s : State α} :
    CheckedStep State.current State.tracker (fun _ _ => True) (· = .smallDirection) k s
      (step settings f g k s) := by
  refine .bind fun _ => ?_
  dsimp only
  split
  · exact .error
  refine .bind fun _ => .bind fun _ => .bind fun _ => .bind @fun (exhausted, tracker) hu => ?_
  cases exhausted with
  | true => exact .exhausted rfl rfl trivial (mapError_eq_ok hu)
  | false =>
    dsimp only
    rw [if_neg Bool.false_ne_true]
    split
    · exact .late rfl rfl trivial (mapError_eq_ok hu) rfl
    · exact .next rfl rfl trivial (mapError_eq_ok hu)

/-! ## Numbered iterations -/

omit [Scalar α]

variable {l past : List (Iteration α)} {i j : Iteration α} {start c : Candidate α}
  {R : Candidate α → Candidate α → Prop}

/-- Iteration `k`, counted from one. -/
def Numbered (l : List (Iteration α)) (k : Nat) (i : Iteration α) : Prop := (i, k) ∈ l.zipIdx 1

theorem numbered_push : Numbered (l ++ [j]) k i ↔ Numbered l k i ∨ k = l.length + 1 ∧ i = j := by
  simp [Numbered, List.zipIdx_append, and_comm, Nat.add_comm]

theorem numbered_last : Numbered (l ++ [j]) (l.length + 1) j := numbered_push.mpr (.inr ⟨rfl, rfl⟩)

/-- The iterations after some others, numbered anew. -/
theorem numbered_append {rest : List (Iteration α)} (hk : past.length < k) :
    Numbered (past ++ rest) k i ↔ Numbered rest (k - past.length) i := by
  rw [Numbered, Numbered, List.mk_mem_zipIdx_iff_le_and_getElem?_sub,
    List.mk_mem_zipIdx_iff_le_and_getElem?_sub, List.getElem?_append_right (by omega),
    Nat.sub_right_comm]
  exact and_congr_left' (by omega)

theorem exists_numbered (H : i ∈ l) : ∃ k, Numbered l k i := by
  obtain ⟨j, hj⟩ := List.mem_iff_getElem?.mp H
  exact ⟨j + 1, List.mk_mem_zipIdx_iff_le_and_getElem?_sub.mpr ⟨Nat.le_add_left .., hj⟩⟩

namespace Numbered

theorem mem (H : Numbered l k i) : i ∈ l := List.fst_mem_of_mem_zipIdx H

theorem bounds (H : Numbered l k i) : 1 ≤ k ∧ k ≤ l.length := by
  obtain ⟨hk, hi⟩ := List.mk_mem_zipIdx_iff_le_and_getElem?_sub.mp H
  obtain ⟨hlt, _⟩ := List.getElem?_eq_some_iff.mp hi
  omega

theorem unique (H : Numbered l k i) (H' : Numbered l k j) : i = j := by
  have hi := (List.mk_mem_zipIdx_iff_le_and_getElem?_sub.mp H).2
  have hj := (List.mk_mem_zipIdx_iff_le_and_getElem?_sub.mp H').2
  exact Option.some.inj (hi.symm.trans hj)

/-- An iteration that is not the last one was there before the last one. -/
theorem before (H : Numbered (l ++ [j]) k i) (hk : k ≤ l.length) : Numbered l k i := by
  rcases numbered_push.mp H with H | ⟨rfl, _⟩
  · exact H
  · omega

end Numbered

/-! ## Walks -/

/-- Every iteration but the last made its candidate the current one of the next. -/
structure Walk (R : Candidate α → Candidate α → Prop) (start : Candidate α)
    (l : List (Iteration α)) : Prop where
  first : ∀ {i}, Numbered l 1 i → i.current = start
  next : ∀ {k i j}, Numbered l k i → Numbered l (k + 1) j →
    i.candidate? = some j.current ∧ R i.current j.current

/-- All iterations so far made their candidates the current ones, of which the last is `c`. -/
inductive Path (R : Candidate α → Candidate α → Prop) (start : Candidate α) :
    List (Iteration α) → Candidate α → Prop where
  | start : Path R start [] start
  | next {c d : Candidate α} {i : Iteration α} {past : List (Iteration α)} : Path R start past c →
    i.current = c → i.candidate? = some d → R c d → Path R start (past ++ [i]) d

namespace Path

theorem walk_push (H : Path R start past c) (hi : i.current = c) : Walk R start (past ++ [i]) := by
  induction H generalizing i with
  | start =>
    constructor
    · intro j hj
      cases hj.unique numbered_last
      exact hi
    · intro k j j' hj hj'
      have hk := hj.bounds
      have hk' := hj'.bounds
      simp only [List.nil_append, List.length_singleton] at hk hk'
      omega
  | @next c d i' past _ hi' hd hR ih =>
    have hwalk := ih hi'
    have hlength : (past ++ [i']).length = past.length + 1 := List.length_append
    constructor
    · intro j hj
      exact hwalk.first (hj.before (by omega))
    · intro k a b ha hb
      have hbefore : Numbered (past ++ [i']) k a := by
        have hk := hb.bounds.2
        rw [List.length_append, List.length_singleton] at hk
        exact ha.before (by omega)
      rcases numbered_push.mp hb with hb | ⟨hk, rfl⟩
      · exact hwalk.next hbefore hb
      · cases Nat.succ.inj (hk.trans (congrArg Nat.succ hlength))
        cases hbefore.unique numbered_last
        rw [hi, hi']
        exact ⟨hd, hR⟩

theorem last (H : Path R start past c) (hi : Numbered past past.length i) :
    i.candidate? = some c ∧ R i.current c := by
  cases H with
  | start => cases hi
  | next _ hj hd hR =>
    rw [List.length_append] at hi
    cases hi.unique numbered_last
    exact ⟨hd, hj ▸ hR⟩

theorem walk (H : Path R start past c) : Walk R start past := by
  cases H with
  | start => exact ⟨nofun, nofun⟩
  | next H hi => exact H.walk_push hi

end Path

/-! ## Searches -/

namespace Trace

variable [Scalar α] {σ : Type} {current : σ → Candidate α} {tracker : σ → ImprovementTracker α}
  {other : Reason → Prop}
  {step : Nat → σ → Except (SearchError α) (Iteration α × Verdict σ α)} {s t : σ}

theorem Continues.path (hstep : ∀ {k s}, CheckedStep current tracker R other k s (step k s))
    (H : Continues step k s past t) : Path R (current s) past (current t) := by
  induction H with
  | rfl => exact .start
  | next _ hu ih =>
    have hchecked := hu ▸ hstep
    cases hchecked with
    | next hi hd hR => exact ih.next hi hd hR

theorem follow_walk (hstep : ∀ {k s}, CheckedStep current tracker R other k s (step k s))
    (left : Nat) (s : σ) : Walk R (current s) (follow current step left k s).iterations := by
  have hends := follow_ends current step left k s
  generalize follow current step left k s = t at hends ⊢
  cases hends with
  | error hc => exact (hc.path hstep).walk_push rfl
  | stop hc _ ho =>
    have hchecked := ho ▸ hstep
    cases hchecked with
    | early hi | exhausted hi | late hi => exact (hc.path hstep).walk_push hi
  | limit hc => exact (hc.path hstep).walk

/-- All candidates are in the relation to what was current, also the last. -/
theorem follow_candidate (hstep : ∀ {k s}, CheckedStep current tracker R other k s (step k s))
    {left : Nat} (hmem : i ∈ (follow current step left k s).iterations)
    (hc : i.candidate? = some c) : R i.current c := by
  induction left generalizing k s with
  | zero => cases hmem
  | succ left ih =>
    rw [follow] at hmem
    split at hmem
    · cases List.mem_singleton.mp hmem
      cases hc
    · rename_i ho
      cases List.mem_singleton.mp hmem
      have hchecked := ho ▸ hstep
      cases hchecked with
      | early _ hnone => cases hnone.symm.trans hc
      | exhausted hi hd hR | late hi hd hR =>
        cases hd.symm.trans hc
        exact hi ▸ hR
    · rename_i ht
      rcases List.mem_cons.mp hmem with rfl | hmem
      · have hchecked := ht ▸ hstep
        cases hchecked with
        | next hi hd hR =>
          cases hd.symm.trans hc
          exact hi ▸ hR
      · exact ih hmem

/-- An iteration is the first of what follows after those before it. -/
theorem exists_rest (hstep : ∀ {k s}, CheckedStep current tracker R other k s (step k s))
    {left : Nat} (hi : Numbered (follow current step left 1 s).iterations k i) :
    ∃ past t, Continues step 1 s past t ∧ past.length < left ∧ k = past.length + 1 ∧
      i.current = current t ∧ follow current step left 1 s =
        ⟨past ++ (follow current step (left - past.length) (past.length + 1) t).iterations,
          (follow current step (left - past.length) (past.length + 1) t).ending⟩ := by
  obtain ⟨hk, hle⟩ := hi.bounds
  obtain ⟨past, t, hc, hpast, hleft⟩ := exists_continues (Nat.sub_one_lt_of_le hk hle)
  rw [← hpast] at hleft
  have hfollow : follow current step left 1 s = _ := hc.follow_eq (Nat.le_of_lt hleft)
  obtain rfl : k = past.length + 1 := by omega
  rw [Nat.add_comm 1] at hfollow
  have hwalk := follow_walk (k := past.length + 1) hstep (left - past.length) t
  rw [hfollow, numbered_append (Nat.lt_add_one _), Nat.add_sub_cancel_left] at hi
  exact ⟨past, t, hc, hleft, rfl, hwalk.first hi, hfollow⟩

end Trace

end Downhill
