import Downhill.Proofs.Scalar.Order
import Downhill.Proofs.Search.Checks
import Downhill.Proofs.Search.Outcomes

/-!
# Gradient descent never moves uphill

Trials whose values are not finite are dropped, and finite numbers are in a linear order
(`Scalar.Ranked`). So the best candidate is no worse than the current one and any trial, and it is
the current one unless it is strictly lower (`Adopts`). Every iteration but the last adopts it,
hence values fall or stay along a run (`gradientDescent_descends`).
-/

namespace Downhill

variable {α β : Type} [Scalar α] [LinearOrder β] {rank : α → β}

namespace GradientDescent

/-! ## The best candidate -/

section

variable {first : Candidate α} {others : List (Candidate α)} (O : Scalar.Ranked rank)
  (hfirst : Scalar.isFinite first.value = true)
  (hothers : ∀ c ∈ others, Scalar.isFinite c.value = true)

include O hfirst hothers

theorem best_le : ∀ c ∈ first :: others, rank (best first others).value ≤ rank c.value := by
  induction others generalizing first with
  | nil =>
    intro c hc
    cases List.mem_singleton.mp hc
    exact le_rfl
  | cons d others ih =>
    have hd := hothers d List.mem_cons_self
    have hothers := fun c hc => hothers c (List.mem_cons_of_mem d hc)
    rw [best_cons]
    split
    · rename_i hlt
      have H := ih hd hothers
      have hle := (H d List.mem_cons_self).trans ((O.lt hd hfirst).mp hlt).le
      intro c hc
      rcases List.mem_cons.mp hc with rfl | hc
      · exact hle
      · exact H c hc
    · rename_i hlt
      have H := ih hfirst hothers
      have hle := (H first List.mem_cons_self).trans (not_lt.mp (mt (O.lt hd hfirst).mpr hlt))
      intro c hc
      rcases List.mem_cons.mp hc with rfl | hc
      · exact H c List.mem_cons_self
      · rcases List.mem_cons.mp hc with rfl | hc
        · exact hle
        · exact H c (List.mem_cons_of_mem first hc)

/-- Another candidate is the best only if it is strictly lower than the first. -/
theorem best_eq_or_lt : best first others = first ∨
    best first others ∈ others ∧ rank (best first others).value < rank first.value := by
  induction others generalizing first with
  | nil => exact .inl rfl
  | cons d others ih =>
    have hd := hothers d List.mem_cons_self
    have hothers := fun c hc => hothers c (List.mem_cons_of_mem d hc)
    rw [best_cons]
    split
    · rename_i hlt
      have hlt := (O.lt hd hfirst).mp hlt
      rcases ih hd hothers with he | ⟨hmem, hlt'⟩
      · rw [he]
        exact .inr ⟨List.mem_cons_self, hlt⟩
      · exact .inr ⟨List.mem_cons_of_mem d hmem, hlt'.trans hlt⟩
    · rcases ih hfirst hothers with he | ⟨hmem, hlt'⟩
      · exact .inl he
      · exact .inr ⟨List.mem_cons_of_mem d hmem, hlt'⟩

end

/-! ## Trials -/

variable {settings : DescentSettings α} {f : Point α → Except ExpressionError α}
  {g : Point α → Except ExpressionError (Point α)} {c d : Candidate α}

/-- A candidate at one of the sampled steps against the gradient. -/
def Trial (settings : DescentSettings α) (f : Point α → Except ExpressionError α)
    (g : Point α → Except ExpressionError (Point α)) (x : Point α) (c : Candidate α) : Prop :=
  ∃ d size, g x = .ok d ∧ size ∈ stepSizes ∧
    Prod.snd <$> sample f settings.stepFactor x d size = .ok c

/-- One candidate is adopted after another. -/
structure Adopts (settings : DescentSettings α) (f : Point α → Except ExpressionError α)
    (g : Point α → Except ExpressionError (Point α)) (c next : Candidate α) : Prop where
  le : Scalar.le next.value c.value = true
  trials : ∀ {t}, Trial settings f g c.point t → Scalar.isFinite t.value = true →
    Scalar.le next.value t.value = true
  /-- Only a lower value makes the search move. -/
  kept : next = c ∨ Trial settings f g c.point next ∧ Scalar.lt next.value c.value = true

omit [LinearOrder β] in
theorem trial_iff {all : List (α × Candidate α)} {x gradient : Point α} (hg : g x = .ok gradient)
    (hall : stepSizes.mapM (sample f settings.stepFactor x gradient) = .ok all) :
    Trial settings f g x c ↔ ∃ size, (size, c) ∈ all := by
  have hall := mapM_eq_ok hall
  constructor
  · rintro ⟨gradient', size, hg', hsize, hc⟩
    cases hg.symm.trans hg'
    obtain ⟨t, ht, hs⟩ := forall₂_mem hall hsize
    rw [hs] at hc
    cases hc
    exact ⟨t.1, ht⟩
  · rintro ⟨size, hmem⟩
    obtain ⟨size', hsize, hs⟩ := forall₂_mem hall.flip hmem
    exact ⟨gradient, size', hg, hsize, by rw [hs]; rfl⟩

/-- What competes best is adopted rightly, and is finite. -/
theorem Competes.adopts (O : Scalar.Ranked rank) (hc : Scalar.isFinite c.value = true)
    (H : Competes settings f g c d) :
    Adopts settings f g c d ∧ Scalar.isFinite d.value = true := by
  obtain ⟨gradient, all, hg, hall, rfl⟩ := H
  generalize hothers : List.map Prod.snd _ = others
  have hmem {t : Candidate α} :
      t ∈ others ↔ Trial settings f g c.point t ∧ Scalar.isFinite t.value = true := by
    rw [← hothers, trial_iff hg hall]
    simp
  have hfinite : ∀ t ∈ others, Scalar.isFinite t.value = true := fun t ht => (hmem.mp ht).2
  have hbest : Scalar.isFinite (best c others).value = true := by
    rcases best_eq_or_lt O hc hfinite with he | ⟨hin, _⟩
    · rw [he]
      exact hc
    · exact hfinite _ hin
  have hle := best_le O hc hfinite
  refine ⟨⟨(O.le hbest hc).mpr (hle c List.mem_cons_self), ?_, ?_⟩, hbest⟩
  · intro t ht htf
    exact (O.le hbest htf).mpr (hle t (List.mem_cons_of_mem c (hmem.mpr ⟨ht, htf⟩)))
  · rcases best_eq_or_lt O hc hfinite with he | ⟨hin, hlt⟩
    · exact .inl he
    · exact .inr ⟨(hmem.mp hin).1, (O.lt hbest hc).mpr hlt⟩

end GradientDescent

/-! ## Runs -/

variable {settings : DescentSettings α} {f : Point α → Except ExpressionError α}
  {g : Point α → Except ExpressionError (Point α)} {start c : Candidate α}

open GradientDescent

/-- A search that never moves uphill. -/
structure Trace.Descends (settings : DescentSettings α) (f : Point α → Except ExpressionError α)
    (g : Point α → Except ExpressionError (Point α)) (start : Candidate α) (t : Trace α) :
    Prop where
  walk : Walk (Adopts settings f g) start t.iterations
  returned : ∀ {o}, t.ending = .ok o → Scalar.le o.candidate.value start.value = true
  /-- The last iteration adopts its candidate too, unless it ends the search. -/
  last : ∀ {o i}, t.ending = .ok o → Numbered t.iterations t.iterations.length i →
    o.reason = .noImprovement ∧ o.candidate = i.current ∨
      o.reason = .stepLimit ∧ Adopts settings f g i.current o.candidate

theorem Path.adopts (O : Scalar.Ranked rank) (hs : Scalar.isFinite start.value = true)
    (H : Path (Competes settings f g) start past c) :
    Path (Adopts settings f g) start past c ∧ Scalar.isFinite c.value = true ∧
      Scalar.le c.value start.value = true := by
  suffices H : Path (Adopts settings f g) start past c ∧ Scalar.isFinite c.value = true ∧
      rank c.value ≤ rank start.value from ⟨H.1, H.2.1, (O.le H.2.1 hs).mpr H.2.2⟩
  induction H with
  | start => exact ⟨.start, hs, le_rfl⟩
  | next _ hi hd hR ih =>
    obtain ⟨hpath, hc, hle⟩ := ih
    obtain ⟨hadopts, hfinite⟩ := hR.adopts O hc
    exact ⟨hpath.next hi hd hadopts, hfinite, ((O.le hfinite hc).mp hadopts.le).trans hle⟩

theorem GradientDescent.search_descends (O : Scalar.Ranked rank)
    (hs : Scalar.isFinite start.value = true) :
    (search settings f g start).Descends settings f g start := by
  have hends := Trace.follow_ends State.current (step settings f g) settings.maxSteps.toNat 1
    ⟨start, .ofSettings settings⟩
  rw [search]
  generalize Trace.follow .. = t at hends ⊢
  cases hends with
  | error hc =>
    obtain ⟨hpath, _⟩ := (hc.path step_checked).adopts O hs
    exact ⟨hpath.walk_push rfl, nofun, nofun⟩
  | stop hc _ ho =>
    obtain ⟨hpath, _, hle⟩ := (hc.path step_checked).adopts O hs
    have hchecked : CheckedStep State.current State.tracker (Competes settings f g) (fun _ => False)
      _ _ _ := ho ▸ step_checked
    cases hchecked with
    | early _ _ h => exact h.elim
    | late _ _ _ _ h => exact h.elim
    | exhausted hi =>
      refine ⟨hpath.walk_push hi, ?_, ?_⟩
      · intro o ho
        cases ho
        exact hle
      · intro o j ho hj
        cases ho
        rw [List.length_append] at hj
        cases hj.unique numbered_last
        exact .inl ⟨rfl, hi.symm⟩
  | limit hc =>
    obtain ⟨hpath, _, hle⟩ := (hc.path step_checked).adopts O hs
    refine ⟨hpath.walk, ?_, ?_⟩
    · intro o ho
      cases ho
      exact hle
    · intro o i ho hi
      cases ho
      exact .inr ⟨rfl, (hpath.last hi).2⟩

/-- Unless there is no finite value to begin with, a search never moves uphill from its starting
point. -/
theorem gradientDescent_descends (settings : DescentSettings Float) (o : Objective Float)
    (x : Point Float) :
    (∃ e, ((Method.gradientDescent settings).minimise o x).trace = ⟨[], .error e⟩ ∧
      ∀ f g p v, (Build.compiled o x.size).run .empty = (.ok (f, g), p) → f.apply x = .ok v →
        Scalar.isFinite v = false) ∨
      ∃ f g p v, (Build.compiled o x.size).run .empty = (.ok (f, g), p) ∧ f.apply x = .ok v ∧
        ((Method.gradientDescent settings).minimise o x).trace.Descends
          settings f.apply g.apply ⟨v, x⟩ := by
  rw [Method.minimise]
  rcases (Build.compiled o x.size).run .empty with ⟨e | ⟨f, g⟩, p⟩
  · refine .inl ⟨_, rfl, ?_⟩
    intro f g p v hc
    cases hc
  dsimp only
  rw [Method.start]
  cases hv : f.apply x with
  | error e =>
    refine .inl ⟨_, rfl, ?_⟩
    intro f' g' p' v hc hv'
    cases hc
    cases hv.symm.trans hv'
  | ok v =>
    dsimp only
    split
    · rename_i hfinite
      exact .inr ⟨f, g, p, v, rfl, hv, search_descends Double.ranked hfinite⟩
    · rename_i hfinite
      refine .inl ⟨_, rfl, ?_⟩
      intro f' g' p' v' hc hv'
      cases hc
      cases hv.symm.trans hv'
      exact Bool.eq_false_iff.mpr hfinite

/-- A search of at least two iterations, so something is adopted. -/
theorem gradientDescent_descends_square :
    ∃ (s : DescentSettings Float) (f : CompiledFunction Float) (g : CompiledGradient Float)
      (v : Float), f.apply #[3] = .ok v ∧
      2 ≤ ((Method.gradientDescent s).minimise squareObjective #[3]).trace.iterations.length ∧
      ((Method.gradientDescent s).minimise squareObjective #[3]).trace.Descends
        s f.apply g.apply ⟨v, #[3]⟩ := by
  have hlength : 2 ≤ ((Method.gradientDescent { maxSteps := 2 } : Method Float).minimise
      squareObjective #[3]).trace.iterations.length := by decide +kernel
  rcases gradientDescent_descends { maxSteps := 2 } squareObjective #[3] with
    ⟨e, he, _⟩ | ⟨f, g, _, v, _, hv, H⟩
  · rw [he] at hlength
    cases hlength
  · exact ⟨_, f, g, v, hv, hlength, H⟩

end Downhill
