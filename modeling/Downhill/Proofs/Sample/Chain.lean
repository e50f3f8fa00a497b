import Downhill.Proofs.Real.Objectives
import Downhill.Proofs.Term.Independence
import Downhill.Proofs.Term.Variables
import Downhill.Sample.Chain

/-!
# The chained objective

The chained objective is built in every dimension, over the reals its compiled function and gradient
are the intended ones, and a partial derivative has no variables but those of its own coordinate and
of the neighbours (`Chain.objective_intended`). Value and slopes follow the two loops. For the last
part, the derivative of a summand without the variable is the number zero (`Term.Flat`), so that
nothing of it is left in the sum.
-/

namespace Downhill

/-! ## Derivatives that vanish -/

namespace Term

open PartialReal

variable {s t : Term PartialReal} {i k : ℕ} {c : ℝ}

theorem number_mul (hc : c ≠ 0) (ht : t.number? = none) :
    ((num (some c)).mkBinary .mul t).number? = none := by
  cases t with
  | num v => cases ht
  | var | unary | binary =>
    by_cases hone : c = 1 <;>
      simp [mkBinary, reduce, isNumber, number?, eq_some, hc, hone]

theorem number_mul_zero (c : ℝ) :
    (num (some c)).mkBinary .mul (num (some 0)) = (num (some 0) : Term PartialReal) := by
  have hzero : (Scalar.binary .mul (some c) (some 0) : PartialReal) = some 0 :=
    Eq.trans (binary_some trivial) (congrArg some (mul_zero c))
  exact congrArg num hzero

theorem zero_mul (ht : t.number? = none) : (num (some 0)).mkBinary .mul t = num (some 0) := by
  cases t with
  | num v => cases ht
  | var | unary | binary => simp [mkBinary, reduce, isNumber, number?, eq_some]

theorem mul_zero (ht : t.number? = none) : t.mkBinary .mul (num (some 0)) = num (some 0) := by
  cases t with
  | num v => cases ht
  | var | unary | binary => simp [mkBinary, reduce, isNumber, number?, eq_some]

/-- The derivative by `x[i]` is the number zero. -/
def Flat (i : ℕ) (t : Term PartialReal) : Prop := t.derivative? i = some (num (some 0))

namespace Flat

theorem number (v : PartialReal) : (num v).Flat i := by simp [Flat, derivative?]

theorem var (hk : k ≠ i) : (Term.var k).Flat i := by simp [Flat, derivative?, hk]

theorem sub (H : s.Flat i) (H' : t.Flat i) : (binary .sub s t).Flat i := by
  have hzero : (Scalar.binary .sub (some 0) (some 0) : PartialReal) = some 0 :=
    Eq.trans (binary_some trivial) (congrArg some (sub_self 0))
  rw [Flat] at H H'
  simp only [Flat, derivative?, H, H']
  exact congrArg (fun v => some (num v)) hzero

theorem sqr (H : t.Flat i) (ht : t.number? = none) : (unary .sqr t).Flat i := by
  rw [Flat] at H
  simp only [Flat, derivative?, H]
  have htwo : ((num (Scalar.nat 2)).mkBinary .mul t).number? = none := by
    rw [nat_eq]
    exact number_mul (by simp) ht
  exact congrArg some (mul_zero htwo)

theorem logSigmoid (H : t.Flat i) (ht : t.number? = none) : (unary .logSigmoid t).Flat i := by
  rw [Flat] at H
  simp only [Flat, derivative?, H]
  have hfactor : ((num (Scalar.nat 1)).mkBinary .sub (t.mkUnary .sigmoid)).number? = none := by
    cases t with
    | num v => cases ht
    | var | unary | binary =>
      simp [mkUnary, mkBinary, reduce, isNumber, number?, eq_some]
  exact congrArg some (mul_zero hfactor)

theorem scaled (H : t.Flat i) (ht : t.number? = none) : (binary .mul (num (some c)) t).Flat i := by
  have hzero : (Scalar.binary .add (some 0) (some 0) : PartialReal) = some 0 :=
    Eq.trans (binary_some trivial) (congrArg some (add_zero 0))
  have hleft : (num (some 0)).mkBinary .mul t = num (some 0) := zero_mul ht
  have hright := number_mul_zero c
  rw [Flat] at H
  simp only [Flat, derivative?, H, nat_eq, Nat.cast_zero]
  change some ((((num (some 0)).mkBinary .mul t).mkBinary .add
    ((num (some c)).mkBinary .mul (num (some 0))))) = _
  rw [hleft, hright]
  exact congrArg (fun v => some (num v)) hzero

end Flat

end Term

namespace Chain

open Finset

noncomputable section

/-! ## Value and slopes -/

/-- The summand of the pair of coordinates that begins at `k`. -/
def pair (x : ℕ → ℝ) (k : ℕ) : ℝ := (1 - x k) ^ 2 + 100 * (x (k + 1) - x k ^ 2) ^ 2

def value (dim : ℕ) (x : ℕ → ℝ) : ℝ :=
  ∑ k ∈ range (dim - 1), pair x k - ∑ k ∈ range dim, UnaryOp.logSigmoid.real (x k)

/-- Coordinate `i` begins a pair unless it is the last one, and ends one unless it is the first. -/
def slope (dim : ℕ) (x : ℕ → ℝ) (i : ℕ) : ℝ :=
  (if i < dim - 1 then 2 • (x i - 1) - 400 * x i * (x (i + 1) - x i ^ 2) else 0) +
    (if 0 < i then 200 * (x i - x (i - 1) ^ 2) else 0) - (1 - UnaryOp.sigmoid.real (x i))

def pairSlope (x : ℕ → ℝ) (i k : ℕ) : ℝ :=
  (if k = i then 2 • (x k - 1) - 400 * x k * (x (k + 1) - x k ^ 2) else 0) +
    if k + 1 = i then 200 * (x (k + 1) - x k ^ 2) else 0

/-- The slopes of all summands. -/
def slopes (dim : ℕ) (x : ℕ → ℝ) (i : ℕ) : ℝ :=
  ∑ k ∈ range (dim - 1), pairSlope x i k -
    ∑ k ∈ range dim, if k = i then 1 - UnaryOp.sigmoid.real (x k) else 0

/-- A coordinate is in two pairs at most. -/
theorem slopes_eq {dim i : ℕ} (x : ℕ → ℝ) (hi : i < dim) : slopes dim x i = slope dim x i := by
  have hlast : (∑ k ∈ range (dim - 1), if k + 1 = i then 200 * (x (k + 1) - x k ^ 2) else 0) =
      if 0 < i then 200 * (x i - x (i - 1) ^ 2) else 0 := by
    cases i with
    | zero => simp
    | succ j =>
      have hj : j < dim - 1 := by omega
      simp [hj]
  simp only [slopes, pairSlope, sum_add_distrib, hlast, sum_ite_eq', mem_range, if_pos hi, slope]

variable {x : Array ℝ} {i n : ℕ} {t : Term PartialReal} {v m : ℝ}

theorem link_hasJet (H : t.HasJet x i v m) (hn : n + 1 < x.size) :
    (link t n).HasJet x i (v + pair (fun k => x.getD k 0) n)
      (m + pairSlope (fun k => x.getD k 0) i n) := by
  have hx := Term.HasJet.var (i := i) (Nat.lt_of_succ_lt hn)
  have hy := Term.HasJet.var (i := i) hn
  have hgap : (Term.unary .sqr _).HasJet x i _ _ := ((Term.HasJet.literal 1).sub hx).unary trivial
  have hsquare : (Term.unary .sqr _).HasJet x i _ _ := hx.unary trivial
  have hbend : (Term.unary .sqr _).HasJet x i _ _ := (hy.sub hsquare).unary trivial
  refine ((H.add hgap).add ((Term.HasJet.literal 100).mul hbend)).congr ?_ ?_
  · simp only [UnaryOp.real, pair, Nat.cast_one, Nat.cast_ofNat]
    ring
  · simp only [UnaryOp.real, UnaryOp.slope, pairSlope, Nat.cast_one, Nat.cast_ofNat]
    split_ifs <;> ring

theorem links_hasJet (hn : n < x.size) :
    ((List.range n).foldl link 0).HasJet x i (∑ k ∈ range n, pair (fun k => x.getD k 0) k)
      (∑ k ∈ range n, pairSlope (fun k => x.getD k 0) i k) := by
  induction n with
  | zero => exact (Term.HasJet.literal 0).congr (by simp) (by simp)
  | succ n ih =>
    rw [List.range_succ, List.foldl_append, sum_range_succ, sum_range_succ]
    exact link_hasJet (ih (Nat.lt_of_succ_lt hn)) hn

theorem logSigmoids_hasJet (H : t.HasJet x i v m) (hn : n ≤ x.size) :
    ((List.range n).foldl (fun total k => total - (Term.var k).logSigmoid) t).HasJet x i
      (v - ∑ k ∈ range n, UnaryOp.logSigmoid.real (x.getD k 0))
      (m - ∑ k ∈ range n, if k = i then 1 - UnaryOp.sigmoid.real (x.getD k 0) else 0) := by
  induction n with
  | zero => exact H.congr (by simp) (by simp)
  | succ n ih =>
    have hx : (Term.unary .logSigmoid (.var n)).HasJet x i _ _ :=
      (Term.HasJet.var hn).unary trivial
    rw [List.range_succ, List.foldl_append, sum_range_succ, sum_range_succ, ← sub_sub, ← sub_sub]
    refine ((ih (Nat.le_of_succ_le hn)).sub hx).congr rfl ?_
    simp only [UnaryOp.slope, mul_ite, mul_one, mul_zero]

theorem term_hasGradient (hdim : 1 ≤ dim) :
    (term dim).HasGradient dim (value dim) (slopes dim) := by
  intro x hx i
  subst hx
  exact logSigmoids_hasJet (links_hasJet (by omega)) le_rfl

/-! ## Variables of the slopes -/

/-- A coordinate and its neighbours. -/
def near (i : ℕ) : Set ℕ := {j | j + 1 = i ∨ j = i ∨ j = i + 1}

/-- The two squares of a pair, as they are stored. -/
def gap (k : ℕ) : Term PartialReal := .unary .sqr (.binary .sub (.num (some 1)) (.var k))

def bend (k : ℕ) : Term PartialReal :=
  .binary .mul (.num (some 100)) (.unary .sqr (.binary .sub (.var (k + 1)) (.unary .sqr (.var k))))

theorem simplified_link (t : Term PartialReal) (k : ℕ) :
    (link t k).simplified = (t.simplified.mkBinary .add (gap k)).mkBinary .add (bend k) := by
  have hgap : ((Term.num (Scalar.nat 1)).mkBinary .sub (.var k)).mkUnary .sqr = gap k := by
    simp [Term.mkUnary, Term.mkBinary, Term.reduce, Term.isNumber, Term.number?,
      PartialReal.eq_some, gap]
  have hbend : (Term.num (Scalar.nat 100)).mkBinary .mul
      ((Term.mkBinary .sub (.var (k + 1)) (Term.mkUnary .sqr (.var k))).mkUnary .sqr) = bend k := by
    simp [Term.mkUnary, Term.mkBinary, Term.reduce, Term.isNumber, Term.number?,
      PartialReal.eq_some, bend]
  rw [← hgap, ← hbend]
  rfl

variable {k : ℕ}

theorem slopeWithin_gap : (gap k).SlopeWithin i (near i) := by
  by_cases hk : k = i
  · refine .of_vars ?_
    simp [gap, Term.vars, near, hk]
  · exact .of_number (((Term.Flat.number _).sub (.var hk)).sqr rfl)

theorem slopeWithin_bend : (bend k).SlopeWithin i (near i) := by
  by_cases hk : k = i
  · refine .of_vars ?_
    simp [bend, Term.vars, near, Set.insert_subset_iff, hk]
  by_cases hk' : k + 1 = i
  · refine .of_vars ?_
    simp [bend, Term.vars, near, Set.insert_subset_iff, hk']
  · exact .of_number ((((Term.Flat.var hk').sub ((Term.Flat.var hk).sqr rfl)).sqr rfl).scaled rfl)

theorem slopeWithin_logSigmoid :
    (Term.var k).logSigmoid.SlopeWithin (α := PartialReal) i (near i) := by
  by_cases hk : k = i
  · refine .of_vars ?_
    simp [Term.logSigmoid, Term.vars, near, hk]
  · exact .of_number ((Term.Flat.var hk).logSigmoid rfl)

theorem slopeWithin_links (n : ℕ) :
    ((List.range n).foldl link (0 : Term PartialReal)).simplified.SlopeWithin i (near i) := by
  induction n with
  | zero => exact .of_vars (Set.empty_subset _)
  | succ n ih =>
    rw [List.range_succ, List.foldl_append]
    refine (simplified_link _ n).symm ▸ ?_
    exact (ih.add slopeWithin_gap).add slopeWithin_bend

theorem slopeWithin_logSigmoids (n : ℕ) (H : t.simplified.SlopeWithin i (near i)) :
    ((List.range n).foldl (fun total k => total - (Term.var k).logSigmoid)
      t).simplified.SlopeWithin i (near i) := by
  induction n with
  | zero => exact H
  | succ n ih =>
    rw [List.range_succ, List.foldl_append]
    exact ih.sub slopeWithin_logSigmoid

theorem slopeWithin_term (dim i : ℕ) :
    (term dim).simplified.SlopeWithin (α := PartialReal) i (near i) :=
  slopeWithin_logSigmoids dim (slopeWithin_links (dim - 1))

/-! ## The objective -/

/-- What is left after the last logarithm is no number. -/
theorem number?_simplified (hdim : 1 ≤ dim) :
    (term dim : Term PartialReal).simplified.number? = none := by
  obtain ⟨n, rfl⟩ := Nat.exists_eq_add_of_le' hdim
  rw [term, List.range_succ, List.foldl_append]
  generalize (List.range n).foldl (fun total i => total - (Term.var i).logSigmoid)
    ((List.range (n + 1 - 1)).foldl link (0 : Term PartialReal)) = t
  change (t.simplified.mkBinary .sub (.unary .logSigmoid (.var n))).number? = none
  unfold Term.mkBinary
  split
  · rename_i hv
    cases hv
  · simp only [Term.reduce]
    split
    · rename_i hv
      cases hv
    split
    · rfl
    · rfl

/-- In every dimension the objective is built; over the reals its compiled function and gradient are
the intended ones; and a partial derivative reaches no variables but its own and those beside it. -/
theorem objective_intended (hdim : 1 ≤ dim) :
    ∃ (h : Handle) (p : Pool PartialReal),
      (Build.objective (objective dim) dim).run .empty = (.ok (.expression h), p) ∧
      (∃ f, (Build.function dim (.expression h)).run p = (.ok f, p) ∧
        ∀ x : Array ℝ, x.size = dim →
          f.call (.ofVector (x.map some)) = .ok (some (value dim fun k => x.getD k 0))) ∧
      ∃ g q, (Build.compiledGradient dim (.expression h)).run p = (.ok g, q) ∧
        (∀ x : Array ℝ, x.size = dim → g.call (.ofVector (x.map some)) =
          .ok ((List.range dim).map fun i => some (slope dim (fun k => x.getD k 0) i)).toArray) ∧
        g.partials.length = dim ∧
        ∀ {i d}, g.partials[i]? = some d → ∀ {k j}, q.Reaches d k → q.Holds k (.var j) →
          j + 1 = i ∨ j = i ∨ j = i + 1 := by
  have ht := term_hasGradient hdim
  obtain ⟨u, p, hu, hw⟩ := Build.run_objective hdim ht
  obtain ⟨h, rfl⟩ : ∃ h, u = .expression h := by
    have hs := hw.simplified PartialReal.exact
    cases u with
    | expression h => exact ⟨h, rfl⟩
    | number v => exact nomatch (number?_simplified hdim).symm.trans (congrArg Term.number? hs)
    | foreign | tooLarge | other => exact hs.elim
  obtain ⟨g, q, hg, hvalues, hq, hpq, hds⟩ := hw.gradient_values ht
  refine ⟨h, p, hu, hw.function_values ht, g, q, hg, fun x hx => ?_, ?_, ?_⟩
  · rw [hvalues x hx, List.map_congr_left fun i hi => ?_]
    rw [slopes_eq _ (List.mem_range.mp hi)]
  · rw [← hds.length_eq, List.length_range]
  · intro i d hd k j hk hj
    obtain ⟨i', hi, hd⟩ := forall₂_getElem? hds.flip hd
    obtain ⟨_, rfl⟩ := List.getElem?_eq_some_iff.mp hi
    rw [List.getElem_range] at hd
    have hterm := (hw.unfolds PartialReal.exact).mono (hpq.le hw.valid.1.wf)
    obtain ⟨s, hs, hunfolds⟩ := hq.faithful PartialReal.exact hd hterm
    exact slopeWithin_term dim i s hs (hunfolds.mem_vars.mpr ⟨k, hk, hj⟩)

/-- In two dimensions, where both coordinates are one, only the logarithms are left. -/
theorem objective_intended_ones :
    ∃ (h : Handle) (p q : Pool PartialReal) (f : CompiledFunction PartialReal)
      (g : CompiledGradient PartialReal),
      (Build.objective (objective 2) 2).run .empty = (.ok (.expression h), p) ∧
      (Build.function 2 (.expression h)).run p = (.ok f, p) ∧
      (Build.compiledGradient 2 (.expression h)).run p = (.ok g, q) ∧
      f.call (.ofVector #[some 1, some 1]) = .ok (some (2 * Real.log (1 + Real.exp (-1)))) ∧
      g.call (.ofVector #[some 1, some 1]) =
        .ok #[some (1 / (1 + Real.exp (-1)) - 1), some (1 / (1 + Real.exp (-1)) - 1)] := by
  obtain ⟨h, p, hu, ⟨f, hf, hvalue⟩, g, q, hg, hslope, _⟩ := objective_intended one_le_two
  have hones (k : ℕ) (hk : k < 2) : (#[1, 1] : Array ℝ).getD k 0 = 1 := by
    interval_cases k <;> rfl
  have hv : value 2 (fun k => (#[1, 1] : Array ℝ).getD k 0) = 2 * Real.log (1 + Real.exp (-1)) := by
    simp only [value, sum_range_succ, sum_range_zero, pair, UnaryOp.real, hones 0 two_pos,
      hones 1 one_lt_two, Nat.add_one_sub_one, zero_add]
    ring
  have hm (i : ℕ) (hi : i < 2) : slope 2 (fun k => (#[1, 1] : Array ℝ).getD k 0) i =
      1 / (1 + Real.exp (-1)) - 1 := by
    interval_cases i
    · simp [slope, UnaryOp.real]
    · simp [slope, UnaryOp.real]
  have hpoint : (#[1, 1] : Array ℝ).map some = #[some 1, some 1] := by simp
  have hrange : List.range 2 = [0, 1] := rfl
  refine ⟨h, p, q, f, g, hu, hf, hg, ?_, ?_⟩
  · rw [← hpoint, hvalue #[1, 1] rfl, hv]
  · rw [← hpoint, hslope #[1, 1] rfl, hrange, List.map_cons, List.map_cons, List.map_nil,
      hm 0 two_pos, hm 1 one_lt_two]

end

end Chain

end Downhill
