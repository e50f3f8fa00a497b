import Mathlib.Algebra.BigOperators.Fin
import Mathlib.Algebra.Order.Ring.Basic
import Mathlib.Tactic.Ring
import Downhill.Proofs.Real.PartialReal
import Downhill.Proofs.Search.Evaluation

/-!
# The first step that falls enough

A line search looks for the first of its steps that falls enough, and settles for the last of the
budget if there is none (`LineSearch.Ends`, whatever the scalars). Where arithmetic is that of an
ordered field, with results that may be undefined (`Scalar.OrderedRing`, since nothing is divided),
the steps are the powers of `beta`, and falling enough is Armijo's inequality between elements of
the field.
-/

namespace Downhill

open scoped Scalar

/-! ## Ordered rings with undefined results -/

/-- Some scalars are the elements of an ordered ring. Sums and products are elements if both
operands are, and then they are those of the ring; what is no element fails every comparison. -/
structure Scalar.OrderedRing {α K : Type} [Scalar α] [CommRing K] [LinearOrder K] (num : K → α) :
    Prop where
  injective : Function.Injective num
  nat : ∀ n : ℕ, (Scalar.nat n : α) = num n
  add : ∀ {v w : α} {c}, v + w = num c ↔ ∃ a b, v = num a ∧ w = num b ∧ a + b = c
  mul : ∀ {v w : α} {c}, v * w = num c ↔ ∃ a b, v = num a ∧ w = num b ∧ a * b = c
  lt : ∀ {v w : α}, Scalar.lt v w = true ↔ ∃ a b, v = num a ∧ w = num b ∧ a < b
  le : ∀ {v w : α}, Scalar.le v w = true ↔ ∃ a b, v = num a ∧ w = num b ∧ a ≤ b

theorem PartialReal.orderedRing : Scalar.OrderedRing (some : ℝ → PartialReal) where
  injective := Option.some_injective ℝ
  nat := nat_eq
  add := binary_eq_some.trans (by simp [BinaryOp.Domain, BinaryOp.real])
  mul := binary_eq_some.trans (by simp [BinaryOp.Domain, BinaryOp.real])
  lt {v w} := by cases v <;> cases w <;> simp [Scalar.lt, compare]
  le {v w} := by cases v <;> cases w <;> simp [Scalar.le, compare]

variable {α K : Type} [Scalar α]

section OrderedRing

variable [CommRing K] [LinearOrder K] {num : K → α}

namespace Scalar.OrderedRing

theorem num_add (A : OrderedRing num) (a b : K) : num a + num b = num (a + b) :=
  A.add.mpr ⟨a, b, rfl, rfl, rfl⟩

theorem num_mul (A : OrderedRing num) (a b : K) : num a * num b = num (a * b) :=
  A.mul.mpr ⟨a, b, rfl, rfl, rfl⟩

theorem isFraction (A : OrderedRing num) {a : K} (h0 : 0 < a) (h1 : a < 1) :
    Scalar.isFraction (num a) = true := by
  have hlow : Scalar.lt (Scalar.nat 0) (num a) = true :=
    A.lt.mpr ⟨0, a, by rw [A.nat, Nat.cast_zero], rfl, h0⟩
  have hhigh : Scalar.lt (num a) (Scalar.nat 1) = true :=
    A.lt.mpr ⟨a, 1, rfl, by rw [A.nat, Nat.cast_one], h1⟩
  rw [Scalar.isFraction, hlow, hhigh, Bool.and_self]

/-- The steps of a search are powers. -/
theorem iterate_mul (A : OrderedRing num) (b : K) (k : ℕ) :
    (· * num b)^[k] (Scalar.nat 1) = num (b ^ k) := by
  induction k with
  | zero => rw [Function.iterate_zero_apply, A.nat, Nat.cast_one, pow_zero]
  | succ k ih => rw [Function.iterate_succ_apply', ih, A.num_mul, ← pow_succ]

/-- A sum is an element of the ring if and only if all its terms are. -/
theorem foldl_add (A : OrderedRing num) {vs : List α} {v : α} {c : K} :
    vs.foldl (· + ·) v = num c ↔ ∃ s ws, v = num s ∧ vs = List.map num ws ∧ s + ws.sum = c := by
  induction vs generalizing v with
  | nil =>
    constructor
    · rintro rfl
      exact ⟨c, [], rfl, rfl, by rw [List.sum_nil, add_zero]⟩
    · rintro ⟨s, ws, rfl, hws, hc⟩
      cases List.map_eq_nil_iff.mp hws.symm
      rw [List.foldl_nil, ← hc, List.sum_nil, add_zero]
  | cons w vs ih =>
    rw [List.foldl_cons, ih]
    constructor
    · rintro ⟨s, ws, hs, rfl, hc⟩
      obtain ⟨a, b, rfl, rfl, rfl⟩ := A.add.mp hs
      exact ⟨a, b :: ws, rfl, rfl, by rw [List.sum_cons, ← add_assoc, hc]⟩
    · rintro ⟨s, ws, rfl, hws, hc⟩
      obtain ⟨b, ws, rfl, rfl, rfl⟩ := List.map_eq_cons_iff.mp hws.symm
      exact ⟨s + b, ws, A.num_add s b, rfl, by rw [add_assoc, ← List.sum_cons, hc]⟩

theorem sum_eq (A : OrderedRing num) {vs : List α} {c : K} :
    Point.sum vs = num c ↔ ∃ ws, vs = List.map num ws ∧ ws.sum = c := by
  have hfold : vs.foldl (· + ·) (Scalar.nat 0) = num c ↔
      ∃ ws, vs = List.map num ws ∧ ws.sum = c := by
    rw [A.foldl_add]
    constructor
    · rintro ⟨s, ws, hs, hws, hc⟩
      cases A.injective ((A.nat 0).symm.trans hs)
      exact ⟨ws, hws, by rw [← hc, Nat.cast_zero, zero_add]⟩
    · rintro ⟨ws, hws, hc⟩
      exact ⟨0, ws, by rw [A.nat, Nat.cast_zero], hws, by rw [zero_add, hc]⟩
  match vs with
  | [] | _ :: _ :: _ => exact hfold
  | [v] =>
    constructor
    · rintro rfl
      exact ⟨[c], rfl, List.sum_singleton⟩
    · rintro ⟨ws, hws, hc⟩
      obtain ⟨b, ws, rfl, rfl, hnil⟩ := List.map_eq_cons_iff.mp hws.symm
      cases List.map_eq_nil_iff.mp hnil
      rw [← hc, List.sum_singleton]
      rfl

end Scalar.OrderedRing

/-! ## Points over a ring -/

/-- A point with elements of the ring as coordinates. -/
def Point.embed {dim : ℕ} (num : K → α) (x : Fin dim → K) : Point α :=
  Array.ofFn fun i => num (x i)

namespace Point

variable {dim : ℕ} {x d G : Fin dim → K}

omit [Scalar α] [CommRing K] [LinearOrder K] in
@[simp] theorem size_embed : (embed num x).size = dim := Array.size_ofFn

omit [Scalar α] [CommRing K] [LinearOrder K] in
@[simp] theorem getElem_embed {i : ℕ} (hi : i < (embed num x).size) :
    (embed num x)[i] = num (x ⟨i, Nat.lt_of_lt_of_eq hi size_embed⟩) := Array.getElem_ofFn hi

theorem along_embed (A : Scalar.OrderedRing num) (x d : Fin dim → K) (t : K) :
    (embed num x).along (embed num d) (num t) = embed num (x + t • d) := by
  refine Array.ext (by simp [along]) fun i _ _ => ?_
  simp [along, A.num_mul, A.num_add]

theorem dot_embed (A : Scalar.OrderedRing num) (G d : Fin dim → K) :
    (embed num G).dot (embed num d) = num (∑ i, G i * d i) := by
  refine A.sum_eq.mpr ⟨List.ofFn fun i => G i * d i, ?_, List.sum_ofFn⟩
  refine List.ext_getElem (by simp) fun i _ _ => ?_
  simp [A.num_mul]

omit [Scalar α] [CommRing K] [LinearOrder K] in
theorem embed_injective (hn : Function.Injective num) :
    Function.Injective (embed num : (Fin dim → K) → Point α) := by
  intro x y H
  have hlists := congrArg Array.toList H
  rw [embed, embed, Array.toList_ofFn, Array.toList_ofFn, List.ofFn_inj] at hlists
  exact funext fun i => hn (congrFun hlists i)

omit [Scalar α] [CommRing K] [LinearOrder K] in
theorem exists_embed {y : Point α} (hy : y.size = dim)
    (H : ∀ {i : ℕ} (_ : i < dim), ∃ a, y[i] = num a) : ∃ G : Fin dim → K, y = embed num G := by
  choose G hG using @H
  exact ⟨fun i => G i.2, Array.ext (by simp [hy]) fun i hi _ => by simpa using hG (hy ▸ hi)⟩

/-- An inner product is an element of the ring only if all coordinates are. -/
theorem dot_eq (A : Scalar.OrderedRing num) {y z : Point α} (hy : y.size = dim) (hz : z.size = dim)
    {c : K} : y.dot z = num c ↔
      ∃ G d : Fin dim → K, y = embed num G ∧ z = embed num d ∧ ∑ i, G i * d i = c := by
  constructor
  · intro H
    obtain ⟨ws, hws, -⟩ := A.sum_eq.mp H
    have hcoordinate {i : ℕ} (hi : i < dim) :
        ∃ a b, y[i] = num a ∧ z[i] = num b := by
      have hmem : y[i] * z[i] ∈ List.map num ws := by
        rw [← hws, List.mem_iff_getElem]
        exact ⟨i, by simp [hy, hz, hi], by simp⟩
      obtain ⟨c, -, hc⟩ := List.mem_map.mp hmem
      obtain ⟨a, b, ha, hb, -⟩ := A.mul.mp hc.symm
      exact ⟨a, b, ha, hb⟩
    obtain ⟨G, rfl⟩ : ∃ G : Fin dim → K, y = embed num G := exists_embed hy fun hi =>
      let ⟨a, _, ha, _⟩ := hcoordinate hi
      ⟨a, ha⟩
    obtain ⟨d, rfl⟩ : ∃ d : Fin dim → K, z = embed num d := exists_embed hz fun hi =>
      let ⟨_, b, _, hb⟩ := hcoordinate hi
      ⟨b, hb⟩
    exact ⟨G, d, rfl, rfl, A.injective ((dot_embed A G d).symm.trans H)⟩
  · rintro ⟨G, d, rfl, rfl, rfl⟩
    exact dot_embed A G d

end Point

end OrderedRing

/-! ## How a search ends -/

namespace LineSearch

variable {f : Point α → Except ExpressionError α} {g : Point α → Except ExpressionError (Point α)}
  {dim : ℕ}

/-- The value at a step is small enough. -/
def Falls (o : LineSearch α) (f : Point α → Except ExpressionError α) (x d : Point α)
    (fx slope step : α) : Prop :=
  ∃ v, f (x.along d step) = .ok v ∧ o.sufficientAt fx slope step v = true

/-- A search that had tried `tried` steps before `start` shrinks its step `k` times: no step falls
enough but possibly the last, and if that does not, the budget is used up. -/
structure Ends (o : LineSearch α) (f : Point α → Except ExpressionError α) (x d : Point α)
    (fx slope : α) (left : ℕ) (start : α) (tried k : ℕ) (r : LineSearchResult α) : Prop where
  le : k ≤ left
  trials : r.trials = tried + 1 + k
  step : r.step = (· * o.beta)^[k] start
  point : r.candidate.point = x.along d r.step
  value : f r.candidate.point = .ok r.candidate.value
  failed : ∀ j < k, ¬o.Falls f x d fx slope ((· * o.beta)^[j] start)
  sufficient : r.sufficient = true ↔ o.Falls f x d fx slope r.step
  exhausted : r.sufficient = false → k = left

variable {o : LineSearch α} {x d : Point α} {fx slope start v : α} {left tried k : ℕ}
  {r : LineSearchResult α}

theorem falls_iff (hv : f (x.along d start) = .ok v) :
    o.Falls f x d fx slope start ↔ o.sufficientAt fx slope start v = true := by
  constructor
  · rintro ⟨w, hw, H⟩
    cases hv.symm.trans hw
    exact H
  · exact fun H => ⟨v, hv, H⟩

/-- A search ends with a step that falls enough, and with the last of its budget. -/
theorem Ends.last (hv : f (x.along d start) = .ok v) {b : Bool}
    (hb : o.sufficientAt fx slope start v = b) (hleft : b = false → left = 0) :
    o.Ends f x d fx slope left start tried 0 ⟨⟨v, x.along d start⟩, start, tried + 1, b⟩ where
  le := left.zero_le
  trials := rfl
  step := rfl
  point := rfl
  value := hv
  failed _ hj := absurd hj (Nat.not_lt_zero _)
  sufficient := hb ▸ (falls_iff hv).symm
  exhausted h := (hleft h).symm

/-- A step that does not fall enough is the first of those that fail. -/
theorem Ends.shrink (H : o.Ends f x d fx slope left (start * o.beta) (tried + 1) k r)
    (hfail : ¬o.Falls f x d fx slope start) :
    o.Ends f x d fx slope (left + 1) start tried (k + 1) r where
  le := Nat.succ_le_succ H.le
  trials := by rw [H.trials]; omega
  step := H.step
  point := H.point
  value := H.value
  failed j hj := by
    cases j with
    | zero => exact hfail
    | succ j => exact H.failed j (Nat.lt_of_succ_lt_succ hj)
  sufficient := H.sufficient
  exhausted h := congrArg Nat.succ (H.exhausted h)

theorem backtrack_ends (E : Evaluable f g dim) (o : LineSearch α) (hx : x.size = dim)
    (hd : d.size = dim) (fx slope : α) (left : ℕ) (start : α) (tried : ℕ) :
    ∃ r k, o.backtrack f x d fx slope left start (tried + 1) = .ok r ∧
      o.Ends f x d fx slope left start tried k r := by
  have hsize (t : α) : (x.along d t).size = dim := (Point.size_along (hd.trans hx.symm) t).trans hx
  induction left generalizing start tried with
  | zero =>
    obtain ⟨v, hv⟩ := E.value (hsize start)
    rw [backtrack, ok_bind hv]
    split
    · rename_i hs
      exact ⟨_, 0, rfl, .last hv hs fun h => (Bool.false_ne_true h.symm).elim⟩
    · rename_i hs
      exact ⟨_, 0, rfl, .last hv (Bool.eq_false_of_not_eq_true hs) fun _ => rfl⟩
  | succ left ih =>
    obtain ⟨v, hv⟩ := E.value (hsize start)
    rw [backtrack, ok_bind hv]
    split
    · rename_i hs
      exact ⟨_, 0, rfl, .last hv hs fun h => (Bool.false_ne_true h.symm).elim⟩
    · rename_i hs
      obtain ⟨r, k, hr, H⟩ := ih (start * o.beta) (tried + 1)
      exact ⟨r, k + 1, hr, H.shrink (mt (falls_iff hv).mp hs)⟩

/-! ## Armijo's inequality -/

section Armijo

variable [CommRing K] [LinearOrder K] {num : K → α} {a b t : K} {n : ℤ}

open Point (embed)

/-- Armijo's inequality at a step, between a value, the value at the start and the slope there. An
inequality with an undefined side does not hold. -/
def Armijo (num : K → α) (f : Point α → Except ExpressionError α)
    (g : Point α → Except ExpressionError (Point α)) (a : K) (x d : Fin dim → K) (t : K) : Prop :=
  ∃ u v G, f (embed num x) = .ok (num u) ∧ f (embed num (x + t • d)) = .ok (num v) ∧
    g (embed num x) = .ok (embed num G) ∧ v ≤ u + a * t * ∑ i, G i * d i

/-- The first of the steps `1`, `b`, `b ^ 2` and so on that satisfies Armijo's inequality, or else
the last of the `n` that are allowed, with the value and the point there. -/
structure Finds (num : K → α) (f : Point α → Except ExpressionError α)
    (g : Point α → Except ExpressionError (Point α)) (a b : K) (n : ℤ) (x d : Fin dim → K)
    (r : LineSearchResult α) : Prop where
  one_le : 1 ≤ r.trials
  le : r.trials ≤ n
  step : r.step = num (b ^ (r.trials - 1))
  pos : 0 < b ^ (r.trials - 1)
  le_one : b ^ (r.trials - 1) ≤ 1
  point : r.candidate.point = embed num (x + b ^ (r.trials - 1) • d)
  value : f (embed num (x + b ^ (r.trials - 1) • d)) = .ok r.candidate.value
  failed : ∀ j < r.trials - 1, ¬Armijo num f g a x d (b ^ j)
  sufficient : r.sufficient = true ↔ Armijo num f g a x d (b ^ (r.trials - 1))
  exhausted : r.sufficient = false → r.trials = n

theorem falls_iff_armijo (A : Scalar.OrderedRing num) {x d : Fin dim → K} {gx : Point α}
    (hfx : f (embed num x) = .ok fx) (hgx : g (embed num x) = .ok gx) (hsize : gx.size = dim) :
    (⟨num a, num b, n⟩ : LineSearch α).Falls f (embed num x) (embed num d) fx
      (gx.dot (embed num d)) (num t) ↔ Armijo num f g a x d t := by
  rw [Falls, Point.along_embed A]
  constructor
  · rintro ⟨w, hw, hle⟩
    obtain ⟨v, c, rfl, hc, hvc⟩ := A.le.mp hle
    obtain ⟨u, e, rfl, he, rfl⟩ := A.add.mp hc
    obtain ⟨s, m, hs, hm, rfl⟩ := A.mul.mp he
    obtain ⟨G, d', rfl, hd, rfl⟩ := (Point.dot_eq A hsize Point.size_embed).mp hm
    cases Point.embed_injective A.injective hd
    cases A.injective ((A.num_mul a t).symm.trans hs)
    exact ⟨u, v, G, hfx, hw, hgx, hvc⟩
  · rintro ⟨u, v, G, hu, hv, hG, hle⟩
    cases hfx.symm.trans hu
    cases hgx.symm.trans hG
    refine ⟨num v, hv, A.le.mpr ⟨v, _, rfl, ?_, hle⟩⟩
    rw [Point.dot_embed A, A.num_mul, A.num_mul, A.num_add]

theorem validate_ok (A : Scalar.OrderedRing num) (ha0 : 0 < a) (ha1 : a < 1) (hb0 : 0 < b)
    (hb1 : b < 1) (hn : 1 ≤ n) : (⟨num a, num b, n⟩ : LineSearch α).validate = .ok () := by
  simp [validate, A.isFraction ha0 ha1, A.isFraction hb0 hb1, hn]

variable {x d : Fin dim → K} {fx : α} {gx : Point α} {k : ℕ} {r : LineSearchResult α}

theorem Ends.finds [IsStrictOrderedRing K] (A : Scalar.OrderedRing num) (hb0 : 0 < b)
    (hb1 : b < 1) (hn : 1 ≤ n) (hfx : f (embed num x) = .ok fx) (hgx : g (embed num x) = .ok gx)
    (hsize : gx.size = dim)
    (H : (⟨num a, num b, n⟩ : LineSearch α).Ends f (embed num x) (embed num d) fx
      (gx.dot (embed num d)) (n.toNat - 1) (Scalar.nat 1) 0 k r) :
    Finds num f g a b n x d r := by
  have hle := H.le
  have htrials := H.trials
  obtain rfl : k = r.trials - 1 := by omega
  have hstep : r.step = num (b ^ (r.trials - 1)) := H.step.trans (A.iterate_mul b _)
  have hpoint : r.candidate.point = embed num (x + b ^ (r.trials - 1) • d) := by
    rw [H.point, hstep, Point.along_embed A]
  have harmijo (j : ℕ) : (⟨num a, num b, n⟩ : LineSearch α).Falls f (embed num x) (embed num d) fx
      (gx.dot (embed num d)) (num (b ^ j)) ↔ Armijo num f g a x d (b ^ j) :=
    falls_iff_armijo A hfx hgx hsize
  exact {
    one_le := by omega
    le := by omega
    step := hstep
    pos := pow_pos hb0 _
    le_one := pow_le_one₀ hb0.le hb1.le
    point := hpoint
    value := hpoint ▸ H.value
    failed j hj := by
      rw [← harmijo, ← A.iterate_mul]
      exact H.failed j hj
    sufficient := by
      rw [← harmijo, ← hstep]
      exact H.sufficient
    exhausted h := by
      have hlast := H.exhausted h
      omega }

/-- A search in exact arithmetic finds the first step that satisfies Armijo's inequality. -/
theorem search_finds [IsStrictOrderedRing K] (A : Scalar.OrderedRing num) (E : Evaluable f g dim)
    (ha0 : 0 < a) (ha1 : a < 1) (hb0 : 0 < b) (hb1 : b < 1) (hn : 1 ≤ n) (x d : Fin dim → K) :
    ∃ r, (⟨num a, num b, n⟩ : LineSearch α).search f g (embed num x) (embed num d) = .ok r ∧
      Finds num f g a b n x d r := by
  have hsize {y : Fin dim → K} : (embed num y).size = dim := Point.size_embed
  obtain ⟨fx, hfx⟩ := E.value (x := embed num x) hsize
  obtain ⟨gx, hgx, hgsize⟩ := E.gradient (x := embed num x) hsize
  have hdot : gx.dot? (embed num d) = .ok (gx.dot (embed num d)) := if_pos (hgsize.trans hsize.symm)
  obtain ⟨r, k, hr, H⟩ := backtrack_ends E ⟨num a, num b, n⟩ (x := embed num x) (d := embed num d)
    hsize hsize fx (gx.dot (embed num d)) (n.toNat - 1) (Scalar.nat 1) 0
  refine ⟨r, ?_, H.finds A hb0 hb1 hn hfx hgx hgsize⟩
  rw [search, ok_bind (validate_ok A ha0 ha1 hb0 hb1 hn), mapError_ok_bind hfx,
    mapError_ok_bind hgx, mapError_ok_bind hdot, hr]
  rfl

/-- From `1` towards `-1` the first two steps leave the domain of the logarithm. -/
theorem search_finds_log :
    let f (y : Point PartialReal) : Except ExpressionError PartialReal :=
      .ok (Scalar.unary .log (y.getD 0 none))
    let g (y : Point PartialReal) : Except ExpressionError (Point PartialReal) :=
      .ok (y.map (Scalar.nat 1 / ·))
    ∃ r, (⟨some (1 / 2), some (1 / 2), 3⟩ : LineSearch PartialReal).search f g (embed some ![1])
        (embed some ![-2]) = .ok r ∧
      Finds some f g (1 / 2) (1 / 2) 3 ![1] ![-2] r :=
  search_finds PartialReal.orderedRing ⟨fun _ => ⟨_, rfl⟩, fun h => ⟨_, rfl, by simpa using h⟩⟩
    (by norm_num) (by norm_num) (by norm_num) (by norm_num) (by norm_num) _ _

end Armijo

end LineSearch

end Downhill
