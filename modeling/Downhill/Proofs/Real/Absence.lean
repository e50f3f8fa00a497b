import Downhill.Proofs.Meaning.Absence
import Downhill.Proofs.Real.PartialReal

/-!
# Absent variables in exact arithmetic

The laws of zeros hold for real numbers that may be undefined, and there the provisos of `Pool.Tame`
say no more than that nothing below a node is undefined (`Regular.tame`). So a derivative by a
variable that is absent is the constant zero, for doubles wherever zero times a constant and so on
is computed as zero, and in exact arithmetic wherever that makes sense
(`absent_variable_derivative`).
-/

namespace Downhill

open scoped Scalar

namespace PartialReal

variable {a b : PartialReal} {u : ℝ}

theorem isZero_iff : Scalar.IsZero a ↔ a = some 0 := by
  have h0 : (Scalar.nat 0 : PartialReal) = some 0 := by rw [nat_eq, Nat.cast_zero]
  cases a with
  | none => exact iff_of_false (fun H => nomatch H) nofun
  | some u => rw [Scalar.IsZero, h0, eq_some, Option.some_inj]

theorem eq_of_storedAs (H : Scalar.StoredAs a b) : b = a := by
  rcases H with rfl | H
  · rfl
  · cases a with
    | none => cases H
    | some u => exact (identities.eq_sound ⟨u, rfl⟩ H).symm

theorem factor_iff : Scalar.Factor a ↔ Defined a := by
  rw [Scalar.Factor, isZero_iff]
  refine binary_eq_some.trans ⟨fun ⟨_, u, _, hu, _⟩ => ⟨u, hu⟩, ?_⟩
  rintro ⟨u, rfl⟩
  exact ⟨_, u, nat_eq 0, rfl, trivial, by simp [BinaryOp.real]⟩

theorem divisor_iff : Scalar.Divisor a ↔ Defined a ∧ a ≠ some 0 := by
  rw [Scalar.Divisor, isZero_iff]
  refine binary_eq_some.trans ⟨?_, ?_⟩
  · rintro ⟨_, u, _, rfl, hu, _⟩
    exact ⟨⟨u, rfl⟩, fun h0 => hu (Option.some.inj h0)⟩
  · rintro ⟨⟨u, rfl⟩, hu⟩
    exact ⟨_, u, nat_eq 0, rfl, fun h0 => hu (congrArg some h0), by simp [BinaryOp.real]⟩

theorem zeroLaws : Scalar.ZeroLaws PartialReal where
  zero := isZero_iff.mpr (by rw [nat_eq, Nat.cast_zero])
  one hw := by
    rw [eq_of_storedAs hw, isZero_iff, nat_eq]
    simp
  two hw := by
    rw [eq_of_storedAs hw, isZero_iff, nat_eq]
    simp
  stored hv hw := eq_of_storedAs hw ▸ hv
  neg hv := by
    rw [isZero_iff] at hv ⊢
    exact unary_eq_some.mpr ⟨0, hv, trivial, neg_zero⟩
  add hv hw := by
    rw [isZero_iff] at hv hw ⊢
    exact binary_eq_some.mpr ⟨0, 0, hv, hw, trivial, add_zero 0⟩
  sub hv hw := by
    rw [isZero_iff] at hv hw ⊢
    exact binary_eq_some.mpr ⟨0, 0, hv, hw, trivial, sub_zero 0⟩
  mul hv hc := by
    obtain ⟨u, rfl⟩ := factor_iff.mp hc
    rw [isZero_iff] at hv ⊢
    exact binary_eq_some.mpr ⟨0, u, hv, rfl, trivial, zero_mul u⟩
  mul_right hv hc := by
    obtain ⟨u, rfl⟩ := factor_iff.mp hc
    rw [isZero_iff] at hv ⊢
    exact binary_eq_some.mpr ⟨u, 0, rfl, hv, trivial, mul_zero u⟩
  div hv hc := by
    obtain ⟨⟨u, rfl⟩, hu⟩ := divisor_iff.mp hc
    rw [isZero_iff] at hv ⊢
    exact binary_eq_some.mpr ⟨0, u, hv, rfl, fun h0 => hu (congrArg some h0), zero_div u⟩
  factor_zero := factor_iff.mpr ⟨_, nat_eq 0⟩
  factor_one hc hu := by
    obtain ⟨u, rfl⟩ := factor_iff.mp hc
    rw [eq_of_storedAs hu]
    exact factor_iff.mpr ⟨_, literal_right trivial rfl⟩
  factor_stored hv hw := eq_of_storedAs hw ▸ hv
  divisor_stored hv hw := eq_of_storedAs hw ▸ hv

end PartialReal

namespace Pool

open PartialReal

/-- Nothing below a node is undefined: no number, no quotient by a constant and no power of a
constant by anything else. -/
structure Regular (p : Pool PartialReal) (h : Handle) : Prop where
  number : ∀ {k c}, p.Reaches h k → p.Holds k (.const c) → Defined c
  divisor : ∀ {k a b}, p.Reaches h k → p.Holds k (.binary .div a b) → ¬p.Holds b (.const (some 0))
  base : ∀ {k a b u}, p.Reaches h k → p.Holds k (.binary .pow a b) → p.Holds a (.const (some u)) →
    0 < u

theorem Regular.tame {p : Pool PartialReal} {h : Handle} (H : p.Regular h) : p.Tame h where
  factor hk hc := factor_iff.mpr (H.number hk hc)
  divisor {k a b c} hk hn hc := by
    obtain ⟨u, rfl⟩ := H.number (hk.arg hn (List.mem_cons_of_mem _ List.mem_cons_self)) hc
    have hu : u ≠ 0 := by
      rintro rfl
      exact H.divisor hk hn hc
    have hsquare : (some u * some u : PartialReal) = some (u * u) := binary_some trivial
    rw [hsquare]
    exact divisor_iff.mpr ⟨⟨_, rfl⟩, fun h0 => mul_ne_zero hu hu (Option.some.inj h0)⟩
  base {k a b c} hk hn hc := by
    obtain ⟨u, rfl⟩ := H.number (hk.arg hn List.mem_cons_self) hc
    have hu := H.base hk hn hc
    exact ⟨factor_iff.mpr ⟨_, unary_some hu⟩,
      divisor_iff.mpr ⟨⟨u, rfl⟩, fun h0 => hu.ne' (Option.some.inj h0)⟩⟩

end Pool

/-- The derivative of an expression by a variable that it does not use is a constant, and equal to
zero, provided that constants beside a zero give zero. In exact arithmetic they do, where there is
nothing undefined. -/
theorem absent_variable_derivative :
    (∀ {p : Pool Float} {h} {i : ℕ}, p.Reached → p.Names h → ¬p.Stepped h → p.Lacks h i →
      p.Tame h → ∃ d q v, (Build.differentiateBy h i).run p = (.ok d, q) ∧
        q.Holds d (.const v) ∧ Scalar.eq v (Scalar.nat 0) = true) ∧
    ∀ {p : Pool PartialReal} {h} {i : ℕ}, p.Reached → p.Names h → ¬p.Stepped h → p.Lacks h i →
      p.Regular h → ∃ d q, (Build.differentiateBy h i).run p = (.ok d, q) ∧
        q.Holds d (.const (some 0)) := by
  refine ⟨fun H => H.differentiateBy_zero Double.zeroLaws, ?_⟩
  intro p h i H hh hs hlacks hregular
  obtain ⟨d, q, v, hr, hv, hz⟩ :=
    H.differentiateBy_zero PartialReal.zeroLaws hh hs hlacks hregular.tame
  cases PartialReal.isZero_iff.mp hz
  exact ⟨d, q, hr, hv⟩

theorem reached_quotient : ∃ p : Pool Float, p.Reached ∧ p.Holds 0 (.var 0) ∧ p.Holds 1 (.const 3) ∧
    p.Holds 2 (.binary .div 0 1) := by
  have hvars := Pool.Reached.empty.call (α := Float) (.vars 1) trivial
  have hdiv := hvars.call (.combine .div (.expression 0) (.number 3))
    ⟨Int.natCast_nonneg 0, trivial⟩
  -- doubles are compared by what they are made of
  obtain ⟨p, hp, hx, hmap, hn⟩ : ∃ p : Pool Float, p.Reached ∧ p.Holds 0 (.var 0) ∧
      (p.constant? 1).map Float.toModel = some (3 : Float).toModel ∧
      p.Holds 2 (.binary .div 0 1) := by
    refine ⟨_, hdiv, ?_, by decide +kernel, ?_⟩
    · exact Pool.holds_of_find? (k := 0) hdiv.wf.indexed (by decide +kernel) nofun
    · exact Pool.holds_of_find? (k := 2) hdiv.wf.indexed (by decide +kernel) nofun
  refine ⟨p, hp, hx, Pool.holds_of_constant? (hp.wf.binary_args hn).2 ?_, hn⟩
  obtain ⟨⟨v⟩, hv, he⟩ := Option.map_eq_some_iff.mp hmap
  cases he
  exact hv

theorem reached_power : ∃ p : Pool PartialReal, p.Reached ∧
    p.nodes = #[.var 0, .const (some 2), .binary .pow 1 0] := by
  have hvars := Pool.Reached.empty.call (α := PartialReal) (.vars 1) trivial
  have hpow := hvars.call (.combine .pow (.number (some 2)) (.expression 0))
    ⟨trivial, Int.natCast_nonneg 0⟩
  exact ⟨_, hpow, by cbv⟩

/-- What is below an operator between a variable and a constant. -/
theorem Pool.Holds.of_variable_and_constant {α : Type} {p : Pool α} {a b k : Handle}
    {m : Node Handle α} {c : α} (hm : p.Holds k m) (hk : p.Reaches 2 k) (hx : p.Holds 0 (.var 0))
    (hc : p.Holds 1 (.const c)) (hn : p.Holds 2 (.binary op a b))
    (hab : ∀ k ∈ [a, b], k = 0 ∨ k = 1) :
    m = .binary op a b ∨ m = .var 0 ∨ m = .const c := by
  have hleaves : ∀ k ∈ [a, b], ∃ m, p.Holds k m ∧ m.args = [] := by
    intro k hk
    rcases hab k hk with rfl | rfl
    · exact ⟨_, hx, rfl⟩
    · exact ⟨_, hc, rfl⟩
  rcases hk.of_leaves hn hleaves with rfl | hk
  · exact .inl (hm.unique hn)
  · rcases hab k hk with rfl | rfl
    · exact .inr (.inl (hm.unique hx))
    · exact .inr (.inr (hm.unique hc))

/-- The derivatives of a third of one variable and of a power of two, by another variable. -/
theorem absent_variable_derivative_quotient :
    (∃ (p q : Pool Float) (d : Handle) (v : Float), p.Holds 0 (.var 0) ∧ p.Holds 1 (.const 3) ∧
      p.Holds 2 (.binary .div 0 1) ∧ (Build.differentiateBy 2 1).run p = (.ok d, q) ∧
      q.Holds d (.const v) ∧ Scalar.eq v (Scalar.nat 0) = true) ∧
    ∃ (p q : Pool PartialReal) (d : Handle), p.Holds 0 (.var 0) ∧ p.Holds 1 (.const (some 2)) ∧
      p.Holds 2 (.binary .pow 1 0) ∧ (Build.differentiateBy 2 1).run p = (.ok d, q) ∧
      q.Holds d (.const (some 0)) := by
  obtain ⟨hdoubles, hreals⟩ := absent_variable_derivative
  constructor
  · obtain ⟨p, hp, hx, hc, hn⟩ := reached_quotient
    have below {k m} (hk : p.Reaches 2 k) (hm : p.Holds k m) :=
      hm.of_variable_and_constant hk hx hc hn (by simp)
    have hsteps : ¬p.Stepped 2 := fun ⟨_, _, hk, hm⟩ => by simpa using below hk hm
    have hlacks : p.Lacks 2 1 := fun _ hk hm => by simpa using below hk hm
    have htame : p.Tame 2 := by
      refine ⟨fun hk hm => ?_, fun hk hm hd => ?_, fun hk hm => ?_⟩
      · obtain rfl : _ = (3 : Float) := by simpa using below hk hm
        exact Double.factor_iff.mpr (by decide +kernel)
      · obtain ⟨rfl, rfl⟩ : _ = (0 : Handle) ∧ _ = (1 : Handle) := by simpa using below hk hm
        cases hc.unique hd
        rw [Scalar.Divisor, Scalar.IsZero]
        decide +kernel
      · simpa using below hk hm
    obtain ⟨d, q, v, hr, hv, hz⟩ := hdoubles hp hn.names hsteps hlacks htame
    exact ⟨p, q, d, v, hx, hc, hn, hr, hv, hz⟩
  · obtain ⟨p, hp, hnodes⟩ := reached_power
    have hx : p.Holds 0 (.var 0) := Pool.holds_ofNat.mpr (by rw [hnodes]; rfl)
    have hc : p.Holds 1 (.const (some 2)) := Pool.holds_ofNat.mpr (by rw [hnodes]; rfl)
    have hn : p.Holds 2 (.binary .pow 1 0) := Pool.holds_ofNat.mpr (by rw [hnodes]; rfl)
    have below {k m} (hk : p.Reaches 2 k) (hm : p.Holds k m) :=
      hm.of_variable_and_constant hk hx hc hn (by simp)
    have hsteps : ¬p.Stepped 2 := fun ⟨_, _, hk, hm⟩ => by simpa using below hk hm
    have hlacks : p.Lacks 2 1 := fun _ hk hm => by simpa using below hk hm
    have hregular : p.Regular 2 := by
      refine ⟨fun hk hm => ?_, fun hk hm => ?_, fun hk hm hb => ?_⟩
      · obtain rfl : _ = (some 2 : PartialReal) := by simpa using below hk hm
        exact ⟨2, rfl⟩
      · simpa using below hk hm
      · obtain ⟨rfl, rfl⟩ : _ = (1 : Handle) ∧ _ = (0 : Handle) := by simpa using below hk hm
        cases hc.unique hb
        exact two_pos
    obtain ⟨d, q, hr, hv⟩ := hreals hp hn.names hsteps hlacks hregular
    exact ⟨p, q, d, hx, hc, hn, hr, hv⟩

end Downhill
