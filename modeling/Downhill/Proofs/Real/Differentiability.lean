import Downhill.Proofs.Pool.Memory
import Downhill.Proofs.Real.Gradient
import Downhill.Proofs.Term.Independence

/-!
# What can be differentiated

A call for a derivative is refused if a step is reached from its root and in no other case. A refused
call leaves nodes and derivatives behind, but changes none that are there, and no later call can
tell that it was made (`differentiability_decided`).
-/

namespace Downhill

namespace Pool

/-! ## Decisions -/

section

variable {α : Type} [Scalar α] {p q r : Pool α}

/-- How a pool answers when it is asked for derivatives. -/
structure Decides (p : Pool α) : Prop where
  found_iff : ∀ {h}, p.Names h → ∀ i : ℕ,
    (∃ d q, (Build.differentiateBy h i).run p = (.ok d, q)) ↔ ¬p.Stepped h
  refused_iff : ∀ {h}, p.Names h → ∀ (i : ℕ) e,
    (∃ q, (Build.differentiateBy h i).run p = (.error e, q)) ↔
      p.Stepped h ∧ e = .notDifferentiable .unitStep
  /-- Where numbers that compare equal are the same, the answer depends on nothing but the term. -/
  derived : Scalar.Exact α → ∀ {h t}, p.Unfolds h t → ∀ i : ℕ,
    Build.Derived i t ((Build.differentiateBy h i).run p)

theorem Reached.decides (H : p.Reached) : p.Decides where
  found_iff hh _ := Build.run_differentiateBy_ok_iff H hh
  refused_iff hh _ _ := Build.run_differentiateBy_error_iff H hh
  derived E _ _ ht i := Build.run_differentiate_unfolds E H ht i

/-- A later pool answers for the nodes of an earlier one as that would have done. -/
structure Unaffected (p r : Pool α) : Prop where
  le : p ≤ r
  stepped_iff : ∀ {k}, p.Names k → (r.Stepped k ↔ p.Stepped k)
  agree : Scalar.Exact α → ∀ {k}, p.Names k → ∀ j : ℕ,
    Build.Agree ((Build.differentiateBy k j).run r) ((Build.differentiateBy k j).run p)

theorem Reached.unaffected (H : p.Reached) (hr : p.Leads r) : p.Unaffected r where
  le := hr.le H.wf
  stepped_iff hk := hk.stepped_iff H.wf (hr.le H.wf)
  agree E {k} hk j := by
    obtain ⟨t, ht⟩ := H.wf.unfolds hk
    have hw : Written p (.expression k) t := .node H ht
    exact (hw.later hr).agree E hw j

end

/-! ## Slopes -/

section

open PartialReal

variable {p q : Pool PartialReal} {h d : Handle} {t : Term PartialReal} {i : ℕ} {x : Array ℝ}
  {j : Jet}

/-- A term has a value and a derivative at a point, and a node evaluates to the derivative. -/
structure SlopeOf (q : Pool PartialReal) (t : Term PartialReal) (i : ℕ) (d : Handle)
    (x : Array ℝ) (j : Jet) : Prop where
  value : t.Evaluates Defined (x.map some) (some (t.real fun k => x.getD k 0))
  slope : HasDerivAt (fun s => t.real (Term.moved x i s)) j.slope (x.getD i 0)
  compiled : ∃ f, (Build.function x.size (.expression d)).run q = (.ok f, q) ∧
    f.apply (x.map some) = .ok (some j.slope)

/-- What a reached pool remembers of a term is its derivative, wherever it has one. -/
theorem Reached.slopeOf (H : q.Reached) (hd : q.derivative? h i = some d) (ht : q.Unfolds h t)
    (hj : t.Reads (.jet x i) j) : q.SlopeOf t i d x j where
  value := by
    have hvalue := hj.evaluates
    rwa [hvalue.real_eq] at hvalue
  slope := hj.touches.slope
  compiled := by
    have hslope := H.sound.slopeAt hd x j (ht.reads_iff.mpr hj)
    obtain ⟨f, hf, hx⟩ := Build.run_function (u := .expression d) rfl H.wf hslope.evaluates
    rw [Array.size_map] at hf
    exact ⟨f, hf, hx⟩

/-- Every derivative that is found is the right one. -/
def FindsSlopes (p : Pool PartialReal) : Prop :=
  ∀ {h d q t} {i : ℕ}, p.Unfolds h t → (Build.differentiateBy h i).run p = (.ok d, q) →
    ∀ x j, t.Reads (.jet x i) j → q.SlopeOf t i d x j

theorem Reached.findsSlopes (H : p.Reached) : p.FindsSlopes := by
  intro h d q t i ht hr x j hj
  have h0 := (names_iff.mp ht.names).1
  have hl := Build.differentiateBy_leads h0 hr
  have hd := ((Build.differentiateBy_ensures H.wf h0 i).run_ok hr).2
  exact (H.leads hl).slopeOf hd (ht.mono (hl.le H.wf)) hj

end

end Pool

/-! ## Refused calls -/

/-- A derivative is refused because of a step below its root, and for no other reason. After that
the pool holds and remembers all it did, and answers for all nodes as if the refused call had not
been made; what it finds is right. -/
theorem differentiability_decided :
    (∀ {α : Type} [Scalar α] {p : Pool α}, p.Reached → p.Decides) ∧
    (∀ {α : Type} [Scalar α] {p q r : Pool α} {h e} {i : ℕ}, p.Reached → p.Names h →
      (Build.differentiateBy h i).run p = (.error e, q) → q.Leads r →
      p.Unaffected q ∧ p.Unaffected r ∧ r.Decides) ∧
    ∀ {p : Pool PartialReal}, p.Reached → p.FindsSlopes := by
  refine ⟨fun H => H.decides, ?_, fun H => H.findsSlopes⟩
  intro α _ p q r h e i H hh hrun hr
  have hq := Build.differentiateBy_leads (Pool.names_iff.mp hh).1 hrun
  exact ⟨H.unaffected hq, H.unaffected (hq.trans hr), (H.leads (hq.trans hr)).decides⟩

theorem reached_product : ∃ p : Pool PartialReal, p.Reached ∧
    p.nodes = #[.var 0, .var 1, .unary .log 0, .unary .unitStep 1, .binary .mul 2 3] := by
  have hvars := Pool.Reached.empty.call (α := PartialReal) (.vars 2) trivial
  have hlog := hvars.call (.apply .log (.expression 0)) (Int.natCast_nonneg 0)
  have hstep := hlog.call (.apply .unitStep (.expression 1)) (Int.natCast_nonneg 1)
  have hmul := hstep.call (.combine .mul (.expression 2) (.expression 3))
    ⟨Int.natCast_nonneg 2, Int.natCast_nonneg 3⟩
  exact ⟨_, hmul, by cbv⟩

/-- The product of a logarithm and a step is refused. After that the logarithm has its derivative
as before. -/
theorem differentiability_decided_product :
    ∃ (p q : Pool PartialReal) (d : Handle),
      (Build.differentiateBy 4 0).run p = (.error (.notDifferentiable .unitStep), q) ∧
      p.Unaffected q ∧ q.Decides ∧
      ∃ r, (Build.differentiateBy 2 0).run q = (.ok d, r) ∧
        ∀ x j, Term.Reads (.jet x 0) (.unary .log (.var 0)) j →
          r.SlopeOf (.unary .log (.var 0)) 0 d x j := by
  obtain ⟨p, hp, hnodes⟩ := reached_product
  have hx : p.Holds 0 (.var 0) := Pool.holds_ofNat.mpr (by rw [hnodes]; rfl)
  have hlog : p.Holds 2 (.unary .log 0) := Pool.holds_ofNat.mpr (by rw [hnodes]; rfl)
  have hstep : p.Holds 3 (.unary .unitStep 1) := Pool.holds_ofNat.mpr (by rw [hnodes]; rfl)
  have hmul : p.Holds 4 (.binary .mul 2 3) := Pool.holds_ofNat.mpr (by rw [hnodes]; rfl)
  obtain ⟨hdecides, hrefused, hslopes⟩ := differentiability_decided
  have hright : (3 : Handle) ∈ (Node.binary .mul 2 3 : Node Handle PartialReal).args :=
    List.mem_cons_of_mem _ List.mem_cons_self
  have hstepped : p.Stepped 4 := ⟨3, 1, .step hmul hright .rfl, hstep⟩
  obtain ⟨q, hr⟩ := ((hdecides hp).refused_iff hmul.names 0 _).mpr ⟨hstepped, rfl⟩
  obtain ⟨hunaffected, _, hq⟩ := hrefused hp hmul.names hr .rfl
  have hns : ¬q.Stepped 2 := by
    rw [hunaffected.stepped_iff hlog.names]
    rintro ⟨k, a, hk, hn⟩
    cases hk with
    | rfl => cases hlog.unique hn
    | step hm ha hk =>
      cases hlog.unique hm
      cases List.mem_singleton.mp ha
      cases hk with
      | rfl => cases hx.unique hn
      | step hm ha =>
        cases hx.unique hm
        cases ha
  have hterm : q.Unfolds 2 (.unary .log (.var 0)) :=
    .mono (.unary hlog (.var hx rfl) rfl) hunaffected.le
  obtain ⟨d, r, hr'⟩ := (hq.found_iff hterm.names 0).mpr hns
  have hreached := hp.leads (Build.differentiateBy_leads (Int.natCast_nonneg 4) hr)
  exact ⟨p, q, d, hr, hunaffected, hq, r, hr', hslopes hreached hterm hr'⟩

end Downhill
