import Downhill.Proofs.Real.PartialReal
import Downhill.Proofs.Term.Derivative
import Downhill.Proofs.Term.Text

/-!
# Independence of the history

Where numbers that compare equal are the same, a reached pool does nothing but what is done to terms
(`Pool.Faithful`), and there is no trace in a result of what was built, differentiated or refused
before. So two pools that hold the same expression cannot be told apart by it or by its derivatives,
only by the handles (`histories_agree`).
-/

namespace Downhill

variable {α : Type} [Scalar α] {p q r : Pool α} {h k : Handle} {s t : Term α}

/-! ## What can be told apart -/

/-- Two nodes with the same term, the same texts and the same values. -/
structure Pool.Alike (p : Pool α) (h : Handle) (q : Pool α) (k : Handle) : Prop where
  term : ∃ t, p.Unfolds h t ∧ q.Unfolds k t
  text : ∀ numeral, ∃ s, p.render numeral h = .ok s ∧ q.render numeral k = .ok s
  value : ∀ x v, p.HasValue h x v ↔ q.HasValue k x v

theorem Pool.Unfolds.alike (H : p.Unfolds h t) (H' : q.Unfolds k t) (hp : p.WF) (hq : q.WF) :
    p.Alike h q k where
  term := ⟨t, H, H'⟩
  text numeral := ⟨t.text numeral, H.render hp numeral, H'.render hq numeral⟩
  value _ _ := (H.hasValue_iff hp).trans (H'.hasValue_iff hq).symm

/-- Two calls that find nodes which are alike, or are refused with the same error. -/
inductive Build.Agree {α : Type} [Scalar α] :
    Except ExpressionError Handle × Pool α → Except ExpressionError Handle × Pool α → Prop where
  | found {p q : Pool α} {h k : Handle} : p.Alike h q k → Agree (.ok h, p) (.ok k, q)
  | refused {p q : Pool α} : Agree (.error e, p) (.error e, q)

theorem Build.Derived.agree {r r' : Except ExpressionError Handle × Pool α} {i : Nat}
    (H : Build.Derived i t r) (H' : Build.Derived i t r') (hr : r.2.WF) (hr' : r'.2.WF) :
    Build.Agree r r' := by
  cases H with
  | found hs hd =>
    cases H' with
    | found hs' hd' =>
      cases hs.symm.trans hs'
      exact .found (hd.alike hd' hr hr')
    | refused hnone => exact nomatch hs.symm.trans hnone
  | refused hnone =>
    cases H' with
    | found hs' => exact nomatch hs'.symm.trans hnone
    | refused => exact .refused

/-! ## Pools as terms -/

/-- A pool in which every constructor and every derivative is that of terms. -/
structure Pool.Faithful (p : Pool α) : Prop where
  term : ∀ {h}, p.Names h → ∃! t, p.Unfolds h t
  unary : ∀ {name op a s}, Operator.ofName? name = some (.unary op) → p.Unfolds a s →
    ∃ h q, (Build.unaryNamed name a).run p = (.ok h, q) ∧ q.Unfolds h (s.mkUnary op)
  binary : ∀ {name op a b s t}, Operator.ofName? name = some (.binary op) → p.Unfolds a s →
    p.Unfolds b t →
    ∃ h q, (Build.binaryNamed name a b).run p = (.ok h, q) ∧ q.Unfolds h (s.mkBinary op t)
  written : ∀ {h t}, Written p (.expression h) t → p.Unfolds h t.simplified
  derivative : ∀ {h t}, p.Unfolds h t → ∀ i : Nat,
    Build.Derived i t ((Build.differentiateBy h i).run p)

theorem Pool.Reached.refines (E : Scalar.Exact α) (H : p.Reached) : p.Faithful where
  term hh := let ⟨t, ht⟩ := H.wf.unfolds hh; ⟨t, ht, fun _ hs => hs.unique ht⟩
  unary {name op a s} hname ha := by
    refine ⟨_, _, ?_, ha.mkUnary E H.wf.indexed op⟩
    rw [Build.unaryNamed, hname]
    exact Build.run_unary op ha.names
  binary {name op a b s t} hname ha hb := by
    refine ⟨_, _, ?_, ha.mkBinary E H.wf.indexed hb op⟩
    rw [Build.binaryNamed, hname]
    exact Build.run_binary op ha.names hb.names
  written hw := hw.unfolds E
  derivative ht i := Build.run_differentiate_unfolds E H ht i

/-! ## Two histories -/

/-- The derivatives of one expression agree, wherever and whenever they are taken. -/
theorem Written.agree (E : Scalar.Exact α) (H : Written p (.expression h) t)
    (H' : Written q (.expression k) t) (i : Int) :
    Build.Agree ((Build.differentiateBy h i).run p) ((Build.differentiateBy k i).run q) := by
  by_cases hi : i < 0
  · rw [Build.differentiateBy, Build.differentiateBy, if_pos hi, if_pos hi]
    exact .refused
  · obtain ⟨n, rfl⟩ := Int.eq_ofNat_of_zero_le (Int.not_lt.mp hi)
    have hp := (H.valid.1.call (.differentiate h n) H.nonneg).wf
    have hq := (H'.valid.1.call (.differentiate k n) H'.nonneg).wf
    exact (Build.run_differentiate_unfolds E H.valid.1 (H.unfolds E) n).agree
      (Build.run_differentiate_unfolds E H'.valid.1 (H'.unfolds E) n) hp hq

/-- No history makes a difference: pools do what is done to terms; the same expression, built and
differentiated in two of them, is the same there; and so it is within one pool after any calls, in
whatever order they are made. -/
theorem histories_agree (E : Scalar.Exact α) :
    (∀ {p : Pool α}, p.Reached → p.Faithful) ∧
    (∀ {p q : Pool α} {h k t}, Written p (.expression h) t → Written q (.expression k) t →
      p.Alike h q k ∧ ∀ i : Int,
        Build.Agree ((Build.differentiateBy h i).run p) ((Build.differentiateBy k i).run q)) ∧
    ∀ {p q r : Pool α} {h}, p.Reached → p.Names h → p.Leads q → p.Leads r →
      q.Alike h r h ∧ ∀ i : Int,
        Build.Agree ((Build.differentiateBy h i).run q) ((Build.differentiateBy h i).run r) := by
  have two {p q : Pool α} {h k t} (H : Written p (.expression h) t)
      (H' : Written q (.expression k) t) : p.Alike h q k ∧ ∀ i : Int,
        Build.Agree ((Build.differentiateBy h i).run p) ((Build.differentiateBy k i).run q) :=
    ⟨(H.unfolds E).alike (H'.unfolds E) H.valid.1.wf H'.valid.1.wf, H.agree E H'⟩
  refine ⟨fun H => H.refines E, two, ?_⟩
  intro p q r h hp hh hq hr
  obtain ⟨t, ht⟩ := hp.wf.unfolds hh
  exact two (.later (.node hp ht) hq) (.later (.node hp ht) hr)

namespace PartialReal

theorem exact : Scalar.Exact PartialReal := by
  intro v w heq
  cases v with
  | none => cases heq
  | some v =>
    cases w with
    | none => cases heq
    | some w => rw [eq_some.mp heq]

/-- The logarithm of a variable, alone in a pool and in one where the derivative of a step was asked
for and refused. -/
theorem histories_agree_log : ∃ (p q : Pool PartialReal) (h k : Handle), h ≠ k ∧ p.Alike h q k ∧
    ∀ i : Int,
      Build.Agree ((Build.differentiateBy h i).run p) ((Build.differentiateBy k i).run q) := by
  have hx := Written.var (α := PartialReal) .empty 0
  have hstep := hx.later ((Pool.Leads.rfl.call (.var 1) trivial).call
    (.unary "unit_step" 1) (Int.natCast_nonneg 1))
  have hrefused := hstep.later (Pool.Leads.rfl.call (.differentiate 2 0) (Int.natCast_nonneg 2))
  refine ⟨_, _, _, _, ?_, (histories_agree exact).2.1 (hx.unary .log) (hrefused.unary .log)⟩
  decide +kernel

end PartialReal

end Downhill
