import Downhill.Proofs.Pool.Memory
import Downhill.Proofs.Term.Simplified

/-!
# Derivatives of terms

The derivative of a term by its structure alone (`Term.derivative?`): the rules are the same, but
there is no pool and no memory. A term has one unless some operator in it has no rule. Whatever a
pool remembers, it remembers of each node the derivative of the term that the node stands for
(`Reached.faithful`); so what a call gives depends on that term and on nothing else
(`Build.run_differentiate_unfolds`).
-/

namespace Downhill

variable {α : Type} [Scalar α]

/-- A formula filled in with terms. -/
def Formula.term (arg tangent : ι → Term α) : Formula ι → Term α
  | .arg i => arg i
  | .tangent i => tangent i
  | num n => .num (Scalar.nat n)
  | unary op f => (f.term arg tangent).mkUnary op
  | binary op f g => (f.term arg tangent).mkBinary op (g.term arg tangent)

theorem Formula.reads_term (u v : ι → Term α) (f : Formula ι) :
    f.Reads .simplifying u v (f.term u v) := by
  induction f with
  | arg i => exact .arg i
  | tangent i => exact .tangent i
  | num n => exact .num rfl
  | unary op f ih => exact .unary ih rfl
  | binary op f g ihf ihg => exact .binary ihf ihg rfl

/-- The derivative of a term by `x[i]`. -/
def Term.derivative? (i : Nat) : Term α → Option (Term α)
  | num _ => some (num (Scalar.nat 0))
  | var j => some (num (Scalar.nat (if j = i then 1 else 0)))
  | unary op t => do
    let dt ← t.derivative? i
    let rule ← op.rule?
    return rule.term (fun _ => t) (fun _ => dt)
  | binary op s t => do
    let ds ← s.derivative? i
    let dt ← t.derivative? i
    return (op.rule t.number?.isSome).term (Side.select s t) (Side.select ds dt)

namespace Pool

variable {p q : Pool α} {h k d : Handle} {i : Nat} {n : Node Handle α} {s t : Term α}
  {r : Handle × Pool α}

/-! ## Remembered derivatives -/

/-- A node that stands for the derivative of the term of another one. -/
def DerivativeAt (p : Pool α) (h : Handle) (i : Nat) (d : Handle) : Prop :=
  ∀ {t}, p.Unfolds h t → ∃ s, t.derivative? i = some s ∧ p.Unfolds d s

/-- A derivative built by a rule is that of the term. -/
theorem Derives.unfolds (E : Scalar.Exact α) (hp : p.WF)
    (hP : ∀ {k j d}, p.derivative? k j = some d → p.DerivativeAt k j d) (H : p.Derives i n r)
    (hn : p.Holds h n) (ht : p.Unfolds h t) :
    ∃ s, t.derivative? i = some s ∧ r.2.Unfolds r.1 s := by
  have K := Interpretation.kept_simplifying E
  cases H with
  | const =>
    cases ht.of_const hn
    exact ⟨_, rfl, unfolds_constant E hp.indexed _⟩
  | var =>
    cases ht.of_var hn
    exact ⟨_, rfl, unfolds_constant E hp.indexed _⟩
  | @unary a da rule op hda hrule =>
    obtain ⟨s, hs, rfl⟩ := ht.of_unary hn
    obtain ⟨ds, hds, hd⟩ := hP hda hs
    refine ⟨rule.term (fun _ => s) fun _ => ds, ?_, ?_⟩
    · simp [Term.derivative?, hds, hrule]
    · exact Formula.kept K hp (fun _ => hs) (fun _ => hd) (rule.reads_term ..)
  | @binary a da b db op hda hdb =>
    obtain ⟨s, t, hs, ht', rfl⟩ := ht.of_binary hn
    obtain ⟨ds, hds, hd⟩ := hP hda hs
    obtain ⟨dt, hdt, hd'⟩ := hP hdb ht'
    have hconst : p.isConstant b = t.number?.isSome := by rw [Unfolds.number? ht', isConstant]
    have hterms : ∀ x, p.Unfolds (Side.select a b x) (Side.select s t x) :=
      Side.forall.mpr ⟨hs, ht'⟩
    have hderivatives : ∀ x, p.Unfolds (Side.select da db x) (Side.select ds dt x) :=
      Side.forall.mpr ⟨hd, hd'⟩
    refine ⟨(op.rule t.number?.isSome).term (Side.select s t) (Side.select ds dt), ?_, ?_⟩
    · simp [Term.derivative?, hds, hdt]
    · rw [hconst]
      exact Formula.kept K hp hterms hderivatives (Formula.reads_term ..)

theorem inherited_derivativeAt (E : Scalar.Exact α) : Inherited (DerivativeAt (α := α)) where
  mono H hp hle hh := fun ht => by
    obtain ⟨s, hs, hd⟩ := H (ht.old hp hle hh)
    exact ⟨s, hs, hd.mono hle⟩
  derives {p h i n r} hp hP hn hd := fun ht =>
    hd.unfolds E hp hP hn (ht.old hp (hd.yields hp hn).grows.le hn.names)

/-- What a reached pool remembers of a node is the derivative of the term it stands for. -/
theorem Reached.faithful (E : Scalar.Exact α) (H : p.Reached) (hd : p.derivative? h i = some d)
    (ht : p.Unfolds h t) : ∃ s, t.derivative? i = some s ∧ p.Unfolds d s :=
  H.inherits (inherited_derivativeAt E) hd ht

/-- The terms that a derivative is built from have derivatives too. -/
theorem Unfolds.arg_derivative? (H : p.Unfolds h t) (ht : t.derivative? i ≠ none)
    (hn : p.Holds h n) (ha : a ∈ n.args) : ∃ s, p.Unfolds a s ∧ s.derivative? i ≠ none := by
  cases n with
  | const | var => exact nomatch ha
  | unary op k =>
    obtain ⟨s, hs, rfl⟩ := H.of_unary hn
    cases List.mem_singleton.mp ha
    refine ⟨s, hs, fun hnone => ht ?_⟩
    simp [Term.derivative?, hnone]
  | binary op k l =>
    obtain ⟨s, s', hs, hs', rfl⟩ := H.of_binary hn
    rcases List.mem_cons.mp ha with rfl | ha
    · refine ⟨s, hs, fun hnone => ht ?_⟩
      simp [Term.derivative?, hnone]
    · cases List.mem_singleton.mp ha
      refine ⟨s', hs', fun hnone => ht ?_⟩
      simp [Term.derivative?, hnone]

/-- Below a node whose term has a derivative, every operator has a rule. -/
theorem Unfolds.rule?_ne_none (H : p.Unfolds h t) (ht : t.derivative? i ≠ none)
    (hk : p.Reaches h k) (hn : p.Holds k (.unary op a)) : op.rule? ≠ none := by
  induction hk generalizing t with
  | rfl =>
    obtain ⟨s, _, rfl⟩ := H.of_unary hn
    intro hnone
    exact ht (by simp [Term.derivative?, hnone])
  | step hm hb _ ih =>
    obtain ⟨s, hs, hne⟩ := H.arg_derivative? ht hm hb
    exact ih hs hne hn

end Pool

namespace Build

variable {p : Pool α} {h : Handle} {t : Term α}

/-! ## Calls -/

/-- What a derivative by `x[i]` has come to, for a node that stands for a given term. -/
inductive Derived (i : Nat) (t : Term α) : Except ExpressionError Handle × Pool α → Prop where
  | found : t.derivative? i = some s → q.Unfolds d s → Derived i t (.ok d, q)
  | refused : t.derivative? i = none → Derived i t (.error (.notDifferentiable .unitStep), q)

/-- A call depends on the term that a node stands for and on nothing else. -/
theorem run_differentiate_unfolds (E : Scalar.Exact α) (hp : p.Reached) (ht : p.Unfolds h t)
    (i : Nat) : Derived i t ((differentiateBy h i).run p) := by
  rw [run_differentiateBy_ofNat]
  rcases run_differentiate_cases (i := i) hp.wf ht.names with
    ⟨d, q, hr, he, hd, _⟩ | ⟨q, k, a, hk, hn, hr⟩
  · have hq : q.Reached := reached_differentiate hp ht.names hr
    obtain ⟨s, hs, hunfolds⟩ := hq.faithful E hd (ht.mono (he.le hp.wf))
    rw [hr]
    exact .found hs hunfolds
  · rw [hr]
    refine .refused (Decidable.byContradiction fun hne => ?_)
    exact ht.rule?_ne_none hne hk hn rfl

end Build

end Downhill
