import Downhill.Proofs.Meaning.Support
import Downhill.Proofs.Term.Derivative

/-!
# Variables of terms

The variables of a term are those below a node that stands for it (`Unfolds.mem_vars`). A
derivative has no others (`Term.vars_derivative?`), and that of a sum or a difference has those of
the summands' derivatives at most (`SlopeWithin.add`, `SlopeWithin.sub`), although the summands may
have many more.
-/

namespace Downhill

namespace Term

variable {α : Type}

def vars : Term α → Set Nat
  | num _ => ∅
  | var i => {i}
  | unary _ t => t.vars
  | binary _ s t => s.vars ∪ t.vars

theorem reads_vars (t : Term α) : t.Reads .support t.vars := by
  induction t with
  | num v => exact .num rfl
  | var i => exact .var rfl
  | unary op t ih => exact .unary ih rfl
  | binary op s t ihs iht => exact .binary ihs iht rfl

end Term

/-- The variables of a term are those below the node that stands for it. -/
theorem Pool.Unfolds.mem_vars {α : Type} {p : Pool α} {h : Handle} {t : Term α}
    (H : p.Unfolds h t) : j ∈ t.vars ↔ ∃ k, p.Reaches h k ∧ p.Holds k (.var j) :=
  (H.reads_iff.mpr t.reads_vars).mem_support

variable {α ι : Type} [Scalar α] {s t : Term α} {V : Set Nat} {i : Nat}

/-! ## Constructors -/

namespace Term

theorem vars_mkUnary (op : UnaryOp) (t : Term α) : (t.mkUnary op).vars = t.vars := by
  unfold mkUnary
  split
  · rfl
  · rfl
  · rfl

theorem vars_reduce (op : BinaryOp) (s t : Term α) : (s.reduce op t).vars ⊆ s.vars ∪ t.vars := by
  have hleft := Set.subset_union_left (s := s.vars) (t := t.vars)
  have hright := Set.subset_union_right (s := s.vars) (t := t.vars)
  have hnone (v : α) : (num v).vars ⊆ s.vars ∪ t.vars := Set.empty_subset _
  have hboth : (binary op s t).vars ⊆ s.vars ∪ t.vars := Set.Subset.rfl
  cases op with
  | add =>
    simp only [reduce]
    split
    · exact hright
    split
    · exact hleft
    · exact hboth
  | sub =>
    simp only [reduce]
    split
    · exact hleft
    split
    · exact (vars_mkUnary .neg t).trans_subset hright
    · exact hboth
  | mul =>
    simp only [reduce]
    split
    · exact hnone _
    split
    · exact hright
    split
    · exact hleft
    · exact hboth
  | div =>
    simp only [reduce]
    split
    · exact hleft
    split
    · exact hnone _
    · exact hboth
  | pow =>
    simp only [reduce]
    split
    · exact hleft
    split
    · exact hnone _
    · exact hboth

theorem vars_mkBinary (op : BinaryOp) (s t : Term α) :
    (s.mkBinary op t).vars ⊆ s.vars ∪ t.vars := by
  unfold mkBinary
  split
  · exact Set.empty_subset _
  · exact vars_reduce op _ _

end Term

/-! ## Derivatives -/

theorem Formula.vars_term {u v : ι → Term α} (f : Formula ι) (hu : ∀ i, (u i).vars ⊆ V)
    (hv : ∀ i, (v i).vars ⊆ V) : (f.term u v).vars ⊆ V := by
  induction f with
  | arg i => exact hu i
  | tangent i => exact hv i
  | num n => exact Set.empty_subset V
  | unary op f ih => exact (Term.vars_mkUnary op _).trans_subset ih
  | binary op f g ihf ihg => exact (Term.vars_mkBinary op _ _).trans (Set.union_subset ihf ihg)

namespace Term

theorem derivative?_unary {r : Term α} (H : (unary op t).derivative? i = some r) :
    ∃ dt rule, t.derivative? i = some dt ∧ op.rule? = some rule ∧
      r = rule.term (fun _ => t) (fun _ => dt) := by
  obtain ⟨dt, hdt, H⟩ := Option.bind_eq_some_iff.mp H
  obtain ⟨rule, hrule, H⟩ := Option.bind_eq_some_iff.mp H
  cases H
  exact ⟨dt, rule, hdt, hrule, rfl⟩

theorem derivative?_binary {r : Term α} (H : (binary op s t).derivative? i = some r) :
    ∃ ds dt, s.derivative? i = some ds ∧ t.derivative? i = some dt ∧
      r = (op.rule t.number?.isSome).term (Side.select s t) (Side.select ds dt) := by
  obtain ⟨ds, hds, H⟩ := Option.bind_eq_some_iff.mp H
  obtain ⟨dt, hdt, H⟩ := Option.bind_eq_some_iff.mp H
  cases H
  exact ⟨ds, dt, hds, hdt, rfl⟩

/-- A derivative has no variables that the term does not have. -/
theorem vars_derivative? (H : t.derivative? i = some s) : s.vars ⊆ t.vars := by
  induction t generalizing s with
  | num v =>
    cases H
    exact Set.empty_subset _
  | var k =>
    cases H
    exact Set.empty_subset _
  | unary op t ih =>
    obtain ⟨dt, rule, hdt, _, rfl⟩ := derivative?_unary H
    exact rule.vars_term (fun _ => Set.Subset.rfl) fun _ => ih hdt
  | binary op a b iha ihb =>
    obtain ⟨da, db, hda, hdb, rfl⟩ := derivative?_binary H
    refine Formula.vars_term _ (Side.forall.mpr ⟨?_, ?_⟩) (Side.forall.mpr ⟨?_, ?_⟩)
    · exact Set.subset_union_left
    · exact Set.subset_union_right
    · exact (iha hda).trans Set.subset_union_left
    · exact (ihb hdb).trans Set.subset_union_right

/-- All variables of the derivative by `x[i]` are in a set. -/
def SlopeWithin (i : Nat) (V : Set Nat) (t : Term α) : Prop :=
  ∀ s, t.derivative? i = some s → s.vars ⊆ V

namespace SlopeWithin

theorem of_vars (H : t.vars ⊆ V) : t.SlopeWithin i V := fun _ hs => (vars_derivative? hs).trans H

theorem of_number (H : t.derivative? i = some (.num v)) : t.SlopeWithin i V := by
  intro s hs
  cases H.symm.trans hs
  exact Set.empty_subset V

theorem unary_neg (H : t.SlopeWithin i V) : (unary .neg t).SlopeWithin i V := by
  intro s hs
  obtain ⟨dt, rule, hdt, hrule, rfl⟩ := derivative?_unary hs
  cases hrule
  exact (vars_mkUnary .neg dt).trans_subset (H dt hdt)

/-- Where a double negation cancels, the derivative was negated before. -/
theorem neg (H : t.SlopeWithin i V) : (t.mkUnary .neg).SlopeWithin i V := by
  cases t with
  | num v => exact of_number rfl
  | var k => exact H.unary_neg
  | binary op s t => exact H.unary_neg
  | unary op t =>
    by_cases hop : op = .neg
    · subst hop
      intro s hs
      refine (vars_mkUnary .neg s).symm.trans_subset (H (s.mkUnary .neg) ?_)
      exact Option.bind_eq_some_iff.mpr ⟨s, hs, rfl⟩
    · have hkeep : (unary op t).mkUnary .neg = unary .neg (unary op t) := by
        cases op <;> first | rfl | exact absurd rfl hop
      exact hkeep ▸ H.unary_neg

theorem add (H : s.SlopeWithin i V) (H' : t.SlopeWithin i V) :
    (s.mkBinary .add t).SlopeWithin i V := by
  unfold mkBinary
  split
  · exact of_vars (Set.empty_subset V)
  simp only [reduce]
  split
  · exact H'
  split
  · exact H
  · intro r hr
    obtain ⟨ds, dt, hds, hdt, rfl⟩ := derivative?_binary hr
    exact (vars_mkBinary .add ds dt).trans (Set.union_subset (H ds hds) (H' dt hdt))

theorem sub (H : s.SlopeWithin i V) (H' : t.SlopeWithin i V) :
    (s.mkBinary .sub t).SlopeWithin i V := by
  unfold mkBinary
  split
  · exact of_vars (Set.empty_subset V)
  simp only [reduce]
  split
  · exact H
  split
  · exact H'.neg
  · intro r hr
    obtain ⟨ds, dt, hds, hdt, rfl⟩ := derivative?_binary hr
    exact (vars_mkBinary .sub ds dt).trans (Set.union_subset (H ds hds) (H' dt hdt))

end SlopeWithin

end Term

end Downhill
