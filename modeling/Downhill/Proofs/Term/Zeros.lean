import Downhill.Proofs.Pool.Reduction
import Downhill.Proofs.Scalar.Zeros
import Downhill.Proofs.Term.Simplified

/-!
# Zeros of pools

Two zeros compare equal, so the one that became a constant first stands for both ever after. Nothing
else in a pool of doubles depends on what was there before: what a constructor does is decided by
the constants among its operands (`Pool.binary_eq`), and in two pools whose zeros agree it makes
nodes for the same term of nodes for the same terms (`ZerosAgree.unary`, `ZerosAgree.binary`).
-/

namespace Downhill

/-! ## The zeros of a pool -/

def Node.constant? : Node ρ α → Option α
  | const v => some v
  | var _ | unary .. | binary .. => none

namespace Double

def zero? (v : Float) : Option Float := if Scalar.eq v (Scalar.nat 0) then some v else none

theorem eq_of_storedAs {v w : Float} (H : Scalar.StoredAs v w) :
    w = v ∨ Scalar.IsZero v ∧ Scalar.IsZero w := by
  rcases H with rfl | heq
  · exact .inl rfl
  · rcases eq_cases heq with rfl | hz
    · exact .inl rfl
    · exact .inr hz

end Double

namespace Pool

/-- The zeros among the constants. -/
def zeros (p : Pool Float) : List Float :=
  p.nodes.toList.filterMap fun n => n.constant?.bind Double.zero?

/-- What stands for zero in one pool and in the other is the same. -/
def ZerosAgree (p q : Pool Float) : Prop := ∀ v ∈ p.zeros, ∀ w ∈ q.zeros, v = w

instance (p q : Pool Float) : Decidable (p.ZerosAgree q) :=
  inferInstanceAs (Decidable (∀ v ∈ p.zeros, ∀ w ∈ q.zeros, v = w))

variable {p p' q q' : Pool Float} {h k a b : Handle} {s t : Term Float} {v w : Float}

theorem mem_zeros : v ∈ p.zeros ↔ Scalar.IsZero v ∧ ∃ h, p.Holds h (.const v) := by
  rw [zeros, List.mem_filterMap]
  constructor
  · intro ⟨n, hn, hv⟩
    obtain ⟨k, hk⟩ := Array.mem_iff_getElem?.mp (Array.mem_toList_iff.mp hn)
    obtain ⟨w, hw, hz⟩ := Option.bind_eq_some_iff.mp hv
    obtain ⟨hzero, heq⟩ := Option.ite_none_right_eq_some.mp hz
    cases heq
    cases n with
    | const w' =>
      cases hw
      exact ⟨hzero, k, holds_ofNat.mpr hk⟩
    | var | unary | binary => cases hw
  · intro ⟨hzero, h, hn⟩
    obtain ⟨k, rfl⟩ := Int.eq_ofNat_of_zero_le hn.nonneg
    refine ⟨_, Array.mem_toList_iff.mpr (Array.mem_of_getElem? (holds_ofNat.mp hn)), ?_⟩
    exact if_pos hzero

/-- Pools that agree have done so from the start. -/
theorem ZerosAgree.old (H : p'.ZerosAgree q') (hp : p ≤ p') (hq : q ≤ q') : p.ZerosAgree q := by
  have later {r r' : Pool Float} (hle : r ≤ r') {v : Float} (hv : v ∈ r.zeros) : v ∈ r'.zeros := by
    obtain ⟨hzero, h, hn⟩ := mem_zeros.mp hv
    exact mem_zeros.mpr ⟨hzero, h, hn.mono hle⟩
  intro v hv w hw
  exact H v (later hp hv) w (later hq hw)

theorem Unfolds.unary_node (H : p.Unfolds h (.unary op t)) :
    ∃ a, p.Holds h (.unary op a) ∧ p.Unfolds a t := by
  cases H with
  | unary hn hs ht =>
    cases ht
    exact ⟨_, hn, hs⟩
  | const _ ht | var _ ht | binary _ _ _ ht => cases ht

/-- Two nodes that stand for one term. -/
def Concur (p : Pool Float) (h : Handle) (q : Pool Float) (k : Handle) : Prop :=
  ∃ t, p.Unfolds h t ∧ q.Unfolds k t

theorem Concur.mono (H : p.Concur h q k) (hp : p ≤ p') (hq : q ≤ q') : p'.Concur h q' k :=
  let ⟨t, ht, ht'⟩ := H; ⟨t, ht.mono hp, ht'.mono hq⟩

/-! ## Constructors in two pools -/

namespace ZerosAgree

variable (hp : p.Indexed) (hq : q.Indexed)

include hp hq

theorem constant (H : (p.constant v).2.ZerosAgree (q.constant v).2) :
    (p.constant v).2.Concur (p.constant v).1 (q.constant v).2 (q.constant v).1 := by
  obtain ⟨w, hw, hvw⟩ := holds_constant hp v
  obtain ⟨w', hw', hvw'⟩ := holds_constant hq v
  suffices heq : w = w' by
    subst heq
    exact ⟨.num w, .const hw rfl, .const hw' rfl⟩
  have agree (hz : Scalar.IsZero w) (hz' : Scalar.IsZero w') : w = w' :=
    H w (mem_zeros.mpr ⟨hz, _, hw⟩) w' (mem_zeros.mpr ⟨hz', _, hw'⟩)
  rcases Double.eq_of_storedAs hvw with rfl | ⟨hv, hz⟩
  · rcases Double.eq_of_storedAs hvw' with rfl | ⟨hv, hz'⟩
    · rfl
    · exact agree hv hz'
  · rcases Double.eq_of_storedAs hvw' with rfl | ⟨_, hz'⟩
    · exact agree hz hv
    · exact agree hz hz'

theorem unary (ha : p.Unfolds a t) (hb : q.Unfolds b t) {op : UnaryOp}
    (H : (p.unary op a).2.ZerosAgree (q.unary op b).2) :
    (p.unary op a).2.Concur (p.unary op a).1 (q.unary op b).2 (q.unary op b).1 := by
  have hs := unary_steps op ha.names
  have hs' := unary_steps op hb.names
  generalize p.unary op a = r, q.unary op b = r' at hs hs' H ⊢
  cases hs with
  | fold hv =>
    cases ha.of_const hv
    cases hs' with
    | fold hw =>
      cases hb.of_const hw
      exact H.constant hp hq
    | cancel hc =>
      obtain ⟨_, _, ht⟩ := hb.of_unary hc
      cases ht
    | keep hn => cases hn.mkUnary_eq hb
  | cancel hc =>
    obtain ⟨s, hs, ht⟩ := ha.of_unary hc
    cases ht
    cases hs' with
    | fold hw => cases hb.of_const hw
    | cancel hc' =>
      obtain ⟨s', hs', ht'⟩ := hb.of_unary hc'
      cases ht'
      exact ⟨s, hs, hs'⟩
    | keep hn =>
      obtain ⟨c, hc', _⟩ := hb.unary_node
      exact absurd hc' (hn.2 rfl c)
  | keep hn =>
    cases hs' with
    | fold hw =>
      cases hb.of_const hw
      cases hn.mkUnary_eq ha
    | cancel hc =>
      obtain ⟨s, _, ht⟩ := hb.of_unary hc
      cases ht
      obtain ⟨c, hc', _⟩ := ha.unary_node
      exact absurd hc' (hn.2 rfl c)
    | keep => exact ⟨_, ha.intern_unary hp op, hb.intern_unary hq op⟩

theorem carryOut (ha : p.Unfolds a s) (hb : p.Unfolds b t) {a' b' : Handle}
    (ha' : q.Unfolds a' s) (hb' : q.Unfolds b' t) {op : BinaryOp} {r : Reduction Float}
    (H : (r.carryOut p op a b).2.ZerosAgree (r.carryOut q op a' b').2) :
    (r.carryOut p op a b).2.Concur (r.carryOut p op a b).1
      (r.carryOut q op a' b').2 (r.carryOut q op a' b').1 := by
  cases r with
  | left => exact ⟨s, ha, ha'⟩
  | right => exact ⟨t, hb, hb'⟩
  | negated => exact H.unary hp hq hb hb'
  | number v => exact H.constant hp hq
  | node => exact ⟨_, ha.intern_binary hp hb op, ha'.intern_binary hq hb' op⟩

/-- Operands that stand for the same terms are the same constants, so the same is decided. -/
theorem binary (ha : p.Unfolds a s) (hb : p.Unfolds b t) {a' b' : Handle}
    (ha' : q.Unfolds a' s) (hb' : q.Unfolds b' t) {op : BinaryOp}
    (H : (p.binary op a b).2.ZerosAgree (q.binary op a' b').2) :
    (p.binary op a b).2.Concur (p.binary op a b).1 (q.binary op a' b').2 (q.binary op a' b').1 := by
  rw [p.binary_eq, q.binary_eq, ← ha.number?, ← hb.number?, ← ha'.number?, ← hb'.number?] at H ⊢
  exact H.carryOut hp hq ha hb ha' hb'

end ZerosAgree

end Pool

end Downhill
