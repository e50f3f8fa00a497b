import Downhill.Proofs.Pool.History
import Downhill.Proofs.Scalar.Double

/-!
# Canonical pools

What every reached pool of doubles looks like (`Reached.canonical`): operands have smaller handles
than their users, no node is stored twice, the table lists the stored nodes and leads to each of
them but NaN, and there is nothing left to simplify. So building a stored node again gives its handle
and changes nothing.
-/

namespace Downhill

def Node.operator? : Node ρ α → Option Operator
  | unary op _ => some (.unary op)
  | binary op _ _ => some (.binary op)
  | const _ | var _ => none

theorem Node.same_symm [BEq ρ] [LawfulBEq ρ] [Scalar α]
    (heq : ∀ v w : α, Scalar.eq v w = Scalar.eq w v) (m n : Node ρ α) : m.same n = n.same m := by
  cases m <;> cases n <;> simp only [same, heq, BEq.comm]

namespace Pool

variable {α : Type} [Scalar α] {p : Pool α} {a b h : Handle} {n : Node Handle α}

/-! ## Stored nodes built again -/

/-- A node that is the same as itself is found where it is stored. -/
theorem WF.find? (H : p.WF) {k : Nat} (hn : p.Holds k n) (hsame : n.same n = true) :
    p.find? n = some k := by
  cases hf : p.find? n with
  | none => exact nomatch hsame.symm.trans ((find?_eq_none_iff H.indexed).mp hf hn)
  | some j =>
    obtain ⟨⟨m, hm, hj⟩, hfirst⟩ := find?_eq_some H.indexed hf
    rcases Nat.lt_trichotomy j k with hlt | rfl | hlt
    · exact nomatch hj.symm.trans (H.new hm hn (Int.ofNat_lt.mpr hlt))
    · rfl
    · exact nomatch hsame.symm.trans (hfirst hn (Int.ofNat_lt.mpr hlt))

theorem WF.intern_eq (H : p.WF) (hn : p.Holds h n) (hsame : n.same n = true) :
    p.intern n = (h, p) := by
  obtain ⟨k, rfl⟩ := Int.eq_ofNat_of_zero_le hn.nonneg
  rw [intern, H.find? hn hsame]

theorem Normal.unary_eq (H : p.Normal (.unary op a)) (ha : p.Names a) :
    p.unary op a = p.intern (.unary op a) := by
  have hs := unary_steps op ha
  generalize p.unary op a = r at hs
  cases hs with
  | fold hv => exact nomatch H.1.symm.trans (isConstant_iff.mpr ⟨_, hv.constant?⟩)
  | cancel hb => exact absurd hb (H.2 rfl _)
  | keep => rfl

theorem Normal.binary_eq (H : p.Normal (.binary op a b)) (ha : p.Names a) (hb : p.Names b) :
    p.binary op a b = p.intern (.binary op a b) := by
  have hs := binary_steps op ha hb
  generalize p.binary op a b = r at hs
  obtain ⟨hc, ho⟩ := H
  cases hs with
  | fold hu hv =>
    exact absurd ⟨isConstant_iff.mpr ⟨_, hu.constant?⟩, isConstant_iff.mpr ⟨_, hv.constant?⟩⟩ hc
  | zeroAdd hz | zeroSub hz => exact absurd hz ho.1
  | addZero hz | subZero hz => exact absurd hz ho.2
  | zeroMul hz => exact absurd hz ho.1.1
  | mulZero hz => exact absurd hz ho.1.2
  | oneMul hz => exact absurd hz ho.2.1
  | mulOne hz => exact absurd hz ho.2.2
  | divOne hz | powOne hz => exact absurd hz ho.1
  | zeroDiv hz | powZero hz => exact absurd hz ho.2
  | keep => rfl

theorem WF.rebuild_unary (H : p.WF) (hn : p.Holds h (.unary op a)) :
    (Build.unary op a).run p = (.ok h, p) := by
  have ha := H.unary_arg hn
  rw [Build.run_unary op ha, (H.normal hn).unary_eq ha, H.intern_eq hn (Node.same_unary op a)]

theorem WF.rebuild_binary (H : p.WF) (hn : p.Holds h (.binary op a b)) :
    (Build.binary op a b).run p = (.ok h, p) := by
  obtain ⟨ha, hb⟩ := H.binary_args hn
  rw [Build.run_binary op ha hb, (H.normal hn).binary_eq ha hb,
    H.intern_eq hn (Node.same_binary op a b)]

theorem unaryNamed_name (op : UnaryOp) (a : Handle) :
    (Build.unaryNamed op.name a : Build α Handle) = Build.unary op a := by
  rw [Build.unaryNamed, show Operator.ofName? op.name = some (.unary op) from
    Operator.ofName?_name (.unary op)]

theorem binaryNamed_name (op : BinaryOp) (a b : Handle) :
    (Build.binaryNamed op.name a b : Build α Handle) = Build.binary op a b := by
  rw [Build.binaryNamed, show Operator.ofName? op.name = some (.binary op) from
    Operator.ofName?_name (.binary op)]

/-! ## Pools of doubles -/

/-- A pool in which everything has one place and one form. -/
structure Canonical (p : Pool Float) : Prop where
  args_lt : ∀ {h n}, p.Holds h n → ∀ a ∈ n.args, 0 ≤ a ∧ a < h
  arity : ∀ {h n o}, p.Holds h n → n.operator? = some o → n.args.length = o.arity
  /-- No operator is given fewer or more operands than it takes. -/
  unary_arity : ∀ {name a h q}, (Build.unaryNamed name a).run p = (.ok h, q) →
    (Operator.ofName? name).map Operator.arity = some 1
  binary_arity : ∀ {name a b h q}, (Build.binaryNamed name a b).run p = (.ok h, q) →
    (Operator.ofName? name).map Operator.arity = some 2
  /-- Variables are counted from zero. -/
  index : ∀ {i h q}, (Build.var i).run p = (.ok h, q) → ∃ k : Nat, i = k ∧ q.Holds h (.var k)
  negative : ∀ {i : Int}, i < 0 → (Build.var i).run p = (.error .negativeIndex, p)
  distinct : ∀ {h k m n}, p.Holds h m → p.Holds k n → h ≠ k → m.same n = false
  /-- The table knows the stored nodes and no other. -/
  table : ∀ {n} {k : Nat}, (n, k) ∈ p.table ↔ p.Holds k n
  /-- All nodes but NaN are found. -/
  found : ∀ {k : Nat} {n}, p.Holds k n → (∀ v, n = .const v → v.isNaN = false) →
    p.find? n = some k
  /-- What is found is stored. -/
  stored : ∀ {k : Nat} {n}, p.find? n = some k → ∃ m, p.Holds k m ∧ n.same m = true
  normal : ∀ {h n}, p.Holds h n → p.Normal n
  rebuild_unary : ∀ {h op a}, p.Holds h (.unary op a) →
    (Build.unaryNamed op.name a).run p = (.ok h, p)
  rebuild_binary : ∀ {h op a b}, p.Holds h (.binary op a b) →
    (Build.binaryNamed op.name a b).run p = (.ok h, p)

theorem Reached.canonical {p : Pool Float} (H : p.Reached) : p.Canonical where
  args_lt := H.wf.args_lt
  arity {h n o} hn ho := by cases n <;> cases ho <;> rfl
  unary_arity hr := by
    unfold Build.unaryNamed at hr
    split at hr
    · cases hr
    · cases hr
    · next he => rw [he]; rfl
  binary_arity hr := by
    unfold Build.binaryNamed at hr
    split at hr
    · cases hr
    · cases hr
    · next he => rw [he]; rfl
  index {i h q} hr := by
    have hi : 0 ≤ i := by
      by_contra hi
      rw [Build.var, if_pos (Int.not_le.mp hi)] at hr
      cases hr
    exact ⟨i.toNat, (Int.toNat_of_nonneg hi).symm, ((Build.var_ensures H.wf i).run_ok hr).2⟩
  negative hi := by rw [Build.var, if_pos hi]; rfl
  distinct hm hn hne := by
    rcases Int.lt_or_gt_of_ne hne with hlt | hlt
    · rw [Node.same_symm Double.eq_symm]
      exact H.wf.new hm hn hlt
    · exact H.wf.new hn hm hlt
  found {k n} hn hnan := by
    refine H.wf.find? hn ?_
    cases n with
    | const v => exact Double.eq_self (hnan v rfl)
    | var i => exact beq_self_eq_true i
    | unary op a => exact Node.same_unary op a
    | binary op a b => exact Node.same_binary op a b
  table := H.wf.indexed.mem_table_iff
  stored hk := (find?_eq_some H.wf.indexed hk).1
  normal := H.wf.normal
  rebuild_unary hn := by rw [unaryNamed_name, H.wf.rebuild_unary hn]
  rebuild_binary hn := by rw [binaryNamed_name, H.wf.rebuild_binary hn]

theorem canonical_product : (List.foldl Call.after (.empty : Pool Float)
    [.vars 2, .apply .log (.expression 0), .combine .mul (.expression 2) (.expression 1),
      .differentiate 3 0]).Canonical := by
  have hvars := Reached.empty.call (α := Float) (.vars 2) trivial
  have hlog := hvars.call (.apply .log (.expression 0)) (Int.natCast_nonneg 0)
  have hmul := hlog.call (.combine .mul (.expression 2) (.expression 1))
    ⟨Int.natCast_nonneg 2, Int.natCast_nonneg 1⟩
  exact (hmul.call (.differentiate 3 0) (Int.natCast_nonneg 3)).canonical

end Pool

end Downhill
