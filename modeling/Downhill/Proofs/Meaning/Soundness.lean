import Downhill.Proofs.Meaning.Interpretation
import Downhill.Proofs.Pool.Evolution

/-!
# Soundness of simplification

A reading is lawful if it can tell no difference between a node and what a constructor makes of it:
the laws are one for each branch of `Pool.UnarySteps` and `Pool.BinarySteps`. Where the operands of
an operator have a meaning and the operator has a result for them, what the constructor returns then
means that result or something better (`unary_means`, `binary_means`).

A meaning is one of the things that can be said of nodes and that the constructors keep
(`Interpretation.Kept`). Whatever they keep is kept by whole formulas too (`Formula.kept`).
-/

namespace Downhill

/-- What a constant equal to a literal is read as. -/
def Interpretation.Literal [Scalar α] (I : Interpretation α β) (n : Nat) (b : β) : Prop :=
  ∃ v, Scalar.eq v (Scalar.nat n) = true ∧ I.number v b

/-- A number may stand for a result. -/
def Interpretation.StandIn (I : Interpretation α β) (v : α) (b : β) : Prop :=
  ∃ c, I.number v c ∧ I.le b c

/-- What simplification relies on. -/
structure Interpretation.Lawful [Scalar α] (I : Interpretation α β) : Prop where
  refl : ∀ {a}, I.le a a
  trans : ∀ {a b c}, I.le a b → I.le b c → I.le a c
  unary_mono : ∀ {op a b c}, I.unary op a c → I.le a b → ∃ d, I.unary op b d ∧ I.le c d
  binary_mono : ∀ {op a a' b b' c}, I.binary op a a' c → I.le a b → I.le a' b' →
    ∃ d, I.binary op b b' d ∧ I.le c d
  equal : ∀ {v w b}, I.number v b → Scalar.eq v w = true → I.StandIn w b
  unary_number : ∀ {op v b c}, I.number v b → I.unary op b c →
    I.StandIn (Scalar.unary op v) c
  binary_number : ∀ {op v w a b c}, I.number v a → I.number w b → I.binary op a b c →
    I.StandIn (Scalar.binary op v w) c
  neg_neg : ∀ {a b c}, I.unary .neg a b → I.unary .neg b c → I.le c a
  zero_add : ∀ {z a c}, I.Literal 0 z → I.binary .add z a c → I.le c a
  add_zero : ∀ {z a c}, I.Literal 0 z → I.binary .add a z c → I.le c a
  sub_zero : ∀ {z a c}, I.Literal 0 z → I.binary .sub a z c → I.le c a
  zero_sub : ∀ {z a c}, I.Literal 0 z → I.binary .sub z a c → ∃ d, I.unary .neg a d ∧ I.le c d
  zero_mul : ∀ {z a c}, I.Literal 0 z → I.binary .mul z a c → I.StandIn (Scalar.nat 0) c
  mul_zero : ∀ {z a c}, I.Literal 0 z → I.binary .mul a z c → I.StandIn (Scalar.nat 0) c
  one_mul : ∀ {z a c}, I.Literal 1 z → I.binary .mul z a c → I.le c a
  mul_one : ∀ {z a c}, I.Literal 1 z → I.binary .mul a z c → I.le c a
  div_one : ∀ {z a c}, I.Literal 1 z → I.binary .div a z c → I.le c a
  zero_div : ∀ {z a c}, I.Literal 0 z → I.binary .div z a c → I.StandIn (Scalar.nat 0) c
  pow_one : ∀ {z a c}, I.Literal 1 z → I.binary .pow a z c → I.le c a
  pow_zero : ∀ {z a c}, I.Literal 0 z → I.binary .pow a z c → I.StandIn (Scalar.nat 1) c

namespace Pool

variable {α β : Type} {p q : Pool α} {h a b : Handle} {I : Interpretation α β}

/-- A node that is read as something at least as good. -/
def Means (I : Interpretation α β) (p : Pool α) (h : Handle) (u : β) : Prop :=
  ∃ v, p.Reads I h v ∧ I.le u v

namespace Means

theorem mono (H : p.Means I h u) (hle : p ≤ q) : q.Means I h u :=
  H.imp fun _ hv => ⟨hv.1.mono hle, hv.2⟩

theorem names (H : p.Means I h u) : p.Names h :=
  let ⟨_, hv, _⟩ := H; hv.names

end Means

variable [Scalar α]

theorem Means.below (L : I.Lawful) (H : p.Means I h v) (hle : I.le u v) : p.Means I h u :=
  H.imp fun _ hw => ⟨hw.1, L.trans hle hw.2⟩

theorem Reads.means (L : I.Lawful) (H : p.Reads I h u) : p.Means I h u := ⟨u, H, L.refl⟩

/-! ## Constructors -/

theorem means_constant (L : I.Lawful) (hp : p.WF) (H : I.number v u) :
    (p.constant v).2.Means I (p.constant v).1 u := by
  obtain ⟨w, hw, rfl | heq⟩ := holds_constant hp.indexed v
  · exact (Reads.const hw H).means L
  · obtain ⟨u', hu', hle⟩ := L.equal H heq
    exact ⟨u', .const hw hu', hle⟩

theorem means_standIn (L : I.Lawful) (hp : p.WF) (H : I.StandIn v u) :
    (p.constant v).2.Means I (p.constant v).1 u :=
  let ⟨_, hu', hle⟩ := H; (means_constant L hp hu').below L hle

theorem Reads.literal (H : p.Reads I h u) (hn : p.IsNumber h (Scalar.nat n)) : I.Literal n u := by
  cases hc : p.constant? h with
  | none => simp [IsNumber, holds, hc] at hn
  | some w =>
    refine ⟨w, ?_, H.of_const (holds_of_constant? H.names hc)⟩
    simpa [IsNumber, holds, hc] using hn

theorem means_of_unarySteps (L : I.Lawful) (hp : p.WF) (ha : p.Reads I a u)
    (H : I.unary op u w) (hs : p.UnarySteps op a r) : r.2.Means I r.1 w := by
  cases hs with
  | fold hv => exact means_standIn L hp (L.unary_number (ha.of_const hv) H)
  | cancel hb =>
    obtain ⟨v, hv, hu⟩ := ha.of_unary hb
    exact ⟨v, hv, L.neg_neg hu H⟩
  | keep hn =>
    have hle := (intern_yields hp.indexed (by simpa [Node.args] using ha.names) hn).grows.le
    exact (Reads.unary (holds_intern_unary hp.indexed op a) (ha.mono hle) H).means L

theorem unary_means (L : I.Lawful) (hp : p.WF) (ha : p.Means I a u) (H : I.unary op u w) :
    (p.unary op a).2.Means I (p.unary op a).1 w := by
  obtain ⟨u', ha, hle⟩ := ha
  obtain ⟨w', H, hle'⟩ := L.unary_mono H hle
  exact (means_of_unarySteps L hp ha H (unary_steps op ha.names)).below L hle'

theorem means_of_binarySteps (L : I.Lawful) (hp : p.WF) (ha : p.Reads I a u)
    (hb : p.Reads I b v) (H : I.binary op u v w) (hs : p.BinarySteps op a b r) :
    r.2.Means I r.1 w := by
  cases hs with
  | fold hv hw => exact means_standIn L hp (L.binary_number (ha.of_const hv) (hb.of_const hw) H)
  | zeroAdd hz =>
    exact ⟨v, hb, L.zero_add (ha.literal hz) H⟩
  | addZero hz =>
    exact ⟨u, ha, L.add_zero (hb.literal hz) H⟩
  | subZero hz =>
    exact ⟨u, ha, L.sub_zero (hb.literal hz) H⟩
  | zeroSub hz =>
    obtain ⟨d, hd, hle⟩ := L.zero_sub (ha.literal hz) H
    exact (unary_means L hp (hb.means L) hd).below L hle
  | zeroMul hz =>
    exact means_standIn L hp (L.zero_mul (ha.literal hz) H)
  | mulZero hz =>
    exact means_standIn L hp (L.mul_zero (hb.literal hz) H)
  | oneMul hz =>
    exact ⟨v, hb, L.one_mul (ha.literal hz) H⟩
  | mulOne hz =>
    exact ⟨u, ha, L.mul_one (hb.literal hz) H⟩
  | divOne hz =>
    exact ⟨u, ha, L.div_one (hb.literal hz) H⟩
  | zeroDiv hz =>
    exact means_standIn L hp (L.zero_div (ha.literal hz) H)
  | powOne hz =>
    exact ⟨u, ha, L.pow_one (hb.literal hz) H⟩
  | powZero hz =>
    exact means_standIn L hp (L.pow_zero (hb.literal hz) H)
  | keep hn =>
    have hargs : ∀ k ∈ (Node.binary op a b : Node Handle α).args, p.Names k := by
      simpa [Node.args] using ⟨ha.names, hb.names⟩
    have hle := (intern_yields hp.indexed hargs hn).grows.le
    have hnode := holds_intern_binary hp.indexed op a b
    exact (Reads.binary hnode (ha.mono hle) (hb.mono hle) H).means L

theorem binary_means (L : I.Lawful) (hp : p.WF) (ha : p.Means I a u) (hb : p.Means I b v)
    (H : I.binary op u v w) : (p.binary op a b).2.Means I (p.binary op a b).1 w := by
  obtain ⟨u', ha, hlu⟩ := ha
  obtain ⟨v', hb, hlv⟩ := hb
  obtain ⟨w', H, hle⟩ := L.binary_mono H hlu hlv
  exact (means_of_binarySteps L hp ha hb H (binary_steps op ha.names hb.names)).below L hle

end Pool

/-! ## What constructors keep -/

/-- Something said of a node and a result that is kept when both are built further, and of a number
that is in no pool yet. -/
structure Interpretation.Kept {α β : Type} [Scalar α] (I : Interpretation α β) (N : α → β → Prop)
    (M : Pool α → Handle → β → Prop) : Prop where
  names : ∀ {p h b}, M p h b → p.Names h
  mono : ∀ {p q : Pool α} {h b}, M p h b → p ≤ q → M q h b
  reads : ∀ {p h b}, p.WF → p.Reads I h b → M p h b
  constant : ∀ {p : Pool α} {v b}, p.WF → N v b → M (p.constant v).2 (p.constant v).1 b
  unary : ∀ {p op a b c}, p.WF → M p a b → I.unary op b c → M (p.unary op a).2 (p.unary op a).1 c
  binary : ∀ {p op a a' b b' c}, p.WF → M p a b → M p a' b' → I.binary op b b' c →
    M (p.binary op a a').2 (p.binary op a a').1 c
  number : ∀ {v b}, I.number v b → N v b
  unary_number : ∀ {op v b c}, N v b → I.unary op b c → N (Scalar.unary op v) c
  binary_number : ∀ {op v w b b' c}, N v b → N w b' → I.binary op b b' c →
    N (Scalar.binary op v w) c

theorem Interpretation.Lawful.kept {α β : Type} [Scalar α] {I : Interpretation α β}
    (L : I.Lawful) : I.Kept I.StandIn (Pool.Means I) where
  names := Pool.Means.names
  mono := Pool.Means.mono
  reads _ H := H.means L
  constant := Pool.means_standIn L
  unary := Pool.unary_means L
  binary := Pool.binary_means L
  number {_ b} hb := ⟨b, hb, L.refl⟩
  unary_number hb hc := by
    obtain ⟨b', hb', hle⟩ := hb
    obtain ⟨c', hc', hle'⟩ := L.unary_mono hc hle
    obtain ⟨d, hd, hle''⟩ := L.unary_number hb' hc'
    exact ⟨d, hd, L.trans hle' hle''⟩
  binary_number hb hc hd := by
    obtain ⟨b', hb', hleb⟩ := hb
    obtain ⟨c', hc', hlec⟩ := hc
    obtain ⟨d', hd', hle⟩ := L.binary_mono hd hleb hlec
    obtain ⟨e, he, hle'⟩ := L.binary_number hb' hc' hd'
    exact ⟨e, he, L.trans hle hle'⟩

/-! ## Formulas -/

/-- How a formula is read, given what its operands and their derivatives are read as. -/
inductive Formula.Reads [Scalar α] (I : Interpretation α β) (arg tangent : ι → β) :
    Formula ι → β → Prop where
  | arg (i : ι) : Reads I arg tangent (.arg i) (arg i)
  | tangent (i : ι) : Reads I arg tangent (.tangent i) (tangent i)
  | num : I.number (Scalar.nat n) b → Reads I arg tangent (.num n) b
  | unary : Reads I arg tangent f b → I.unary op b c → Reads I arg tangent (.unary op f) c
  | binary : Reads I arg tangent f b → Reads I arg tangent g c → I.binary op b c d →
    Reads I arg tangent (.binary op f g) d

/-- What is said of the operands and their derivatives can be said of a formula. -/
theorem Formula.kept {α β : Type} [Scalar α] {I : Interpretation α β} {N : α → β → Prop}
    {M : Pool α → Handle → β → Prop} {p : Pool α} {a t : ι → Handle} {u v : ι → β} {f : Formula ι}
    {b : β} (K : I.Kept N M) (hp : p.WF) (ha : ∀ i, M p (a i) (u i)) (ht : ∀ i, M p (t i) (v i))
    (H : f.Reads I u v b) : M (f.build a t p).2 (f.build a t p).1 b := by
  induction H generalizing p with
  | arg i => exact ha i
  | tangent i => exact ht i
  | num hb => exact K.constant hp (K.number hb)
  | @unary f b op c _ hc ih =>
    have hr := (f.build_yields hp (fun i => K.names (ha i)) fun i => K.names (ht i)).grows
    exact K.unary (hr.wf hp) (ih hp ha ht) hc
  | @binary f b g c op d _ _ hd ihf ihg =>
    have grows (g : Formula ι) : p.Grows (g.build a t p).2 :=
      (g.build_yields hp (fun i => K.names (ha i)) fun i => K.names (ht i)).grows
    rcases build_binary a t op f g p with ⟨n, rfl, he⟩ | he
    · rw [he]
      have hr := grows g
      have hc := (Pool.constant_yields (hr.wf hp).indexed (Scalar.nat n)).grows
      refine K.binary (hc.wf (hr.wf hp)) ?_ (K.mono (ihg hp ha ht) hc.le) hd
      exact ihf (hr.wf hp) (fun i => K.mono (ha i) hr.le) fun i => K.mono (ht i) hr.le
    · rw [he]
      have hr := grows f
      have ha' i := K.mono (ha i) hr.le
      have ht' i := K.mono (ht i) hr.le
      have hs := (g.build_yields (hr.wf hp) (fun i => K.names (ha' i)) fun i =>
        K.names (ht' i)).grows
      exact K.binary (hs.wf (hr.wf hp)) (K.mono (ihf hp ha ht) hs.le) (ihg (hr.wf hp) ha' ht') hd

end Downhill
