import Downhill.Proofs.Pool.Growth

/-!
# What the constructors of a pool do

Every constructor either gives a handle that is there already, or computes a constant, or stores a
node that is in normal form. `UnarySteps` and `BinarySteps` list what can happen, one case for each
branch, and all that is said about the constructors elsewhere is said case by case. The first thing
to say is that they grow the pool and name a node of it (`Yields`).
-/

namespace Downhill.Pool

variable {α : Type} [Scalar α] {p q : Pool α}

/-! ## Interning -/

/-- A node is found, or else appended. -/
theorem intern_cases (hp : p.Indexed) (n : Node Handle α) :
    (∃ k : Nat, ∃ m, p.Holds k m ∧ n.same m = true ∧ p.intern n = ((k : Handle), p)) ∨
      p.find? n = none ∧ p.intern n = ((p.size : Handle), p.push n) := by
  unfold intern
  cases hf : p.find? n with
  | some k =>
    obtain ⟨⟨m, hm, hsame⟩, _⟩ := find?_eq_some hp hf
    exact .inl ⟨k, m, hm, hsame, rfl⟩
  | none => exact .inr ⟨rfl, rfl⟩

/-- What interning gives holds the node, or a constant of equal value. -/
theorem holds_intern (hp : p.Indexed) (n : Node Handle α) :
    ∃ m, (p.intern n).2.Holds (p.intern n).1 m ∧
      (m = n ∨ ∃ v w, n = .const v ∧ m = .const w ∧ Scalar.eq v w = true) := by
  rcases intern_cases hp n with ⟨k, m, hm, hsame, he⟩ | ⟨_, he⟩
  · rw [he]
    refine ⟨m, hm, ?_⟩
    rcases Node.same_cases hsame with rfl | ⟨v, w, hv, hw, heq⟩
    · exact .inl rfl
    · exact .inr ⟨v, w, hv, hw, heq⟩
  · rw [he]
    exact ⟨n, holds_push_self, .inl rfl⟩

/-- A handle of a pool that the first one grew into. -/
structure Yields (p : Pool α) (r : Handle × Pool α) : Prop where
  grows : p.Grows r.2
  names : r.2.Names r.1

theorem Yields.self (hh : p.Names h) : p.Yields (h, p) := ⟨.rfl, hh⟩

theorem Yields.after (hpq : p.Grows q) (H : q.Yields r) : p.Yields r :=
  ⟨hpq.trans H.grows, H.names⟩

theorem intern_yields (hp : p.Indexed) (hargs : ∀ a ∈ n.args, p.Names a) (hn : p.Normal n) :
    p.Yields (p.intern n) := by
  rcases intern_cases hp n with ⟨k, m, hm, _, he⟩ | ⟨hnew, he⟩
  · rw [he]
    exact .self hm.names
  · rw [he]
    exact ⟨.push .rfl ⟨hargs, hnew, hn⟩, holds_push_self.names⟩

theorem constant_yields (hp : p.Indexed) (v : α) : p.Yields (p.constant v) :=
  intern_yields hp (by simp [Node.args]) trivial

theorem var_yields (hp : p.Indexed) (i : Nat) : p.Yields (p.var i) :=
  intern_yields hp (by simp [Node.args]) trivial

/-- The constant that is stored for a value. -/
theorem holds_constant (hp : p.Indexed) (v : α) :
    ∃ w, (p.constant v).2.Holds (p.constant v).1 (.const w) ∧ (w = v ∨ Scalar.eq v w = true) := by
  obtain ⟨m, hm, rfl | ⟨v', w, hv, rfl, heq⟩⟩ := holds_intern hp (.const v)
  · exact ⟨v, hm, .inl rfl⟩
  · cases hv
    exact ⟨w, hm, .inr heq⟩

theorem holds_var (hp : p.Indexed) (i : Nat) : (p.var i).2.Holds (p.var i).1 (.var i) := by
  obtain ⟨m, hm, rfl | ⟨_, _, hv, _⟩⟩ := holds_intern hp (.var i)
  · exact hm
  · cases hv

theorem holds_intern_unary (hp : p.Indexed) (op : UnaryOp) (a : Handle) :
    (p.intern (.unary op a)).2.Holds (p.intern (.unary op a)).1 (.unary op a) := by
  obtain ⟨m, hm, rfl | ⟨_, _, hv, _⟩⟩ := holds_intern hp (.unary op a)
  · exact hm
  · cases hv

theorem holds_intern_binary (hp : p.Indexed) (op : BinaryOp) (a b : Handle) :
    (p.intern (.binary op a b)).2.Holds (p.intern (.binary op a b)).1 (.binary op a b) := by
  obtain ⟨m, hm, rfl | ⟨_, _, hv, _⟩⟩ := holds_intern hp (.binary op a b)
  · exact hm
  · cases hv

/-! ## Unary operators -/

/-- What a unary operator does with a node of a pool. -/
inductive UnarySteps (p : Pool α) : UnaryOp → Handle → Handle × Pool α → Prop where
  | fold : p.Holds a (.const v) → UnarySteps p op a (p.constant (Scalar.unary op v))
  | cancel : p.Holds a (.unary .neg b) → UnarySteps p .neg a (b, p)
  | keep : p.Normal (.unary op a) → UnarySteps p op a (p.intern (.unary op a))

theorem unary_steps (op : UnaryOp) (ha : p.Names a) : p.UnarySteps op a (p.unary op a) := by
  obtain ⟨m, hm⟩ := ha
  -- away from double negation the node is kept
  have keep (hc : ∀ v, m ≠ .const v) (hneg : op = .neg → ∀ b, m ≠ .unary .neg b) :
      p.UnarySteps op a (p.intern (.unary op a)) := by
    refine .keep ⟨isConstant_eq_false_iff.mpr (hm.constant?_eq_none hc), ?_⟩
    intro hop b hb
    exact hneg hop b (hm.unique hb)
  unfold unary
  rw [hm.2]
  cases m with
  | const v => exact .fold hm
  | var i => exact keep (by simp) (by simp)
  | binary op' c d => exact keep (by simp) (by simp)
  | unary op' c =>
    by_cases hop : op' = .neg ∧ op = .neg
    · obtain ⟨rfl, rfl⟩ := hop
      exact .cancel hm
    · have hkeep := keep (by simp) (by rintro rfl b hb; cases hb; exact hop ⟨rfl, rfl⟩)
      cases op <;> cases op' <;> first | exact hkeep | exact absurd ⟨rfl, rfl⟩ hop

theorem UnarySteps.yields (hp : p.WF) (ha : p.Names a) (H : p.UnarySteps op a r) :
    p.Yields r := by
  cases H with
  | fold => exact constant_yields hp.indexed _
  | cancel hm => exact .self (hp.args hm _ (by simp [Node.args]))
  | keep hn => exact intern_yields hp.indexed (by simpa [Node.args] using ha) hn

theorem unary_yields (hp : p.WF) (op : UnaryOp) (ha : p.Names a) : p.Yields (p.unary op a) :=
  (unary_steps op ha).yields hp ha

/-! ## Binary operators -/

/-- What a binary operator does with two nodes of a pool. -/
inductive BinarySteps (p : Pool α) : BinaryOp → Handle → Handle → Handle × Pool α → Prop where
  | fold : p.Holds a (.const u) → p.Holds b (.const v) →
    BinarySteps p op a b (p.constant (Scalar.binary op u v))
  | zeroAdd : p.IsNumber a (Scalar.nat 0) → BinarySteps p .add a b (b, p)
  | addZero : p.IsNumber b (Scalar.nat 0) → BinarySteps p .add a b (a, p)
  | subZero : p.IsNumber b (Scalar.nat 0) → BinarySteps p .sub a b (a, p)
  | zeroSub : p.IsNumber a (Scalar.nat 0) → BinarySteps p .sub a b (p.unary .neg b)
  | zeroMul : p.IsNumber a (Scalar.nat 0) →
    BinarySteps p .mul a b (p.constant (Scalar.nat 0))
  | mulZero : p.IsNumber b (Scalar.nat 0) →
    BinarySteps p .mul a b (p.constant (Scalar.nat 0))
  | oneMul : p.IsNumber a (Scalar.nat 1) → BinarySteps p .mul a b (b, p)
  | mulOne : p.IsNumber b (Scalar.nat 1) → BinarySteps p .mul a b (a, p)
  | divOne : p.IsNumber b (Scalar.nat 1) → BinarySteps p .div a b (a, p)
  | zeroDiv : p.IsNumber a (Scalar.nat 0) →
    BinarySteps p .div a b (p.constant (Scalar.nat 0))
  | powOne : p.IsNumber b (Scalar.nat 1) → BinarySteps p .pow a b (a, p)
  | powZero : p.IsNumber b (Scalar.nat 0) →
    BinarySteps p .pow a b (p.constant (Scalar.nat 1))
  | keep : p.Normal (.binary op a b) →
    BinarySteps p op a b (p.intern (.binary op a b))

/-- The branches that are taken unless both operands are constants. -/
theorem binary_steps_of_not_constant (op : BinaryOp)
    (hc : ¬(p.isConstant a = true ∧ p.isConstant b = true)) :
    p.BinarySteps op a b (p.binary op a b) := by
  have keep (ho : p.NormalOperands op a b) : p.BinarySteps op a b (p.intern (.binary op a b)) :=
    .keep ⟨hc, ho⟩
  unfold binary
  split
  · rename_i hu hv
    exact absurd ⟨isConstant_iff.mpr ⟨_, hu⟩, isConstant_iff.mpr ⟨_, hv⟩⟩ hc
  cases op with
  | add =>
    dsimp only
    split
    · exact .zeroAdd ‹_›
    split
    · exact .addZero ‹_›
    · exact keep ⟨‹_›, ‹_›⟩
  | sub =>
    dsimp only
    split
    · exact .subZero ‹_›
    split
    · exact .zeroSub ‹_›
    · exact keep ⟨‹_›, ‹_›⟩
  | mul =>
    dsimp only
    split
    · rename_i hz
      rcases Bool.or_eq_true_iff.mp hz with hz | hz
      · exact .zeroMul hz
      · exact .mulZero hz
    rename_i hz
    obtain ⟨hza, hzb⟩ := not_or.mp (mt Bool.or_eq_true_iff.mpr hz)
    split
    · exact .oneMul ‹_›
    split
    · exact .mulOne ‹_›
    · exact keep ⟨⟨hza, hzb⟩, ‹_›, ‹_›⟩
  | div =>
    dsimp only
    split
    · exact .divOne ‹_›
    split
    · exact .zeroDiv ‹_›
    · exact keep ⟨‹_›, ‹_›⟩
  | pow =>
    dsimp only
    split
    · exact .powOne ‹_›
    split
    · exact .powZero ‹_›
    · exact keep ⟨‹_›, ‹_›⟩

theorem binary_steps (op : BinaryOp) (ha : p.Names a) (hb : p.Names b) :
    p.BinarySteps op a b (p.binary op a b) := by
  by_cases hc : p.isConstant a = true ∧ p.isConstant b = true
  · obtain ⟨⟨u, hu⟩, v, hv⟩ := hc.imp isConstant_iff.mp isConstant_iff.mp
    unfold binary
    rw [hu, hv]
    exact .fold (holds_of_constant? ha hu) (holds_of_constant? hb hv)
  · exact binary_steps_of_not_constant op hc

theorem BinarySteps.yields (hp : p.WF) (ha : p.Names a) (hb : p.Names b)
    (H : p.BinarySteps op a b r) : p.Yields r := by
  cases H with
  | fold | zeroMul | mulZero | zeroDiv | powZero => exact constant_yields hp.indexed _
  | zeroAdd | oneMul => exact .self hb
  | addZero | subZero | mulOne | divOne | powOne => exact .self ha
  | zeroSub => exact unary_yields hp .neg hb
  | keep hn => exact intern_yields hp.indexed (by simpa [Node.args] using ⟨ha, hb⟩) hn

theorem binary_yields (hp : p.WF) (op : BinaryOp) (ha : p.Names a) (hb : p.Names b) :
    p.Yields (p.binary op a b) :=
  (binary_steps op ha hb).yields hp ha hb

end Downhill.Pool
