import Downhill.Proofs.Meaning.Soundness
import Downhill.Proofs.Pool.History

/-!
# Constant exponents

Whether all powers below a node have constants as exponents can be read from the bottom up
(`constantPowers_iff`): the reading says of each node whether it is constant, and has no result for
a power whose exponent is not. Simplification can only make more nodes constant, and the rule for a
power with a constant exponent makes no other powers; so a derivative has constant exponents if its
node has (`Reached.constantPowers`).
-/

namespace Downhill

/-- Whether a node is constant, where all exponents are. -/
def Interpretation.constancy : Interpretation α Bool where
  number _ b := b = true
  var _ b := b = false
  unary _ b c := c = b
  binary op b c d := (op = .pow → c = true) ∧ d = (b && c)
  le b c := b = true → c = true

namespace Interpretation

variable {α : Type} [Scalar α] {n : Nat} {z b c : Bool}

theorem literal_constancy (H : (constancy : Interpretation α Bool).Literal n z) : z = true :=
  let ⟨_, _, hz⟩ := H; hz

omit [Scalar α] in
theorem standIn_constancy (v : α) (b : Bool) : constancy.StandIn v b := ⟨true, rfl, fun _ => rfl⟩

theorem constancy_left (hz : (constancy : Interpretation α Bool).Literal n z)
    (hc : (constancy : Interpretation α Bool).binary op z b c) : c = b := by
  rw [hc.2, literal_constancy hz, Bool.true_and]

theorem constancy_right (hz : (constancy : Interpretation α Bool).Literal n z)
    (hc : (constancy : Interpretation α Bool).binary op b z c) : c = b := by
  rw [hc.2, literal_constancy hz, Bool.and_true]

theorem lawful_constancy : (constancy : Interpretation α Bool).Lawful where
  refl := id
  trans h h' := h' ∘ h
  unary_mono {op a b c} hc hle := ⟨b, rfl, hc ▸ hle⟩
  binary_mono {op a a' b b' c} hc hle hle' := by
    obtain ⟨hop, rfl⟩ := hc
    refine ⟨b && b', ⟨fun h => hle' (hop h), rfl⟩, fun h => ?_⟩
    obtain ⟨ha, ha'⟩ := Bool.and_eq_true_iff.mp h
    exact Bool.and_eq_true_iff.mpr ⟨hle ha, hle' ha'⟩
  equal _ _ := standIn_constancy _ _
  unary_number _ _ := standIn_constancy _ _
  binary_number _ _ _ := standIn_constancy _ _
  neg_neg {a b c} hb hc := by
    rw [show c = a from hc.trans hb]
    exact id
  zero_add hz hc := constancy_left hz hc ▸ id
  add_zero hz hc := constancy_right hz hc ▸ id
  sub_zero hz hc := constancy_right hz hc ▸ id
  zero_sub {z a c} hz hc := ⟨a, rfl, constancy_left hz hc ▸ id⟩
  zero_mul _ _ := standIn_constancy _ _
  mul_zero _ _ := standIn_constancy _ _
  one_mul hz hc := constancy_left hz hc ▸ id
  mul_one hz hc := constancy_right hz hc ▸ id
  div_one hz hc := constancy_right hz hc ▸ id
  zero_div _ _ := standIn_constancy _ _
  pow_one hz hc := constancy_right hz hc ▸ id
  pow_zero _ _ := standIn_constancy _ _

end Interpretation

/-! ## Rules -/

/-- Whether a formula is constant, given which operands and derivatives are. -/
def Formula.constant? (arg tangent : ι → Bool) : Formula ι → Option Bool
  | .arg i => some (arg i)
  | .tangent i => some (tangent i)
  | num _ => some true
  | unary _ f => f.constant? arg tangent
  | binary op f g => do
    let b ← f.constant? arg tangent
    let c ← g.constant? arg tangent
    if op = .pow ∧ c = false then none else some (b && c)

theorem Formula.reads_of_constant? {α : Type} [Scalar α] {u v : ι → Bool} {f : Formula ι} {b : Bool}
    (H : f.constant? u v = some b) :
    f.Reads (.constancy : Interpretation α Bool) u v b := by
  induction f generalizing b with
  | arg i => cases H; exact .arg i
  | tangent i => cases H; exact .tangent i
  | num n => cases H; exact .num rfl
  | unary op f ih => exact .unary (ih H) rfl
  | binary op f g ihf ihg =>
    obtain ⟨c, hc, H⟩ := Option.bind_eq_some_iff.mp H
    obtain ⟨d, hd, H⟩ := Option.bind_eq_some_iff.mp H
    split at H
    · cases H
    · rename_i hop
      cases H
      exact .binary (ihf hc) (ihg hd) ⟨fun h => by simpa using mt (And.intro h) hop, rfl⟩

theorem UnaryOp.rule_constant? {op : UnaryOp} (H : op.rule? = some rule) (u v : Bool) :
    ∃ b, rule.constant? (fun _ => u) (fun _ => v) = some b := by
  cases op <;> cases H <;> exact ⟨_, rfl⟩

theorem BinaryOp.rule_constant? {op : BinaryOp} (b c d e : Bool) (H : op = .pow → c = true) :
    ∃ x, (op.rule c).constant? (Side.select b c) (Side.select d e) = some x := by
  cases op with
  | add | sub | mul | div => exact ⟨_, rfl⟩
  | pow =>
    cases H rfl
    exact ⟨_, rfl⟩

namespace Pool

variable {α : Type} [Scalar α] {p q : Pool α} {h d : Handle} {i : Nat} {b : Bool}

/-! ## Nodes -/

/-- Every power below a node has a constant as exponent. -/
def ConstantPowers (p : Pool α) (h : Handle) : Prop :=
  ∀ k a b, p.Reaches h k → p.Holds k (.binary .pow a b) → p.isConstant b = true

/-- Only constants are constant: everything else that has no variables was computed. -/
theorem Reads.constancy_eq (hp : p.WF) (H : p.Reads .constancy h b) : b = p.isConstant h := by
  induction H with
  | const hn hb => exact hb.trans (isConstant_iff.mpr ⟨_, hn.constant?⟩).symm
  | var hn hb => exact hb.trans (isConstant_eq_false_iff.mpr (hn.constant?_eq_none nofun)).symm
  | unary hn _ hc ih =>
    rw [isConstant_eq_false_iff.mpr (hn.constant?_eq_none nofun), ← (hp.normal hn).1, ← ih]
    exact hc
  | binary hn _ _ hd ihb ihc =>
    rw [isConstant_eq_false_iff.mpr (hn.constant?_eq_none nofun), hd.2, ihb, ihc]
    exact Bool.eq_false_iff.mpr fun hc => (hp.normal hn).1 (Bool.and_eq_true_iff.mp hc)

theorem constantPowers_iff (hp : p.WF) (hh : p.Names h) :
    p.ConstantPowers h ↔ ∃ b, p.Reads .constancy h b := by
  constructor
  · refine hp.induction (P := fun h => p.ConstantPowers h → ∃ b, p.Reads .constancy h b)
      (fun {h n} hn ih H => ?_) hh
    have below {a : Handle} (ha : a ∈ n.args) : ∃ b, p.Reads .constancy a b :=
      ih a ha fun _ _ _ hr => H _ _ _ (.step hn ha hr)
    cases n with
    | const v => exact ⟨true, .const hn rfl⟩
    | var i => exact ⟨false, .var hn rfl⟩
    | unary op a =>
      obtain ⟨b, hb⟩ := below List.mem_cons_self
      exact ⟨b, .unary hn hb rfl⟩
    | binary op a a' =>
      obtain ⟨b, hb⟩ := below List.mem_cons_self
      obtain ⟨c, hc⟩ := below (List.mem_cons_of_mem _ List.mem_cons_self)
      refine ⟨b && c, .binary hn hb hc ⟨?_, rfl⟩⟩
      rintro rfl
      exact (hc.constancy_eq hp).trans (H _ _ _ .rfl hn)
  · rintro ⟨b, hb⟩ k a a' hk hn
    obtain ⟨c, hc⟩ := hb.reaches hk
    obtain ⟨_, d, _, hd, hpow, _⟩ := hc.of_binary hn
    exact (hd.constancy_eq hp).symm.trans (hpow rfl)

/-! ## Derivatives -/

/-- Where a node has constant exponents, so has its derivative. -/
def PowersAt (p : Pool α) (h : Handle) (_i : Nat) (d : Handle) : Prop :=
  (∃ b, p.Reads .constancy h b) → ∃ b, p.Reads .constancy d b

omit [Scalar α] in
theorem Means.constancy (H : p.Means .constancy h b) : ∃ b, p.Reads .constancy h b :=
  let ⟨c, hc, _⟩ := H; ⟨c, hc⟩

theorem Derives.constancy (hp : p.WF)
    (hP : ∀ {k j d}, p.derivative? k j = some d → p.PowersAt k j d) (H : p.Derives i n r)
    (hn : p.Holds h n) (hb : p.Reads .constancy h b) : ∃ b, r.2.Reads .constancy r.1 b := by
  have L : (Interpretation.constancy : Interpretation α Bool).Lawful :=
    Interpretation.lawful_constancy
  cases H with
  | const | var => exact (means_constant L hp (u := true) rfl).constancy
  | unary hda hrule =>
    obtain ⟨c, hc, rfl⟩ := hb.of_unary hn
    obtain ⟨d, hd⟩ := hP hda ⟨_, hc⟩
    obtain ⟨e, he⟩ := UnaryOp.rule_constant? hrule _ d
    exact (Formula.kept L.kept hp (fun _ => hc.means L) (fun _ => hd.means L)
      (Formula.reads_of_constant? he)).constancy
  | binary hda hda' =>
    obtain ⟨c, c', hc, hc', hpow, rfl⟩ := hb.of_binary hn
    obtain ⟨d, hd⟩ := hP hda ⟨_, hc⟩
    obtain ⟨d', hd'⟩ := hP hda' ⟨_, hc'⟩
    obtain ⟨e, he⟩ := BinaryOp.rule_constant? c c' d d' hpow
    rw [← hc'.constancy_eq hp]
    exact (Formula.kept L.kept hp (Side.forall.mpr ⟨hc.means L, hc'.means L⟩)
      (Side.forall.mpr ⟨hd.means L, hd'.means L⟩) (Formula.reads_of_constant? he)).constancy

theorem inherited_powersAt : Inherited (PowersAt (α := α)) where
  mono H hp hle hh := by
    rintro ⟨b, hb⟩
    obtain ⟨c, hc⟩ := H ⟨b, hb.old hp hle hh⟩
    exact ⟨c, hc.mono hle⟩
  derives {p h i n r} hp hP hn hd := by
    rintro ⟨b, hb⟩
    exact hd.constancy hp hP hn (hb.old hp (hd.yields hp hn).grows.le hn.names)

/-- A derivative that a reached pool remembers has constant exponents if its node has. -/
theorem Reached.constantPowers (H : p.Reached) (hd : p.derivative? h i = some d)
    (hpowers : p.ConstantPowers h) : p.ConstantPowers d := by
  obtain ⟨hh, hd'⟩ := H.wf.derivative hd
  rw [constantPowers_iff H.wf hh] at hpowers
  rw [constantPowers_iff H.wf hd']
  exact H.inherits inherited_powersAt hd hpowers

end Pool

end Downhill
