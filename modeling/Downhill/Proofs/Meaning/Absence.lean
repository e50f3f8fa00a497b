import Downhill.Proofs.Meaning.Shapes
import Downhill.Proofs.Pool.Memory

/-!
# Derivatives by absent variables

Where every operand has derivative zero, so has the node: each rule makes zero of zeros, whichever
of the operands are constants (`UnaryOp.rule_zero`, `BinaryOp.rule_zero`). Nothing is left to
simplify, for what stands beside a zero is either no constant or computed with it. So the derivative
by a variable that is not below a node is the constant zero (`Reached.differentiateBy_zero`),
provided that computing with the constants below the node gives zero too (`Tame`).
-/

namespace Downhill

open Scalar

/-! ## Operators and zeros -/

namespace Pool

variable {α : Type} [Scalar α] {p : Pool α} {a b : Handle}

theorem Varies.unary (hp : p.Indexed) (ha : p.Varies a) (hop : op ≠ .neg) :
    (p.unary op a).2.Varies (p.unary op a).1 := by
  have hs := unary_steps op ha.1
  generalize p.unary op a = r at hs
  cases hs with
  | fold hv => exact absurd hv ha.not_holds
  | cancel => exact absurd rfl hop
  | keep => exact (holds_intern_unary hp op a).varies nofun

/-- What is not a constant on the right is kept beside all but a zero. -/
theorem Varies.binary (hp : p.Indexed) (hb : p.Varies b) (ha : p.Names a)
    (hz : op ≠ .pow → ¬p.IsNumber a (Scalar.nat 0)) :
    (p.binary op a b).2.Varies (p.binary op a b).1 := by
  have hs := binary_steps op ha hb.1
  generalize p.binary op a b = r at hs
  cases hs with
  | fold _ hv => exact absurd hv hb.not_holds
  | zeroAdd | oneMul => exact hb
  | zeroSub h0 | zeroMul h0 | zeroDiv h0 => exact absurd h0 (hz nofun)
  | addZero h0 | subZero h0 | mulZero h0 | mulOne h0 | divOne h0 | powOne h0 | powZero h0 =>
    exact absurd h0 hb.not_isNumber
  | keep => exact (holds_intern_binary hp op a b).varies nofun

theorem Varies.mul_zero (ha : p.Varies a) (hb : p.IsNumber b (Scalar.nat 0)) :
    p.binary .mul a b = p.constant (Scalar.nat 0) := by
  have hz : holds (p.constant? b) (Scalar.nat 0) = true := hb
  simp [Pool.binary, ha.constant?, hz]

theorem Varies.zero_mul (hb : p.Varies b) (ha : p.IsNumber a (Scalar.nat 0)) :
    p.binary .mul a b = p.constant (Scalar.nat 0) := by
  have hz : holds (p.constant? a) (Scalar.nat 0) = true := ha
  simp [Pool.binary, hb.constant?, hz]

theorem Varies.zero_div (hb : p.Varies b) (ha : p.IsNumber a (Scalar.nat 0)) :
    p.binary .div a b = p.constant (Scalar.nat 0) := by
  have hz : holds (p.constant? a) (Scalar.nat 0) = true := ha
  have hnone (v : α) : holds none v = false := rfl
  simp [Pool.binary, hb.constant?, hz, hnone]

end Pool

namespace Shape

variable {α : Type} [Scalar α] {p : Pool α} {h a b : Handle} {s t : Shape α}

theorem Of.isNumber_zero (H : zero.Of p h) : p.IsNumber h (Scalar.nat 0) := by
  obtain ⟨v, hv, hz⟩ | ⟨hf, _⟩ := H
  · exact hv.isNumber_iff.mpr hz
  · exact hf.elim

theorem Of.isConstant_zero (H : zero.Of p h) : p.isConstant h = true := by
  obtain ⟨v, hv, _⟩ | ⟨hf, _⟩ := H
  · exact hv.isConstant
  · exact hf.elim

/-- An operator keeps what is not a constant. -/
theorem Unary.varying (hop : op ≠ .neg) : Unary op (varying : Shape α) varying where
  constant hv := hv.elim
  others _ _ _ hp ha := .inr ⟨trivial, ha.unary hp hop⟩

theorem Binary.varying (hs : op ≠ .pow → ∀ {c}, s.constant c → ¬IsZero c)
    (ht : ∀ {c}, ¬t.constant c) : Binary op s t varying where
  constants _ hv := absurd hv ht
  others {p a b} hp _ ha hb := by
    have hvb : p.Varies b := by
      obtain ⟨v, _, hv⟩ | ⟨_, hb⟩ := hb
      · exact absurd hv ht
      · exact hb
    refine .inr ⟨trivial, hvb.binary hp ha.names fun hop hz => ?_⟩
    obtain ⟨v, hv, hv'⟩ | ⟨_, ha⟩ := ha
    · exact hs hop hv' (hv.isNumber_iff.mp hz)
    · exact ha.not_isNumber hz

theorem Binary.number (hs : ¬s.varies) (ht : ¬t.varies) : Binary op s t number where
  constants _ _ _ := trivial
  others {p a b} _ hc ha hb := by
    obtain ⟨u, hu, _⟩ | ⟨hs', _⟩ := ha
    · exact absurd (hb.varies (hb.varies_right hu.isConstant hc)) ht
    · exact absurd hs' hs

/-- A power of what is not a constant is none, unless the exponent makes it one. -/
theorem Binary.pow_constant (hs : ∀ {c}, ¬s.constant c) : Binary .pow s t power where
  constants hu := absurd hu hs
  others {p a b} hp hc ha _ := by
    obtain ⟨u, _, hu⟩ | ⟨_, ha⟩ := ha
    · exact absurd hu hs
    have hsteps := Pool.binary_steps_of_not_constant .pow hc
    generalize p.binary .pow a b = r at hsteps
    cases hsteps with
    | fold hu => exact absurd hu ha.not_holds
    | powOne => exact .inr ⟨trivial, ha⟩
    | powZero => exact Stores.of_constant hp fun _ hw => hw
    | keep => exact .inr ⟨trivial, (Pool.holds_intern_binary hp .pow a b).varies nofun⟩

section

variable (L : ZeroLaws α)

include L

theorem stores_zero : (zero : Shape α).Stores (Scalar.nat 0) :=
  fun _ hw => L.stored L.zero hw

theorem Unary.neg_zero : Unary .neg (zero : Shape α) zero where
  constant hv hw := L.stored (L.neg hv) hw
  others h := h.elim

theorem Binary.add_zero : Binary .add (zero : Shape α) zero zero where
  constants hu hv hw := L.stored (L.add hu hv) hw
  others _ hc ha hb := absurd ⟨ha.isConstant_zero, hb.isConstant_zero⟩ hc

theorem Binary.sub_zero : Binary .sub (zero : Shape α) zero zero where
  constants hu hv hw := L.stored (L.sub hu hv) hw
  others _ hc ha hb := absurd ⟨ha.isConstant_zero, hb.isConstant_zero⟩ hc

theorem Binary.mul_zero (hs : ∀ {c}, s.constant c → Factor c) : Binary .mul s zero zero where
  constants hu hv hw := L.stored (L.mul_right hv (hs hu)) hw
  others hp hc ha hb := by
    rw [(ha.varies_left hb.isConstant_zero hc).mul_zero hb.isNumber_zero]
    exact Stores.of_constant hp (stores_zero L)

theorem Binary.zero_mul (ht : ∀ {c}, t.constant c → Factor c) : Binary .mul zero t zero where
  constants hu hv hw := L.stored (L.mul hu (ht hv)) hw
  others hp hc ha hb := by
    rw [(hb.varies_right ha.isConstant_zero hc).zero_mul ha.isNumber_zero]
    exact Stores.of_constant hp (stores_zero L)

theorem Binary.zero_div (ht : ∀ {c}, t.constant c → Divisor c) : Binary .div zero t zero where
  constants hu hv hw := L.stored (L.div hu (ht hv)) hw
  others hp hc ha hb := by
    rw [(hb.varies_right ha.isConstant_zero hc).zero_div ha.isNumber_zero]
    exact Stores.of_constant hp (stores_zero L)

/-- The square of a divisor may be divided by if the square of a constant may. -/
theorem Binary.square (hpure : s.Pure)
    (hs : ∀ {v w}, s.constant v → s.constant w → Divisor (v * w)) : Binary .mul s s divisor where
  constants hu hv hw := L.divisor_stored (hs hu hv) hw
  others {p a b} hp hc ha hb := by
    obtain ⟨v, hv, hv'⟩ | ⟨hs', hb⟩ := hb
    · have hva := ha.varies_left hv.isConstant hc
      exact absurd hv' (hpure (ha.varies hva) v)
    · obtain ⟨u, _, hu⟩ | ⟨_, ha⟩ := ha
      · exact absurd hu (hpure hs' u)
      · exact .inr ⟨trivial, hb.binary hp ha.1 fun _ => ha.not_isNumber⟩

/-- A power that comes to one leaves its factor, which is multiplied by one if it is a constant. -/
theorem Binary.mul_power (hs : ∀ {c}, s.constant c → Factor c) : Binary .mul s power factor where
  constants hu hv hw := L.factor_stored (L.factor_one (hs hu) hv) hw
  others {p a b} hp hc ha hb := by
    have hsteps := Pool.binary_steps_of_not_constant .mul hc
    generalize p.binary .mul a b = r at hsteps
    cases hsteps with
    | fold hu hv => exact absurd ⟨hu.isConstant, hv.isConstant⟩ hc
    | zeroMul | mulZero => exact Stores.of_constant hp fun _ hw => L.factor_stored L.factor_zero hw
    | oneMul h1 =>
      obtain ⟨u, hu, _⟩ | ⟨_, ha⟩ := ha
      · exact .inr ⟨trivial, hb.varies_right hu.isConstant hc⟩
      · exact absurd h1 ha.not_isNumber
    | mulOne =>
      obtain ⟨u, hu, hu'⟩ | ⟨_, ha⟩ := ha
      · exact .inl ⟨u, hu, hs hu'⟩
      · exact .inr ⟨trivial, ha⟩
    | keep => exact .inr ⟨trivial, (Pool.holds_intern_binary hp .mul a b).varies nofun⟩

theorem Unary.factor (hs : ∀ {c}, s.constant c → Factor (Scalar.unary op c))
    (hop : op ≠ .neg) : Unary op s factor where
  constant hv hw := L.factor_stored (hs hv) hw
  others _ _ _ hp ha := .inr ⟨trivial, ha.unary hp hop⟩

end

end Shape

/-! ## Rules -/

section

variable {α ι : Type} [Scalar α] {u v : ι → Shape α} {f g : Formula ι}

namespace Formula.Reads

theorem varying_unary (hf : f.Reads .shape u v .varying) (hop : op ≠ .neg) :
    (Formula.unary op f).Reads .shape u v .varying :=
  .unary hf (Shape.Unary.varying hop)

theorem varying_binary (hf : f.Reads .shape u v .varying) (hg : g.Reads .shape u v .varying) :
    (Formula.binary op f g).Reads .shape u v .varying :=
  .binary hf hg (Shape.Binary.varying (fun _ _ hc => hc.elim) id)

variable (L : ZeroLaws α)

include L

theorem varying_one (hg : g.Reads .shape u v .varying) :
    (Formula.binary op 1 g).Reads .shape u v .varying :=
  .binary (.num (b := .literal 1) fun _ hw => hw) hg (Shape.Binary.varying (fun _ _ => L.one) id)

theorem varying_two (hg : g.Reads .shape u v .varying) :
    (Formula.binary op 2 g).Reads .shape u v .varying :=
  .binary (.num (b := .literal 2) fun _ hw => hw) hg (Shape.Binary.varying (fun _ _ => L.two) id)

theorem zero_mul (hf : f.Reads .shape u v .varying) (hg : g.Reads .shape u v .zero) :
    (f * g).Reads .shape u v .zero :=
  .binary hf hg (Shape.Binary.mul_zero L fun hc => hc.elim)

theorem zero_div (hf : f.Reads .shape u v .zero) (hg : g.Reads .shape u v .varying) :
    (f / g).Reads .shape u v .zero :=
  .binary hf hg (Shape.Binary.zero_div L fun hc => hc.elim)

theorem zero_neg (hf : f.Reads .shape u v .zero) : (-f).Reads .shape u v .zero :=
  .unary hf (Shape.Unary.neg_zero L)

end Formula.Reads

/-- What is asked of the operands of a node, so that its derivative is zero where theirs are. They
are not both constants, and `b` says whether the right one is. -/
structure Shape.Tame (op : BinaryOp) (b : Bool) (s t : Shape α) : Prop where
  left : ∀ {c}, s.constant c → Factor c
  right : ∀ {c}, t.constant c → Factor c
  divisor : op = .div → ∀ {v w}, t.constant v → t.constant w → Divisor (v * w)
  base : op = .pow → ∀ {c}, s.constant c → Factor (Scalar.unary .log c) ∧ Divisor c
  constant_right : b = true → (∀ {c}, ¬s.constant c) ∧ ¬t.varies
  varying_right : b = false → ∀ {c}, ¬t.constant c

variable (L : ZeroLaws α)

include L

open Formula.Reads in
/-- Where an operand that is not a constant has derivative zero, so has the operator. -/
theorem UnaryOp.rule_zero {op : UnaryOp} {rule : Formula Unit} (H : op.rule? = some rule) :
    rule.Reads (.shape : Interpretation α (Shape α)) (fun _ => .varying) (fun _ => .zero)
      .zero := by
  let I : Interpretation α (Shape α) := .shape
  have ha : (Formula.arg ()).Reads I (fun _ => .varying) (fun _ => .zero) .varying := .arg ()
  have hda : (Formula.tangent ()).Reads I (fun _ => .varying) (fun _ => .zero) .zero := .tangent ()
  have hf {op : UnaryOp} (hop : op ≠ .neg) := varying_unary ha hop
  cases op with
  | neg =>
    cases H
    exact zero_neg L hda
  | sqr =>
    cases H
    exact zero_mul L (varying_two L ha) hda
  | sqrt =>
    cases H
    exact zero_div L hda (varying_two L (hf nofun))
  | exp | sin | ramp =>
    cases H
    exact zero_mul L (hf nofun) hda
  | log =>
    cases H
    exact zero_div L hda ha
  | cos =>
    cases H
    exact zero_neg L (zero_mul L (hf nofun) hda)
  | tan =>
    cases H
    exact zero_div L hda (varying_binary (hf nofun) (hf nofun))
  | asin =>
    cases H
    exact zero_div L hda (varying_unary (varying_one L (varying_binary ha ha)) nofun)
  | acos =>
    cases H
    exact zero_neg L
      (zero_div L hda (varying_unary (varying_one L (varying_binary ha ha)) nofun))
  | atan =>
    cases H
    exact zero_div L hda (varying_one L (varying_binary ha ha))
  | sigmoid =>
    cases H
    exact zero_mul L (varying_binary (hf nofun) (varying_one L (hf nofun))) hda
  | logSigmoid =>
    cases H
    exact zero_mul L (varying_one L (hf nofun)) hda
  | unitStep => cases H

open Side Formula.Reads in
theorem BinaryOp.rule_zero {op : BinaryOp} {b : Bool} {s t : Shape α} (H : s.Tame op b t) :
    (op.rule b).Reads .shape (Side.select s t) (Side.select .zero .zero) .zero := by
  let I : Interpretation α (Shape α) := .shape
  have ha : (Formula.arg left).Reads I (select s t) (select .zero .zero) s := .arg left
  have hb : (Formula.arg right).Reads I (select s t) (select .zero .zero) t := .arg right
  have hda : (Formula.tangent left).Reads I (select s t) (select .zero .zero) .zero := .tangent left
  have hdb : (Formula.tangent right).Reads I (select s t) (select .zero .zero) .zero :=
    .tangent right
  have hdab := Formula.Reads.binary hda hb (Shape.Binary.zero_mul L H.right)
  have hadb := Formula.Reads.binary ha hdb (Shape.Binary.mul_zero L H.left)
  cases op with
  | add => exact .binary hda hdb (Shape.Binary.add_zero L)
  | sub => exact .binary hda hdb (Shape.Binary.sub_zero L)
  | mul => exact .binary hdab hadb (Shape.Binary.add_zero L)
  | div =>
    have hpure : t.Pure := by
      intro ht v hv
      cases b with
      | true => exact (H.constant_right rfl).2 ht
      | false => exact H.varying_right rfl hv
    have hbb := Formula.Reads.binary hb hb (Shape.Binary.square L hpure (H.divisor rfl))
    exact .binary (.binary hdab hadb (Shape.Binary.sub_zero L)) hbb (Shape.Binary.zero_div L id)
  | pow =>
    cases b with
    | true =>
      obtain ⟨hs, ht⟩ := H.constant_right rfl
      have h1 : (Formula.num 1).Reads I (select s t) (select .zero .zero) (.literal 1) :=
        .num fun _ hw => hw
      have hminus : Shape.Binary .sub t (.literal 1) .number := .number ht id
      have hexponent := Formula.Reads.binary hb h1 hminus
      have hpower := Formula.Reads.binary ha hexponent (Shape.Binary.pow_constant hs)
      have hfactor := Formula.Reads.binary hb hpower (Shape.Binary.mul_power L H.right)
      exact .binary hfactor hda (Shape.Binary.mul_zero L id)
    | false =>
      have ht : ∀ {c}, ¬t.constant c := H.varying_right rfl
      have hlogs : Shape.Unary .log s .factor :=
        .factor L (fun hc => (H.base rfl hc).1) nofun
      have hlog := Formula.Reads.unary ha hlogs
      have hdblog := Formula.Reads.binary hdb hlog (Shape.Binary.zero_mul L id)
      have hbda := Formula.Reads.binary hb hda (Shape.Binary.mul_zero L H.right)
      have hquotient := Formula.Reads.binary hbda ha
        (Shape.Binary.zero_div L fun hc => (H.base rfl hc).2)
      have hpowers : Shape.Binary .pow s t .varying := .varying (absurd rfl) ht
      have hpower := Formula.Reads.binary ha hb hpowers
      exact .binary hpower (.binary hdblog hquotient (Shape.Binary.add_zero L))
        (Shape.Binary.mul_zero L fun hc => hc.elim)

end

/-! ## Derivatives of nodes -/

namespace Pool

variable {α : Type} {p q : Pool α} {h a d : Handle} {i : Nat}

/-- The variable `x[i]` is not below the node. -/
def Lacks (p : Pool α) (h : Handle) (i : Nat) : Prop := ∀ k, p.Reaches h k → ¬p.Holds k (.var i)

theorem Lacks.arg (H : p.Lacks h i) (hn : p.Holds h n) (ha : a ∈ n.args) : p.Lacks a i :=
  fun k hk => H k (.step hn ha hk)

theorem Lacks.of_le (H : q.Lacks h i) (hle : p ≤ q) : p.Lacks h i :=
  fun k hk hn => H k (hk.mono hle) (hn.mono hle)

variable [Scalar α]

theorem Lacks.mono (H : p.Lacks h i) (hp : p.WF) (hle : p ≤ q) (hh : p.Names h) : q.Lacks h i := by
  intro k hk hn
  have hk := hk.old hp hle hh
  exact H k hk (hn.old hle (hk.names hp hh))

/-- The constants below a node are such that zero times a constant is zero. So is zero divided by
the square of a constant that is divided by, and what the rule of powers makes of zero and a
constant that is raised to an exponent that is none. -/
structure Tame (p : Pool α) (h : Handle) : Prop where
  factor : ∀ {k c}, p.Reaches h k → p.Holds k (.const c) → Factor c
  divisor : ∀ {k a b c}, p.Reaches h k → p.Holds k (.binary .div a b) → p.Holds b (.const c) →
    Divisor (c * c)
  base : ∀ {k a b c}, p.Reaches h k → p.Holds k (.binary .pow a b) → p.Holds a (.const c) →
    Factor (Scalar.unary .log c) ∧ Divisor c

theorem Tame.arg (H : p.Tame h) (hn : p.Holds h n) (ha : a ∈ n.args) : p.Tame a where
  factor hk := H.factor (.step hn ha hk)
  divisor hk := H.divisor (.step hn ha hk)
  base hk := H.base (.step hn ha hk)

theorem Tame.of_le (H : q.Tame h) (hle : p ≤ q) : p.Tame h where
  factor hk hc := H.factor (hk.mono hle) (hc.mono hle)
  divisor hk hn hc := H.divisor (hk.mono hle) (hn.mono hle) (hc.mono hle)
  base hk hn hc := H.base (hk.mono hle) (hn.mono hle) (hc.mono hle)

theorem Tame.mono (H : p.Tame h) (hp : p.WF) (hle : p ≤ q) (hh : p.Names h) : q.Tame h where
  factor hk hc := by
    have hk := hk.old hp hle hh
    exact H.factor hk (hc.old hle (hk.names hp hh))
  divisor hk hn hc := by
    have hk := hk.old hp hle hh
    have hn := hn.old hle (hk.names hp hh)
    exact H.divisor hk hn (hc.old hle (hp.binary_args hn).2)
  base hk hn hc := by
    have hk := hk.old hp hle hh
    have hn := hn.old hle (hk.names hp hh)
    exact H.base hk hn (hc.old hle (hp.binary_args hn).1)

/-- The shapes of the operands are as the rule of their operator needs them. -/
theorem Tame.shapes (H : p.Tame h) (hp : p.WF) (hn : p.Holds h (.binary op a b)) :
    (p.shape a).Tame op (p.isConstant b) (p.shape b) where
  left hc := H.factor (.step hn List.mem_cons_self .rfl) hc
  right hc := H.factor (.step hn (List.mem_cons_of_mem _ List.mem_cons_self) .rfl) hc
  divisor hop v w hv hw := by
    cases hop
    cases hv.unique hw
    exact H.divisor .rfl hn hv
  base hop c hc := by
    cases hop
    exact H.base .rfl hn hc
  constant_right hb :=
    ⟨fun hc => (hp.normal hn).1 ⟨Holds.isConstant hc, hb⟩, fun hv => nomatch hb.symm.trans hv⟩
  varying_right hb _ hc := nomatch hb.symm.trans (Holds.isConstant hc)

/-- The derivative by a variable that is absent is the constant zero. -/
def ZeroAt (p : Pool α) (h : Handle) (i : Nat) (d : Handle) : Prop :=
  p.Lacks h i → p.Tame h → Shape.zero.Of p d

theorem inherited_zeroAt (L : ZeroLaws α) : Inherited (ZeroAt (α := α)) where
  mono H _ hle _ hlacks htame := (H (hlacks.of_le hle) (htame.of_le hle)).mono hle
  derives {p h i n r} hp H hn hd hlacks htame := by
    have hle := (hd.yields hp hn).grows.le
    replace hlacks := hlacks.of_le hle
    replace htame := htame.of_le hle
    have below {a da : Handle} (ha : a ∈ n.args) (hda : p.derivative? a i = some da) :
        Shape.zero.Of p da := H hda (hlacks.arg hn ha) (htame.arg hn ha)
    cases hd with
    | const => exact Shape.Stores.of_constant hp.indexed (Shape.stores_zero L)
    | @var j =>
      have hj : j ≠ i := by
        rintro rfl
        exact hlacks h .rfl hn
      rw [if_neg hj]
      exact Shape.Stores.of_constant hp.indexed (Shape.stores_zero L)
    | unary hda hrule =>
      have hz := below List.mem_cons_self hda
      have ha : Shape.varying.Of p _ := .inr ⟨trivial, hp.unary_arg hn, (hp.normal hn).1⟩
      exact Formula.kept Shape.kept_shape hp (fun _ => ha) (fun _ => hz) (UnaryOp.rule_zero L hrule)
    | binary hda hdb =>
      have hza := below List.mem_cons_self hda
      have hzb := below (List.mem_cons_of_mem _ List.mem_cons_self) hdb
      obtain ⟨ha, hb⟩ := hp.binary_args hn
      exact Formula.kept Shape.kept_shape hp
        (Side.forall.mpr ⟨Shape.of_shape ha, Shape.of_shape hb⟩) (Side.forall.mpr ⟨hza, hzb⟩)
        (BinaryOp.rule_zero L (htame.shapes hp hn))

/-- A call for the derivative by a variable that is absent gives the constant zero. -/
theorem Reached.differentiateBy_zero (L : ZeroLaws α) (H : p.Reached) (hh : p.Names h)
    (hs : ¬p.Stepped h) (hlacks : p.Lacks h i) (htame : p.Tame h) :
    ∃ d q v, (Build.differentiateBy h i).run p = (.ok d, q) ∧ q.Holds d (.const v) ∧ IsZero v := by
  obtain ⟨d, q, hr⟩ := (Build.run_differentiateBy_ok_iff H hh).mpr hs
  have h0 := (names_iff.mp hh).1
  have hle := (Build.differentiateBy_leads h0 hr).le H.wf
  have hq := H.leads (Build.differentiateBy_leads h0 hr)
  have hd := ((Build.differentiateBy_ensures H.wf h0 i).run_ok hr).2
  obtain ⟨v, hv, hz⟩ | ⟨hf, _⟩ := hq.inherits (inherited_zeroAt L) hd (hlacks.mono H.wf hle hh)
    (htame.mono H.wf hle hh)
  · exact ⟨d, q, v, hr, hv, hz⟩
  · exact hf.elim

end Pool

end Downhill
