import Downhill.Proofs.Meaning.Writing

/-!
# Simplified terms

The simplifying constructors once more, on terms instead of nodes: nothing is shared, stored or
looked up. Where numbers that compare equal are the same (`Scalar.Exact`), what a constructor of a
pool returns stands for what these make of the terms that the operands stand for
(`Unfolds.mkUnary`, `Unfolds.mkBinary`). So what was written as a term stands for the simplified
term, whatever the pool had been used for before (`Written.unfolds`).
-/

namespace Downhill

/-- Numbers that compare equal are the same. -/
def Scalar.Exact (α : Type) [Scalar α] : Prop := ∀ {v w : α}, Scalar.eq v w = true → v = w

namespace Term

variable {α : Type}

/-- The number that a term is, if it is one. -/
def number? : Term α → Option α
  | num v => some v
  | var _ | unary .. | binary .. => none

variable [Scalar α]

/-- Whether a term is a number that is equal to a given one. -/
def isNumber (t : Term α) (v : α) : Bool := t.number?.any (Scalar.eq · v)

def mkUnary (op : UnaryOp) (t : Term α) : Term α :=
  match t, op with
  | num v, op => num (Scalar.unary op v)
  | unary .neg t, .neg => t
  | t, op => unary op t

/-- A binary operator on terms of which one at least is not a number. -/
def reduce (op : BinaryOp) (s t : Term α) : Term α :=
  let zero : α := Scalar.nat 0
  let one : α := Scalar.nat 1
  match op with
  | .add => if s.isNumber zero then t else if t.isNumber zero then s else binary .add s t
  | .sub =>
    if t.isNumber zero then s else if s.isNumber zero then mkUnary .neg t else binary .sub s t
  | .mul =>
    if s.isNumber zero || t.isNumber zero then num zero
    else if s.isNumber one then t
    else if t.isNumber one then s
    else binary .mul s t
  | .div => if t.isNumber one then s else if s.isNumber zero then num zero else binary .div s t
  | .pow => if t.isNumber one then s else if t.isNumber zero then num one else binary .pow s t

def mkBinary (op : BinaryOp) : Term α → Term α → Term α
  | num u, num v => num (Scalar.binary op u v)
  | s, t => reduce op s t

/-- A term built again by the simplifying constructors. -/
def simplified : Term α → Term α
  | num v => num v
  | var i => var i
  | unary op t => mkUnary op t.simplified
  | binary op s t => mkBinary op s.simplified t.simplified

end Term

/-- Operators simplify, numbers and variables are themselves. -/
def Interpretation.simplifying [Scalar α] : Interpretation α (Term α) where
  number v t := t = .num v
  var i t := t = .var i
  unary op s t := t = .mkUnary op s
  binary op s s' t := t = .mkBinary op s s'

theorem Term.reads_simplified [Scalar α] (t : Term α) : t.Reads .simplifying t.simplified := by
  induction t with
  | num v => exact .num rfl
  | var i => exact .var rfl
  | unary op t ih => exact .unary ih rfl
  | binary op s t ihs iht => exact .binary ihs iht rfl

namespace Pool

variable {α : Type} {p q : Pool α} {h a b : Handle} {s t : Term α}

/-! ## Nodes as terms -/

theorem Unfolds.number? (H : p.Unfolds h t) : t.number? = p.constant? h := by
  cases H with
  | const hn ht =>
    cases ht
    exact hn.constant?.symm
  | var hn ht | unary hn _ ht | binary hn _ _ ht =>
    cases ht
    exact (hn.constant?_eq_none nofun).symm

theorem Unfolds.eq_num (H : p.Unfolds h t) (hv : p.constant? h = some v) : t = .num v :=
  H.of_const (holds_of_constant? H.names hv)

variable [Scalar α]

theorem Unfolds.isNumber (H : p.Unfolds h t) (v : α) :
    t.isNumber v = holds (p.constant? h) v := by
  rw [Term.isNumber, H.number?, holds]

theorem le_intern (p : Pool α) (n : Node Handle α) : p ≤ (p.intern n).2 := by
  unfold intern
  split
  · exact le_rfl
  · exact le_push

theorem unfolds_constant (E : Scalar.Exact α) (hp : p.Indexed) (v : α) :
    (p.constant v).2.Unfolds (p.constant v).1 (.num v) := by
  obtain ⟨w, hw, rfl | heq⟩ := holds_constant hp v
  · exact .const hw rfl
  · cases E heq
    exact .const hw rfl

theorem Unfolds.intern_unary (hp : p.Indexed) (ha : p.Unfolds a t) (op : UnaryOp) :
    (p.intern (.unary op a)).2.Unfolds (p.intern (.unary op a)).1 (.unary op t) :=
  .unary (holds_intern_unary hp op a) (ha.mono (p.le_intern _)) rfl

theorem Unfolds.intern_binary (hp : p.Indexed) (ha : p.Unfolds a s) (hb : p.Unfolds b t)
    (op : BinaryOp) :
    (p.intern (.binary op a b)).2.Unfolds (p.intern (.binary op a b)).1 (.binary op s t) :=
  .binary (holds_intern_binary hp op a b) (ha.mono (p.le_intern _)) (hb.mono (p.le_intern _)) rfl

/-! ## Constructors -/

theorem Normal.mkUnary_eq (H : p.Normal (.unary op a)) (ha : p.Unfolds a t) :
    t.mkUnary op = .unary op t := by
  cases ha with
  | const hn ht =>
    have hconst : p.isConstant a = true := isConstant_iff.mpr ⟨_, hn.constant?⟩
    exact absurd (H.1.symm.trans hconst) Bool.false_ne_true
  | var hn ht | binary hn _ _ ht =>
    cases ht
    rfl
  | @unary _ op' b c _ hn hb ht =>
    cases ht
    have hneg := H.2
    cases op <;> cases op' <;> first | rfl | exact absurd hn (hneg rfl b)

theorem Unfolds.mkUnary (E : Scalar.Exact α) (hp : p.Indexed) (ha : p.Unfolds a t)
    (op : UnaryOp) : (p.unary op a).2.Unfolds (p.unary op a).1 (t.mkUnary op) := by
  have hs := unary_steps op ha.names
  generalize p.unary op a = r at hs ⊢
  cases hs with
  | fold hv =>
    cases ha.of_const hv
    exact unfolds_constant E hp _
  | cancel hb =>
    obtain ⟨s, hs, ht⟩ := ha.of_unary hb
    cases ht
    exact hs
  | keep hn =>
    rw [hn.mkUnary_eq ha]
    exact ha.intern_unary hp op

/-- The branches that are taken unless both operands are constants. -/
theorem Unfolds.reduce (E : Scalar.Exact α) (hp : p.Indexed) (ha : p.Unfolds a s)
    (hb : p.Unfolds b t) (op : BinaryOp) (hc : ∀ u v, s = .num u → t = .num v → False) :
    (p.binary op a b).2.Unfolds (p.binary op a b).1 (s.reduce op t) := by
  unfold Pool.binary
  split
  · rename_i u v hu hv
    exact (hc u v (ha.eq_num hu) (hb.eq_num hv)).elim
  cases op with
  | add =>
    simp only [Term.reduce, ha.isNumber, hb.isNumber]
    split
    · exact hb
    split
    · exact ha
    · exact ha.intern_binary hp hb .add
  | sub =>
    simp only [Term.reduce, ha.isNumber, hb.isNumber]
    split
    · exact ha
    split
    · exact hb.mkUnary E hp .neg
    · exact ha.intern_binary hp hb .sub
  | mul =>
    simp only [Term.reduce, ha.isNumber, hb.isNumber]
    split
    · exact unfolds_constant E hp _
    split
    · exact hb
    split
    · exact ha
    · exact ha.intern_binary hp hb .mul
  | div =>
    simp only [Term.reduce, ha.isNumber, hb.isNumber]
    split
    · exact ha
    split
    · exact unfolds_constant E hp _
    · exact ha.intern_binary hp hb .div
  | pow =>
    simp only [Term.reduce, hb.isNumber]
    split
    · exact ha
    split
    · exact unfolds_constant E hp _
    · exact ha.intern_binary hp hb .pow

theorem Unfolds.mkBinary (E : Scalar.Exact α) (hp : p.Indexed) (ha : p.Unfolds a s)
    (hb : p.Unfolds b t) (op : BinaryOp) :
    (p.binary op a b).2.Unfolds (p.binary op a b).1 (s.mkBinary op t) := by
  unfold Term.mkBinary
  split
  · rename_i u v
    rw [Pool.binary, ← ha.number?, ← hb.number?]
    exact unfolds_constant E hp _
  · rename_i hc
    exact ha.reduce E hp hb op hc

/-! ## Normal forms -/

theorem Normal.mkBinary_eq (H : p.Normal (.binary op a b)) (ha : p.Unfolds a s)
    (hb : p.Unfolds b t) : s.mkBinary op t = .binary op s t := by
  obtain ⟨hc, ho⟩ := H
  unfold Term.mkBinary
  split
  · rename_i u v
    have ha' : p.isConstant a = true := isConstant_iff.mpr ⟨u, ha.number?.symm⟩
    have hb' : p.isConstant b = true := isConstant_iff.mpr ⟨v, hb.number?.symm⟩
    exact absurd ⟨ha', hb'⟩ hc
  cases op with
  | add =>
    simp only [Term.reduce, ha.isNumber, hb.isNumber]
    exact (if_neg ho.1).trans (if_neg ho.2)
  | sub =>
    simp only [Term.reduce, ha.isNumber, hb.isNumber]
    exact (if_neg ho.2).trans (if_neg ho.1)
  | mul =>
    obtain ⟨hz, hone⟩ := ho
    simp only [Term.reduce, ha.isNumber, hb.isNumber]
    have hz := mt Bool.or_eq_true_iff.mp (not_or.mpr hz)
    exact (if_neg hz).trans ((if_neg hone.1).trans (if_neg hone.2))
  | div =>
    simp only [Term.reduce, ha.isNumber, hb.isNumber]
    exact (if_neg ho.1).trans (if_neg ho.2)
  | pow =>
    simp only [Term.reduce, hb.isNumber]
    exact (if_neg ho.1).trans (if_neg ho.2)

/-- There is nothing to simplify in what a node stands for. -/
theorem Reads.unfolds (hp : p.WF) (H : p.Reads .simplifying h t) : p.Unfolds h t := by
  induction H with
  | const hn ht => exact .const hn ht
  | var hn ht => exact .var hn ht
  | unary hn _ ht ih =>
    rw [ht, (hp.normal hn).mkUnary_eq ih]
    exact .unary hn ih rfl
  | binary hn _ _ ht ihs iht =>
    rw [ht, (hp.normal hn).mkBinary_eq ihs iht]
    exact .binary hn ihs iht rfl

end Pool

/-! ## Written terms -/

variable {α : Type} [Scalar α] {p : Pool α} {u : Operand α} {h : Handle} {t : Term α}

/-- The constructors keep which terms nodes stand for. -/
theorem Interpretation.kept_simplifying (E : Scalar.Exact α) :
    simplifying.Kept (fun v t => t = .num v) (Pool.Unfolds (α := α)) where
  names := Pool.Reads.names
  mono := Pool.Reads.mono
  reads := Pool.Reads.unfolds
  constant {p v t} hp ht := by
    rw [ht]
    exact Pool.unfolds_constant E hp.indexed v
  unary {p op a s t} hp hs ht := by
    rw [ht]
    exact hs.mkUnary E hp.indexed op
  binary {p op a b s t w} hp hs ht hw := by
    rw [hw]
    exact hs.mkBinary E hp.indexed ht op
  number ht := ht
  unary_number {op v s t} hs ht := by
    rw [ht, hs]
    rfl
  binary_number {op v w s t x} hs ht hx := by
    rw [hx, hs, ht]
    rfl

/-- What was written as a term is the number that the term is simplified to, or a node that stands
for the simplified term. -/
theorem Written.simplified (E : Scalar.Exact α) (H : Written p u t) :
    u.Stands (fun v t => t = .num v) Pool.Unfolds p t.simplified :=
  H.stands (Interpretation.kept_simplifying E) t.reads_simplified

theorem Written.unfolds (E : Scalar.Exact α) (H : Written p (.expression h) t) :
    p.Unfolds h t.simplified :=
  H.simplified E

end Downhill
