import Downhill.Proofs.Meaning.Soundness
import Downhill.Proofs.Pool.Canonicity
import Downhill.Proofs.Scalar.Zeros

/-!
# Constants and other nodes

What the constructors of a pool return depends on which operands are constants and on what these
constants are, and on nothing else. A shape says as much of a node: what is known of its value if it
is a constant, and whether it may be anything else. Shapes are read from the operands of a formula
up, so what a formula comes to in a pool can be told from the shapes of its operands (`kept_shape`).

Constants are computed before zeros are looked for. Whether a product or a quotient of zero is zero
is therefore left to the scalars (`Scalar.ZeroLaws`), unless one of the operands is not a constant.
-/

namespace Downhill

open Scalar

/-- What is known of a node: of its value, should it be a constant, and if it may be none. -/
structure Shape (α : Type) where
  constant : α → Prop
  varies : Prop

namespace Pool

variable {α : Type} {p q : Pool α} {h : Handle} {v : α}

/-- A node that is not a constant. -/
def Varies (p : Pool α) (h : Handle) : Prop := p.Names h ∧ p.isConstant h = false

/-- All there is to know of a node. -/
def shape (p : Pool α) (h : Handle) : Shape α where
  constant v := p.Holds h (.const v)
  varies := p.isConstant h = false

theorem Holds.isConstant (H : p.Holds h (.const v)) : p.isConstant h = true :=
  isConstant_iff.mpr ⟨v, H.constant?⟩

theorem Holds.varies (H : p.Holds h n) (hn : ∀ v, n ≠ .const v) : p.Varies h :=
  ⟨H.names, isConstant_eq_false_iff.mpr (H.constant?_eq_none hn)⟩

theorem Varies.constant? (H : p.Varies h) : p.constant? h = none := isConstant_eq_false_iff.mp H.2

theorem Varies.not_holds (H : p.Varies h) : ¬p.Holds h (.const v) :=
  fun hv => nomatch H.2.symm.trans hv.isConstant

theorem Varies.mono (H : p.Varies h) (hle : p ≤ q) : q.Varies h :=
  ⟨H.1.mono hle, (H.1.isConstant_eq hle).trans H.2⟩

theorem Names.cases (hh : p.Names h) : (∃ v, p.Holds h (.const v)) ∨ p.Varies h := by
  cases hc : p.isConstant h with
  | false => exact .inr ⟨hh, hc⟩
  | true =>
    obtain ⟨v, hv⟩ := isConstant_iff.mp hc
    exact .inl ⟨v, holds_of_constant? hh hv⟩

variable [Scalar α]

theorem Varies.not_isNumber (H : p.Varies h) : ¬p.IsNumber h v := by
  simp [IsNumber, holds, H.constant?]

theorem Holds.isNumber_iff {w : α} (H : p.Holds h (.const v)) :
    p.IsNumber h w ↔ Scalar.eq v w = true := by
  simp [IsNumber, holds, H.constant?]

end Pool

/-! ## Shapes of nodes -/

namespace Shape

variable {α : Type} {p q : Pool α} {h a b : Handle} {s t r : Shape α}

/-- A node is as the shape says. -/
def Of (s : Shape α) (p : Pool α) (h : Handle) : Prop :=
  (∃ v, p.Holds h (.const v) ∧ s.constant v) ∨ s.varies ∧ p.Varies h

/-- A shape of constants, or else of nodes that are none. -/
def Pure (s : Shape α) : Prop := s.varies → ∀ v, ¬s.constant v

theorem Of.names (H : s.Of p h) : p.Names h := by
  rcases H with ⟨_, hv, _⟩ | ⟨_, hh, _⟩
  · exact hv.names
  · exact hh

theorem Of.mono (H : s.Of p h) (hle : p ≤ q) : s.Of q h := by
  rcases H with ⟨v, hv, hs⟩ | ⟨hs, hh⟩
  · exact .inl ⟨v, hv.mono hle, hs⟩
  · exact .inr ⟨hs, hh.mono hle⟩

theorem Of.constant (H : s.Of p h) (hv : p.Holds h (.const v)) : s.constant v := by
  rcases H with ⟨w, hw, hs⟩ | ⟨_, hh⟩
  · cases hv.unique hw
    exact hs
  · exact absurd hv hh.not_holds

theorem Of.varies (H : s.Of p h) (hh : p.Varies h) : s.varies := by
  rcases H with ⟨w, hw, _⟩ | ⟨hs, _⟩
  · exact absurd hw hh.not_holds
  · exact hs

/-- Beside a constant, what is not folded with it is none. -/
theorem Of.varies_left (ha : s.Of p a) (hb : p.isConstant b = true)
    (hc : ¬(p.isConstant a = true ∧ p.isConstant b = true)) : p.Varies a :=
  ⟨ha.names, Bool.not_eq_true _ ▸ fun h => hc ⟨h, hb⟩⟩

theorem Of.varies_right (hb : t.Of p b) (ha : p.isConstant a = true)
    (hc : ¬(p.isConstant a = true ∧ p.isConstant b = true)) : p.Varies b :=
  ⟨hb.names, Bool.not_eq_true _ ▸ fun h => hc ⟨ha, h⟩⟩

theorem of_shape (hh : p.Names h) : (p.shape h).Of p h := by
  rcases hh.cases with ⟨v, hv⟩ | hvaries
  · exact .inl ⟨v, hv, hv⟩
  · exact .inr ⟨hvaries.2, hvaries⟩

def number : Shape α := ⟨fun _ => True, False⟩

def varying : Shape α := ⟨fun _ => False, True⟩

section

variable [Scalar α]

def zero : Shape α := ⟨IsZero, False⟩

def literal (n : Nat) : Shape α := ⟨StoredAs (Scalar.nat n), False⟩

def factor : Shape α := ⟨Factor, True⟩

def divisor : Shape α := ⟨Divisor, True⟩

/-- A power with a constant exponent, which may come to one. -/
def power : Shape α := ⟨StoredAs (Scalar.nat 1), True⟩

/-- What an operator with one operand makes of a shape. -/
structure Unary (op : UnaryOp) (s t : Shape α) : Prop where
  constant : ∀ {v w}, s.constant v → StoredAs (Scalar.unary op v) w → t.constant w
  others : s.varies → ∀ {p : Pool α} {a}, p.Indexed → p.Varies a →
    t.Of (p.unary op a).2 (p.unary op a).1

/-- What an operator with two operands makes of shapes. -/
structure Binary (op : BinaryOp) (s t r : Shape α) : Prop where
  constants : ∀ {u v w}, s.constant u → t.constant v → StoredAs (Scalar.binary op u v) w →
    r.constant w
  others : ∀ {p : Pool α} {a b}, p.Indexed → ¬(p.isConstant a = true ∧ p.isConstant b = true) →
    s.Of p a → t.Of p b → r.Of (p.binary op a b).2 (p.binary op a b).1

/-- A shape of whatever is stored for a number. -/
def Stores (v : α) (s : Shape α) : Prop := ∀ w, StoredAs v w → s.constant w

end

end Shape

/-- Shapes of nodes. Nothing is said of variables, which are never stored for a number. -/
def Interpretation.shape [Scalar α] : Interpretation α (Shape α) where
  number := Shape.Stores
  var _ _ := False
  unary := Shape.Unary
  binary := Shape.Binary

namespace Shape

variable {α : Type} [Scalar α] {p : Pool α} {h a b : Handle} {s t r : Shape α}

theorem Stores.of_constant (hp : p.Indexed) (H : s.Stores v) :
    s.Of (p.constant v).2 (p.constant v).1 :=
  let ⟨w, hw, hstored⟩ := Pool.holds_constant hp v; .inl ⟨w, hw, H w hstored⟩

theorem Unary.of_unary (hp : p.Indexed) (H : Unary op s t) (ha : s.Of p a) :
    t.Of (p.unary op a).2 (p.unary op a).1 := by
  rcases ha with ⟨v, hv, hs⟩ | ⟨hs, ha⟩
  · have hfold : p.unary op a = p.constant (Scalar.unary op v) := by
      unfold Pool.unary
      rw [hv.2]
    rw [hfold]
    exact Stores.of_constant hp fun _ hw => H.constant hs hw
  · exact H.others hs hp ha

theorem Binary.of_binary (hp : p.Indexed) (H : Binary op s t r) (ha : s.Of p a) (hb : t.Of p b) :
    r.Of (p.binary op a b).2 (p.binary op a b).1 := by
  by_cases hc : p.isConstant a = true ∧ p.isConstant b = true
  · obtain ⟨⟨u, hu⟩, v, hv⟩ := hc.imp Pool.isConstant_iff.mp Pool.isConstant_iff.mp
    have hfold : p.binary op a b = p.constant (Scalar.binary op u v) := by
      rw [Pool.binary, hu, hv]
    have hs := ha.constant (Pool.holds_of_constant? ha.names hu)
    have ht := hb.constant (Pool.holds_of_constant? hb.names hv)
    rw [hfold]
    exact Stores.of_constant hp fun _ hw => H.constants hs ht hw
  · exact H.others hp hc ha hb

/-- Shapes of stored nodes are what building them again would give. -/
theorem of_reads (hp : p.WF) (H : p.Reads .shape h s) : s.Of p h := by
  induction H with
  | const hn hs => exact .inl ⟨_, hn, hs _ (.inl rfl)⟩
  | var _ hs => exact hs.elim
  | unary hn _ hop ih =>
    have hbuilt := hop.of_unary hp.indexed ih
    rwa [(hp.normal hn).unary_eq (hp.unary_arg hn), hp.intern_eq hn (Node.same_unary ..)] at hbuilt
  | binary hn _ _ hop ihs iht =>
    have hbuilt := hop.of_binary hp.indexed ihs iht
    obtain ⟨ha, hb⟩ := hp.binary_args hn
    rwa [(hp.normal hn).binary_eq ha hb, hp.intern_eq hn (Node.same_binary ..)] at hbuilt

theorem kept_shape :
    (Interpretation.shape : Interpretation α (Shape α)).Kept Stores fun p h s => s.Of p h where
  names := Of.names
  mono := Of.mono
  reads := of_reads
  constant hp H := H.of_constant hp.indexed
  unary hp ha H := H.of_unary hp.indexed ha
  binary hp ha hb H := H.of_binary hp.indexed ha hb
  number H := H
  unary_number hv H _ hw := H.constant (hv _ (.inl rfl)) hw
  binary_number hv hw H _ hu := H.constants (hv _ (.inl rfl)) (hw _ (.inl rfl)) hu

end Shape

end Downhill
