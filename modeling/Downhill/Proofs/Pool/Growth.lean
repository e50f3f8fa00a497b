import Mathlib.Order.Basic
import Downhill.Graph.Pool

/-!
# How pools grow

A pool only ever gains nodes one at a time, each of them new, built from nodes that are there
already and in normal form (`Pool.Admits`). A node that is appended is entered in the table, so the
table always lists the nodes (`Pool.Indexed`), and a node that it does not find is nowhere in the
pool. All that builds in a pool grows it in this way (`Pool.Grows`), so a well-formed pool stays
well formed (`Grows.wf`) and every handle goes on naming the node it named before (`Grows.le`).
-/

namespace Downhill

namespace Node

variable {ρ : Type v} {α : Type u} [BEq ρ] [LawfulBEq ρ] [Scalar α] {m n : Node ρ α}

/-- Nodes that are the same are equal, except for constants of equal value. -/
theorem same_cases (h : m.same n = true) :
    m = n ∨ ∃ v w, m = .const v ∧ n = .const w ∧ Scalar.eq v w = true := by
  cases m <;> cases n <;> simp_all [same]

theorem same_unary (op : UnaryOp) (a : ρ) : (unary op a : Node ρ α).same (.unary op a) = true := by
  simp [same]

theorem same_binary (op : BinaryOp) (a b : ρ) :
    (binary op a b : Node ρ α).same (.binary op a b) = true := by
  simp [same]

end Node

namespace Pool

variable {α : Type} {p q r : Pool α} {h a b : Handle} {m n : Node Handle α}

/-! ## What a position holds -/

/-- The node at a position. Handles that count from the end hold nothing. -/
def Holds (p : Pool α) (h : Handle) (n : Node Handle α) : Prop := 0 ≤ h ∧ p.node? h = some n

def Names (p : Pool α) (h : Handle) : Prop := ∃ n, p.Holds h n

theorem holds_ofNat {k : Nat} : p.Holds (k : Handle) n ↔ p.nodes[k]? = some n := by
  simp [Holds]

theorem Holds.names (H : p.Holds h n) : p.Names h := ⟨n, H⟩

theorem Holds.nonneg (H : p.Holds h n) : 0 ≤ h := H.1

theorem Holds.unique (H : p.Holds h m) (H' : p.Holds h n) : m = n :=
  Option.some.inj (H.2.symm.trans H'.2)

theorem names_iff : p.Names h ↔ 0 ≤ h ∧ h < p.size := by
  constructor
  · rintro ⟨n, h0, hn⟩
    obtain ⟨k, rfl⟩ := Int.eq_ofNat_of_zero_le h0
    have hk := (Array.getElem?_eq_some_iff.mp (holds_ofNat.mp ⟨h0, hn⟩)).1
    exact ⟨h0, Int.ofNat_lt.mpr hk⟩
  · rintro ⟨h0, hlt⟩
    obtain ⟨k, rfl⟩ := Int.eq_ofNat_of_zero_le h0
    have hk : k < p.nodes.size := Int.ofNat_lt.mp hlt
    exact ⟨p.nodes[k], holds_ofNat.mpr (Array.getElem?_eq_getElem hk)⟩

theorem Holds.constant? {v : α} (H : p.Holds h (.const v)) : p.constant? h = some v := by
  simp only [Pool.constant?, H.2]

theorem holds_of_constant? {v : α} (hh : p.Names h) (H : p.constant? h = some v) :
    p.Holds h (.const v) := by
  obtain ⟨n, hn⟩ := hh
  refine ⟨hn.1, ?_⟩
  cases n <;> simp_all [Pool.constant?, hn.2]

theorem Holds.constant?_eq_none (H : p.Holds h n) (hn : ∀ v, n ≠ .const v) :
    p.constant? h = none := by
  cases n <;> simp_all [Pool.constant?, H.2]

theorem isConstant_iff : p.isConstant h = true ↔ ∃ v, p.constant? h = some v := by
  simp [isConstant, Option.isSome_iff_exists]

theorem isConstant_eq_false_iff : p.isConstant h = false ↔ p.constant? h = none := by
  simp [isConstant]

theorem not_holds_empty : ¬(.empty : Pool α).Holds h n := by
  intro H
  obtain ⟨h0, hlt⟩ := names_iff.mp H.names
  exact Int.not_lt.mpr h0 hlt

theorem derivative?_empty {i : Nat} : (.empty : Pool α).derivative? h i = none := by
  simp [derivative?, Pool.empty]

/-! ## Extension -/

/-- What one pool holds and remembers, the other does too. -/
structure Extends (p q : Pool α) : Prop where
  holds : ∀ {h n}, p.Holds h n → q.Holds h n
  derivative : ∀ {h i d}, p.derivative? h i = some d → q.derivative? h i = some d

instance : Preorder (Pool α) where
  le := Extends
  le_refl _ := ⟨id, id⟩
  le_trans _ _ _ H H' :=
    ⟨fun h => H'.holds (H.holds h), fun h => H'.derivative (H.derivative h)⟩

theorem Holds.mono (H : p.Holds h n) (hle : p ≤ q) : q.Holds h n := hle.holds H

theorem Names.mono (H : p.Names h) (hle : p ≤ q) : q.Names h :=
  let ⟨_, hn⟩ := H; (hn.mono hle).names

theorem Holds.old (H : q.Holds h n) (hle : p ≤ q) (hh : p.Names h) : p.Holds h n := by
  obtain ⟨m, hm⟩ := hh
  exact (hm.mono hle).unique H ▸ hm

theorem Names.node?_eq (H : p.Names h) (hle : p ≤ q) : q.node? h = p.node? h := by
  obtain ⟨n, hn⟩ := H
  rw [hn.2, (hn.mono hle).2]

theorem Names.constant?_eq (H : p.Names h) (hle : p ≤ q) : q.constant? h = p.constant? h := by
  simp only [constant?, H.node?_eq hle]

theorem Names.isConstant_eq (H : p.Names h) (hle : p ≤ q) : q.isConstant h = p.isConstant h := by
  simp only [isConstant, H.constant?_eq hle]

/-! ## Appending a node -/

section Push

variable [Scalar α]

@[simp] theorem size_push : (p.push n).size = p.size + 1 := by simp [push, size]

theorem size_le_push : p.size ≤ (p.push n).size := by simp

@[simp] theorem derivative?_push {i : Nat} :
    (p.push n).derivative? h i = p.derivative? h i := rfl

theorem holds_push : (p.push n).Holds h m ↔ p.Holds h m ∨ h = p.size ∧ m = n := by
  constructor
  · intro H
    obtain ⟨k, rfl⟩ := Int.eq_ofNat_of_zero_le H.nonneg
    have hk := holds_ofNat.mp H
    simp only [push, Array.getElem?_push] at hk
    split at hk
    · rename_i e
      exact .inr ⟨congrArg _ e, (Option.some.inj hk).symm⟩
    · exact .inl (holds_ofNat.mpr hk)
  · rintro (H | ⟨rfl, rfl⟩)
    · obtain ⟨k, rfl⟩ := Int.eq_ofNat_of_zero_le H.nonneg
      have hk := holds_ofNat.mp H
      refine holds_ofNat.mpr ?_
      rw [push, Array.getElem?_push_lt (Array.getElem?_eq_some_iff.mp hk).1]
      exact (Array.getElem?_eq_getElem _).symm.trans hk
    · exact holds_ofNat.mpr Array.getElem?_push_size

theorem holds_push_self : (p.push n).Holds p.size n := holds_push.mpr (.inr ⟨rfl, rfl⟩)

theorem le_push : p ≤ p.push n := ⟨fun H => holds_push.mpr (.inl H), id⟩

end Push

/-! ## The table -/

/-- The table lists the nodes with their positions, and nothing else. -/
def Indexed (p : Pool α) : Prop := p.table = p.nodes.toList.zipIdx

theorem Indexed.empty : (.empty : Pool α).Indexed := rfl

theorem Indexed.mem_table_iff {k : Nat} (H : p.Indexed) : (n, k) ∈ p.table ↔ p.Holds k n := by
  rw [H, List.mk_mem_zipIdx_iff_getElem?, Array.getElem?_toList, holds_ofNat]

section Normal

variable [Scalar α]

theorem lookup_zipIdx {κ : Type} [BEq κ] (key : κ) (keys : List κ) (k : Nat) :
    (keys.zipIdx k).lookup key = (keys.findIdx? (key == ·)).map (· + k) := by
  induction keys generalizing k with
  | nil => rfl
  | cons a keys ih =>
    rw [List.zipIdx_cons, List.lookup_cons, List.findIdx?_cons]
    cases key == a with
    | false =>
      have hstep : (· + (k + 1)) = (· + k) ∘ (· + 1) := funext fun j => Nat.add_right_comm j k 1
      rw [ih, hstep, ← Option.map_map]
      rfl
    | true => simp

/-- A node is found where it is first stored. -/
theorem Indexed.find?_eq (H : p.Indexed) (n : Node Handle α) :
    p.find? n = p.nodes.findIdx? n.same := by
  rw [find?, H, lookup_zipIdx]
  exact Option.map_id'.trans (List.findIdx?_toArray n.same p.nodes.toList).symm

theorem Indexed.push (H : p.Indexed) (hn : p.find? n = none) : (p.push n).Indexed := by
  have htable : (p.push n).table = p.table ++ [(n, p.size)] := assign_of_lookup_eq_none hn _
  rw [Indexed, htable, H, Pool.push, Array.toList_push, List.zipIdx_append]
  simp [size]

theorem find?_eq_none_iff (hp : p.Indexed) :
    p.find? n = none ↔ ∀ {h m}, p.Holds h m → n.same m = false := by
  rw [hp.find?_eq, Array.findIdx?_eq_none_iff]
  constructor
  · intro H h m hm
    obtain ⟨k, rfl⟩ := Int.eq_ofNat_of_zero_le hm.nonneg
    exact H m (Array.mem_of_getElem? (holds_ofNat.mp hm))
  · intro H m hm
    obtain ⟨k, hk⟩ := Array.mem_iff_getElem?.mp hm
    exact H (holds_ofNat.mpr hk)

/-- The first position that holds a node which is the same. -/
theorem find?_eq_some {k : Nat} (hp : p.Indexed) (H : p.find? n = some k) :
    (∃ m, p.Holds k m ∧ n.same m = true) ∧
      ∀ {j m}, p.Holds j m → j < k → n.same m = false := by
  rw [hp.find?_eq, Array.findIdx?_eq_some_iff_getElem] at H
  obtain ⟨hk, hsame, hfirst⟩ := H
  refine ⟨⟨p.nodes[k], holds_ofNat.mpr (Array.getElem?_eq_getElem hk), hsame⟩, ?_⟩
  intro j m hj hlt
  obtain ⟨j, rfl⟩ := Int.eq_ofNat_of_zero_le hj.nonneg
  obtain ⟨hj', rfl⟩ := Array.getElem?_eq_some_iff.mp (holds_ofNat.mp hj)
  exact Bool.not_eq_true _ ▸ hfirst j (Int.ofNat_lt.mp hlt)

theorem holds_of_find? {k : Nat} (hp : p.Indexed) (H : p.find? n = some k)
    (hn : ∀ v, n ≠ .const v) : p.Holds k n := by
  obtain ⟨⟨m, hm, hsame⟩, _⟩ := find?_eq_some hp H
  rcases Node.same_cases hsame with rfl | ⟨v, _, hv, _⟩
  · exact hm
  · exact absurd hv (hn v)

/-! ## Normal form -/

/-- A handle of a constant that is equal to a number. -/
def IsNumber (p : Pool α) (h : Handle) (v : α) : Prop := holds (p.constant? h) v = true

/-- No operand is neutral or absorbing for its operator. -/
def NormalOperands (p : Pool α) (op : BinaryOp) (a b : Handle) : Prop :=
  let zero : α := Scalar.nat 0
  let one : α := Scalar.nat 1
  match op with
  | .add | .sub => ¬p.IsNumber a zero ∧ ¬p.IsNumber b zero
  | .mul => (¬p.IsNumber a zero ∧ ¬p.IsNumber b zero) ∧ ¬p.IsNumber a one ∧ ¬p.IsNumber b one
  | .div => ¬p.IsNumber b one ∧ ¬p.IsNumber a zero
  | .pow => ¬p.IsNumber b one ∧ ¬p.IsNumber b zero

/-- There is nothing to compute or to simplify at a node. -/
def Normal (p : Pool α) : Node Handle α → Prop
  | .const _ | .var _ => True
  | .unary op a => p.isConstant a = false ∧ (op = .neg → ∀ b, ¬p.Holds a (.unary .neg b))
  | .binary op a b => ¬(p.isConstant a = true ∧ p.isConstant b = true) ∧ p.NormalOperands op a b

theorem Names.isNumber_iff {v : α} (H : p.Names h) (hle : p ≤ q) :
    q.IsNumber h v ↔ p.IsNumber h v := by
  rw [IsNumber, H.constant?_eq hle, IsNumber]

theorem Normal.mono (H : p.Normal n) (hargs : ∀ a ∈ n.args, p.Names a) (hle : p ≤ q) :
    q.Normal n := by
  cases n with
  | const | var => trivial
  | unary op a =>
    have ha := hargs a (by simp [Node.args])
    refine ⟨(ha.isConstant_eq hle).trans H.1, ?_⟩
    intro hop b hb
    obtain ⟨m, hm⟩ := ha
    cases (hm.mono hle).unique hb
    exact H.2 hop b hm
  | binary op a b =>
    have ha := hargs a (by simp [Node.args])
    have hb := hargs b (by simp [Node.args])
    obtain ⟨hc, ho⟩ := H
    refine ⟨by rwa [ha.isConstant_eq hle, hb.isConstant_eq hle], ?_⟩
    cases op <;> simpa only [NormalOperands, ha.isNumber_iff hle, hb.isNumber_iff hle] using ho

/-! ## Well-formed pools -/

/-- What holds of every pool: the table lists the nodes, operands come before their users, no node
is the same as an earlier one, every node is in normal form, and remembered derivatives lead from
nodes to nodes. -/
structure WF (p : Pool α) : Prop where
  indexed : p.Indexed
  args_lt : ∀ {h n}, p.Holds h n → ∀ a ∈ n.args, 0 ≤ a ∧ a < h
  new : ∀ {h k m n}, p.Holds h m → p.Holds k n → h < k → n.same m = false
  normal : ∀ {h n}, p.Holds h n → p.Normal n
  derivative : ∀ {h i d}, p.derivative? h i = some d → p.Names h ∧ p.Names d

/-- What a node has to be like to be appended. -/
structure Admits (p : Pool α) (n : Node Handle α) : Prop where
  args : ∀ a ∈ n.args, p.Names a
  new : p.find? n = none
  normal : p.Normal n

theorem WF.args (H : p.WF) (hn : p.Holds h n) : ∀ a ∈ n.args, p.Names a := by
  intro a ha
  obtain ⟨h0, hlt⟩ := H.args_lt hn a ha
  exact names_iff.mpr ⟨h0, Int.lt_trans hlt (names_iff.mp hn.names).2⟩

theorem WF.unary_arg (H : p.WF) (hn : p.Holds h (.unary op a)) : p.Names a :=
  H.args hn a (List.mem_singleton_self a)

theorem WF.binary_args (H : p.WF) (hn : p.Holds h (.binary op a b)) : p.Names a ∧ p.Names b :=
  ⟨H.args hn a List.mem_cons_self, H.args hn b (List.mem_cons_of_mem _ (List.mem_singleton_self b))⟩

/-- Nodes are built from nodes before them. -/
theorem WF.induction (H : p.WF) {P : Handle → Prop}
    (step : ∀ {h n}, p.Holds h n → (∀ a ∈ n.args, P a) → P h) (hh : p.Names h) : P h := by
  obtain ⟨k, rfl⟩ := Int.eq_ofNat_of_zero_le (names_iff.mp hh).1
  induction k using Nat.strongRecOn with
  | ind k ih =>
    obtain ⟨n, hn⟩ := hh
    refine step hn fun a ha => ?_
    obtain ⟨ha0, hlt⟩ := H.args_lt hn a ha
    obtain ⟨j, rfl⟩ := Int.eq_ofNat_of_zero_le ha0
    exact ih j (Int.ofNat_lt.mp hlt) (H.args hn _ ha)

theorem WF.empty : (.empty : Pool α).WF :=
  ⟨.empty, fun H => (not_holds_empty H).elim, fun H => (not_holds_empty H).elim,
    fun H => (not_holds_empty H).elim, fun H => nomatch derivative?_empty.symm.trans H⟩

theorem WF.push (H : p.WF) (hn : p.Admits n) : (p.push n).WF := by
  constructor
  · exact H.indexed.push hn.new
  · intro h m hh
    rcases holds_push.mp hh with hh | ⟨rfl, rfl⟩
    · exact H.args_lt hh
    · exact fun a ha => names_iff.mp (hn.args a ha)
  · intro h k m m' hh hk hlt
    rcases holds_push.mp hh with hh' | ⟨rfl, rfl⟩ <;>
      rcases holds_push.mp hk with hk' | ⟨rfl, rfl⟩
    · exact H.new hh' hk' hlt
    · exact (find?_eq_none_iff H.indexed).mp hn.new hh'
    · exact absurd hlt (Int.not_lt.mpr (Int.le_of_lt (names_iff.mp hk'.names).2))
    · exact absurd hlt (Int.lt_irrefl _)
  · intro h m hh
    rcases holds_push.mp hh with hh | ⟨rfl, rfl⟩
    · exact (H.normal hh).mono (H.args hh) le_push
    · exact hn.normal.mono hn.args le_push
  · intro h i d hd
    obtain ⟨hh, hd⟩ := H.derivative hd
    exact ⟨hh.mono le_push, hd.mono le_push⟩

/-! ## Growth -/

/-- The second pool is the first with some nodes appended. -/
inductive Grows (p : Pool α) : Pool α → Prop where
  | rfl : Grows p p
  | push {q : Pool α} {n : Node Handle α} : Grows p q → q.Admits n → Grows p (q.push n)

namespace Grows

theorem trans (H : p.Grows q) (H' : q.Grows r) : p.Grows r := by
  induction H' with
  | rfl => exact H
  | push _ hn ih => exact ih.push hn

theorem le (H : p.Grows q) : p ≤ q := by
  induction H with
  | rfl => exact le_rfl
  | push _ _ ih => exact ih.trans le_push

theorem wf (H : p.Grows q) (hp : p.WF) : q.WF := by
  induction H with
  | rfl => exact hp
  | push _ hn ih => exact ih.push hn

theorem derivatives_eq (H : p.Grows q) : q.derivatives = p.derivatives := by
  induction H with
  | rfl => exact Eq.refl _
  | push _ _ ih => exact ih

theorem derivative?_eq (H : p.Grows q) {i : Nat} : q.derivative? h i = p.derivative? h i := by
  rw [derivative?, H.derivatives_eq, derivative?]

end Grows

end Normal

end Pool

end Downhill
