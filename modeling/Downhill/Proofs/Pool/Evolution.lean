import Downhill.Graph.Derivative
import Downhill.Proofs.Pool.Simplification

/-!
# How pools evolve

Besides gaining nodes, a pool comes to remember derivatives. `Pool.Derives` lists what the
derivative of a node may be, given those of its operands, one case for each kind of node; a pool
evolves (`Pool.Evolves`) by appending nodes and by remembering such derivatives where none was
known. Whatever a pool is asked for, it evolves in this way, so well-formedness and the stability of
handles need to be shown for these two steps only (`Evolves.wf`, `Evolves.le`). What a derivative
inherits from those it is built from (`Inherited`) holds of all that are ever remembered.
-/

namespace Downhill

theorem Side.forall {P : Side → Prop} : (∀ s, P s) ↔ P .left ∧ P .right :=
  ⟨fun H => ⟨H _, H _⟩, fun H s => match s with | .left => H.1 | .right => H.2⟩

/-- The step is the only operator without a rule. -/
theorem UnaryOp.rule?_ne_none {op : UnaryOp} : op.rule? ≠ none ↔ op ≠ .unitStep := by
  cases op <;> simp [rule?]

/-! ## Building formulas -/

namespace Formula

variable {ι α : Type} [Scalar α] {arg tangent : ι → Handle} {p : Pool α}

/-- A literal on the left is made after the operand on the right. -/
theorem build_binary (arg tangent : ι → Handle) (op : BinaryOp) (a b : Formula ι) (p : Pool α) :
    (∃ n, a = .num n ∧ (binary op a b).build arg tangent p =
      let r := b.build arg tangent p
      let c := r.2.constant (Scalar.nat n)
      c.2.binary op c.1 r.1) ∨
    (binary op a b).build arg tangent p =
      let r := a.build arg tangent p
      let s := b.build arg tangent r.2
      s.2.binary op r.1 s.1 := by
  cases a with
  | num n => exact .inl ⟨n, rfl, rfl⟩
  | arg | tangent | unary | binary => exact .inr rfl

theorem build_yields (hp : p.WF) (f : Formula ι) (ha : ∀ i, p.Names (arg i))
    (ht : ∀ i, p.Names (tangent i)) : p.Yields (f.build arg tangent p) := by
  induction f generalizing p with
  | arg i => exact .self (ha i)
  | tangent i => exact .self (ht i)
  | num n => exact Pool.constant_yields hp.indexed _
  | unary op a ih =>
    have H := ih hp ha ht
    exact .after H.grows (Pool.unary_yields (H.grows.wf hp) op H.names)
  | binary op a b iha ihb =>
    rcases build_binary arg tangent op a b p with ⟨n, rfl, he⟩ | he
    · rw [he]
      have H := ihb hp ha ht
      have Hc := Pool.constant_yields (H.grows.wf hp).indexed (Scalar.nat n)
      have hq := H.grows.trans Hc.grows
      exact .after hq (Pool.binary_yields (hq.wf hp) op Hc.names (H.names.mono Hc.grows.le))
    · rw [he]
      have Ha := iha hp ha ht
      have Hb := ihb (Ha.grows.wf hp) (fun i => (ha i).mono Ha.grows.le)
        fun i => (ht i).mono Ha.grows.le
      have hq := Ha.grows.trans Hb.grows
      exact .after hq (Pool.binary_yields (hq.wf hp) op (Ha.names.mono Hb.grows.le) Hb.names)

end Formula

namespace Pool

section

variable {α : Type} {p q : Pool α} {h k d : Handle} {i j : Nat} {n : Node Handle α}

/-! ## Remembering -/

theorem derivative?_remember :
    (p.remember h i d).derivative? k j = if (h, i) = (k, j) then some d else p.derivative? k j := by
  simp only [derivative?, remember, Std.TreeMap.getElem?_insert, Std.LawfulEqCmp.compare_eq_iff_eq]

theorem le_remember (hnew : p.derivative? h i = none) : p ≤ p.remember h i d := by
  refine ⟨id, ?_⟩
  intro k j e he
  rw [derivative?_remember, if_neg, he]
  rintro ⟨⟩
  exact nomatch hnew.symm.trans he

/-- Some derivative by `x[i]` is remembered. -/
def Knows (p : Pool α) (h : Handle) (i : Nat) : Prop := ∃ d, p.derivative? h i = some d

theorem Knows.mono (H : p.Knows h i) (hle : p ≤ q) : q.Knows h i :=
  H.imp fun _ hd => hle.derivative hd

theorem not_knows_iff : ¬p.Knows h i ↔ p.derivative? h i = none := by
  simp [Knows, Option.eq_none_iff_forall_ne_some]

theorem knows_remember : (p.remember h i d).Knows k j ↔ p.Knows k j ∨ k = h ∧ j = i := by
  simp only [Knows, derivative?_remember]
  by_cases hk : (h, i) = (k, j)
  · cases hk
    simp
  · have hk' : ¬(k = h ∧ j = i) := fun e => hk (by rw [e.1, e.2])
    simp only [if_neg hk, hk', or_false]

end

variable {α : Type} [Scalar α]

/-! ## Derivatives of nodes -/

/-- What the derivative of a node by `x[i]` is, and the pool that holds it. -/
inductive Derives (p : Pool α) (i : Nat) : Node Handle α → Handle × Pool α → Prop where
  | const : Derives p i (.const v) (p.constant (Scalar.nat 0))
  | var : Derives p i (.var j) (p.constant (Scalar.nat (if j = i then 1 else 0)))
  | unary : p.derivative? a i = some da → op.rule? = some rule →
    Derives p i (.unary op a) (rule.build (fun _ => a) (fun _ => da) p)
  | binary : p.derivative? a i = some da → p.derivative? b i = some db →
    Derives p i (.binary op a b)
      ((op.rule (p.isConstant b)).build (Side.select a b) (Side.select da db) p)

/-- The second pool comes from the first by new nodes and derivatives. -/
inductive Evolves (p : Pool α) : Pool α → Prop where
  | rfl : Evolves p p
  | push {q : Pool α} : Evolves p q → q.Admits n → Evolves p (q.push n)
  | derive {q : Pool α} : Evolves p q → q.Holds h n → q.derivative? h i = none →
    q.Derives i n r → Evolves p (r.2.remember h i r.1)

variable {p q : Pool α} {h d : Handle} {i : Nat} {n : Node Handle α} {r : Handle × Pool α}

theorem Derives.yields (hp : p.WF) (hn : p.Holds h n) (H : p.Derives i n r) : p.Yields r := by
  cases H with
  | const | var => exact constant_yields hp.indexed _
  | unary hda =>
    exact Formula.build_yields hp _ (fun _ => hp.unary_arg hn) fun _ => (hp.derivative hda).2
  | binary hda hdb =>
    obtain ⟨ha, hb⟩ := hp.binary_args hn
    refine Formula.build_yields hp _ (Side.forall.mpr ⟨ha, hb⟩) (Side.forall.mpr ⟨?_, ?_⟩)
    · exact (hp.derivative hda).2
    · exact (hp.derivative hdb).2

theorem WF.remember (hp : p.WF) (hh : p.Names h) (hd : p.Names d) : (p.remember h i d).WF := by
  refine ⟨hp.indexed, hp.args_lt, hp.new, hp.normal, ?_⟩
  intro k j e he
  rw [derivative?_remember] at he
  split at he
  · cases he
    rename_i hkj
    cases hkj
    exact ⟨hh, hd⟩
  · exact hp.derivative he

/-! ## Evolution -/

namespace Evolves

theorem trans {r : Pool α} (H : p.Evolves q) (H' : q.Evolves r) : p.Evolves r := by
  induction H' with
  | rfl => exact H
  | push _ hn ih => exact ih.push hn
  | derive _ hn hnew hd ih => exact ih.derive hn hnew hd

theorem ofGrows (H : p.Grows q) : p.Evolves q := by
  induction H with
  | rfl => exact .rfl
  | push _ hn ih => exact ih.push hn

theorem wf (H : p.Evolves q) (hp : p.WF) : q.WF := by
  induction H with
  | rfl => exact hp
  | push _ hn ih => exact ih.push hn
  | derive _ hn _ hd ih =>
    have H := hd.yields ih hn
    exact (H.grows.wf ih).remember (hn.names.mono H.grows.le) H.names

theorem le (H : p.Evolves q) (hp : p.WF) : p ≤ q := by
  induction H with
  | rfl => exact le_rfl
  | push _ _ ih => exact ih.trans le_push
  | derive hq hn hnew hd ih =>
    have H := hd.yields (hq.wf hp) hn
    refine ih.trans (H.grows.le.trans (le_remember ?_))
    rw [H.grows.derivative?_eq, hnew]

end Evolves

/-! ## What derivatives inherit -/

/-- Something said of nodes and their derivatives that holds of a derivative if it holds of those
that it is built from. -/
structure Inherited (P : Pool α → Handle → Nat → Handle → Prop) : Prop where
  mono : ∀ {p q h i d}, P p h i d → p.WF → p ≤ q → p.Names h → P q h i d
  derives : ∀ {p h i n r}, p.WF → (∀ {k j d}, p.derivative? k j = some d → P p k j d) →
    p.Holds h n → p.Derives i n r → P r.2 h i r.1

theorem Inherited.evolves {P : Pool α → Handle → Nat → Handle → Prop} (K : Inherited P)
    (H : p.Evolves q) (hp : p.WF) (hP : ∀ {h i d}, p.derivative? h i = some d → P p h i d) :
    ∀ {h i d}, q.derivative? h i = some d → P q h i d := by
  induction H with
  | rfl => exact hP
  | push hq _ ih =>
    intro h i d hd
    exact K.mono (ih hd) (hq.wf hp) le_push ((hq.wf hp).derivative hd).1
  | derive hq hn hnew hd ih =>
    have hr := hd.yields (hq.wf hp) hn
    have hnew := hr.grows.derivative?_eq.trans hnew
    intro k j e he
    rw [derivative?_remember] at he
    split at he
    · rename_i hk
      cases hk
      cases he
      exact K.mono (K.derives (hq.wf hp) ih hn hd) (hr.grows.wf (hq.wf hp)) (le_remember hnew)
        (hn.names.mono hr.grows.le)
    · rw [hr.grows.derivative?_eq] at he
      exact K.mono (ih he) (hq.wf hp) (hr.grows.le.trans (le_remember hnew))
        ((hq.wf hp).derivative he).1

end Pool

end Downhill
