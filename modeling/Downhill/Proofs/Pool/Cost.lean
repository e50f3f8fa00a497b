import Mathlib.Data.Int.Interval
import Mathlib.Data.Set.Card
import Downhill.Proofs.Pool.History
import Downhill.Proofs.Term.Simplified
import Downhill.Scalar.Double

/-!
# What derivatives cost

A constructor appends one node at most, whichever branch it takes, so what a formula appends is
bounded by the number of its operators and literals (`Formula.cost`), and no rule has more than
eight of these. The nodes made on the way are not differentiated themselves: only the nodes below a
root are charged, each of them once, and not those whose derivatives are known. So a gradient is
linear in the number of nodes below its root (`derivatives_linear`), although the term that the root
stands for may be exponentially larger (`exists_squared`).
-/

namespace Downhill

namespace Pool

variable {α : Type} [Scalar α] {p : Pool α} {a b : Handle} {n : Node Handle α}
  {r : Handle × Pool α}

/-! ## Constructors -/

theorem size_intern_le (p : Pool α) (n : Node Handle α) : (p.intern n).2.size ≤ p.size + 1 := by
  unfold intern
  split
  · exact Nat.le_succ _
  · exact size_push.le

theorem UnarySteps.size_le (H : p.UnarySteps op a r) : r.2.size ≤ p.size + 1 := by
  cases H with
  | fold | keep => exact size_intern_le ..
  | cancel => exact Nat.le_succ _

theorem BinarySteps.size_le (hb : p.Names b) (H : p.BinarySteps op a b r) :
    r.2.size ≤ p.size + 1 := by
  cases H with
  | fold | zeroMul | mulZero | zeroDiv | powZero | keep => exact size_intern_le ..
  | zeroAdd | addZero | subZero | oneMul | mulOne | divOne | powOne => exact Nat.le_succ _
  | zeroSub => exact (unary_steps .neg hb).size_le

end Pool

/-! ## Rules -/

namespace Formula

/-- The number of constructors that are called to build a formula. -/
def cost : Formula ι → ℕ
  | arg _ | tangent _ => 0
  | num _ => 1
  | unary _ a => a.cost + 1
  | binary _ a b => a.cost + b.cost + 1

variable {α ι : Type} [Scalar α] {p : Pool α} {arg tangent : ι → Handle}

theorem size_build_le (hp : p.WF) (f : Formula ι) (ha : ∀ i, p.Names (arg i))
    (ht : ∀ i, p.Names (tangent i)) : (f.build arg tangent p).2.size ≤ p.size + f.cost := by
  induction f generalizing p with
  | arg | tangent => exact Nat.le_refl _
  | num n => exact p.size_intern_le _
  | unary op a ih =>
    have hle := ih hp ha ht
    have hstep := (Pool.unary_steps op (a.build_yields hp ha ht).names).size_le
    exact hstep.trans (Nat.succ_le_succ hle)
  | binary op a b iha ihb =>
    rcases build_binary arg tangent op a b p with ⟨n, rfl, he⟩ | he
    · rw [he]
      have hle := ihb hp ha ht
      have H := b.build_yields hp ha ht
      have hconst := (b.build arg tangent p).2.size_intern_le (.const (Scalar.nat n))
      have Hc := Pool.constant_yields (H.grows.wf hp).indexed (Scalar.nat n)
      have hb := H.names.mono Hc.grows.le
      have hstep := (Pool.binary_steps op Hc.names hb).size_le hb
      simp only [cost]
      dsimp only [Pool.constant] at hstep ⊢
      omega
    · rw [he]
      have hlea := iha hp ha ht
      have Ha := a.build_yields hp ha ht
      have hargs := fun i => (ha i).mono Ha.grows.le
      have htangents := fun i => (ht i).mono Ha.grows.le
      have hleb := ihb (Ha.grows.wf hp) hargs htangents
      have Hb := b.build_yields (Ha.grows.wf hp) hargs htangents
      have hstep := (Pool.binary_steps op (Ha.names.mono Hb.grows.le) Hb.names).size_le Hb.names
      simp only [cost]
      omega

end Formula

theorem UnaryOp.cost_rule_le {op : UnaryOp} {rule : Formula Unit} (H : op.rule? = some rule) :
    rule.cost ≤ 8 := by
  cases op <;> cases H <;> decide

theorem BinaryOp.cost_rule_le (op : BinaryOp) (c : Bool) : (op.rule c).cost ≤ 8 := by
  cases op <;> cases c <;> decide

/-- The derivative of one node. -/
theorem Pool.Derives.size_le {α : Type} [Scalar α] {p : Pool α} {h : Handle} {i : ℕ}
    {n : Node Handle α} {r : Handle × Pool α} (hp : p.WF) (hn : p.Holds h n)
    (H : p.Derives i n r) : r.2.size ≤ p.size + 8 := by
  cases H with
  | const | var => exact (p.size_intern_le _).trans (Nat.add_le_add_left (by decide) _)
  | unary hda hrule =>
    refine (Formula.size_build_le hp _ (fun _ => hp.unary_arg hn) fun _ => ?_).trans
      (Nat.add_le_add_left (UnaryOp.cost_rule_le hrule) _)
    exact (hp.derivative hda).2
  | binary hda hdb =>
    refine (Formula.size_build_le hp _ (Side.forall.mpr (hp.binary_args hn))
      (Side.forall.mpr ⟨?_, ?_⟩)).trans (Nat.add_le_add_left (BinaryOp.cost_rule_le ..) _)
    · exact (hp.derivative hda).2
    · exact (hp.derivative hdb).2

/-! ## Nodes below a root -/

namespace Pool

variable {α : Type} {p q : Pool α} {h : Handle} {i : ℕ}

/-- The nodes below a root. -/
def below (p : Pool α) (h : Handle) : Set Handle := {k | p.Reaches h k}

/-- The nodes below a root whose derivatives by `x[i]` are not known. -/
def due (p : Pool α) (h : Handle) (i : ℕ) : Set Handle := {k | p.Reaches h k ∧ ¬p.Knows k i}

/-- Whether a derivative has yet to be taken. -/
def isDue (p : Pool α) (i : ℕ) (k : Handle) : Bool := (p.derivative? k i).isNone

theorem isDue_iff {k : Handle} : p.isDue i k = true ↔ ¬p.Knows k i :=
  Option.isNone_iff_eq_none.trans not_knows_iff.symm

theorem isDue_anti (hle : p ≤ q) {k : Handle} (H : q.isDue i k = true) : p.isDue i k = true :=
  isDue_iff.mpr fun hk => isDue_iff.mp H (hk.mono hle)

variable [Scalar α]

theorem coe_reachable (hp : p.WF) (hh : p.Names h) :
    ((p.reachable [h]).toFinset : Set Handle) = p.below h := by
  ext k
  rw [List.coe_toFinset, Set.mem_ofPred_eq, mem_reachable_singleton hp hh]
  rfl

theorem finite_below (hp : p.WF) (hh : p.Names h) : (p.below h).Finite :=
  coe_reachable hp hh ▸ Finset.finite_toSet _

theorem ncard_due (hp : p.WF) (hh : p.Names h) :
    (p.due h i).ncard = (p.reachable [h]).countP (p.isDue i) := by
  have hnodup : ((p.reachable [h]).filter (p.isDue i)).Nodup :=
    ((pairwise_reachable p [h]).imp fun hlt => Int.ne_of_lt hlt).filter _
  have hset : p.due h i = ((p.reachable [h]).filter (p.isDue i)).toFinset := by
    ext k
    rw [List.coe_toFinset, Set.mem_ofPred_eq, List.mem_filter, mem_reachable_singleton hp hh,
      isDue_iff]
    rfl
  rw [hset, Set.ncard_coe_finset, List.toFinset_card_of_nodup hnodup, List.countP_eq_length_filter]

theorem ncard_due_le (hp : p.WF) (hh : p.Names h) : (p.due h i).ncard ≤ (p.below h).ncard :=
  Set.ncard_le_ncard (fun _ hk => hk.1) (finite_below hp hh)

theorem ncard_below_le (hp : p.WF) (hh : p.Names h) : (p.below h).ncard ≤ p.size := by
  have hle : p.below h ⊆ Finset.Ico (0 : ℤ) p.size := by
    intro k hk
    rw [Finset.coe_Ico]
    exact names_iff.mp (hk.names hp hh)
  have hcard := Set.ncard_le_ncard hle (Finset.finite_toSet _)
  rwa [Set.ncard_coe_finset, Int.card_Ico, Int.sub_zero, Int.toNat_natCast] at hcard

theorem Names.below_eq (hh : p.Names h) (hp : p.WF) (hle : p ≤ q) : q.below h = p.below h :=
  Set.ext fun _ => ⟨fun hk => hk.old hp hle hh, fun hk => hk.mono hle⟩

end Pool

/-! ## Derivatives -/

namespace Build

variable {α β γ : Type} {p : Pool α} {h : Handle} {i : ℕ}

/-- A failure leaves out what would have come after it. -/
theorem size_bind_le {b : Build α β} {f : β → Build α γ} {l m n : ℕ}
    (hb : (b.run p).2.size ≤ l + m)
    (hf : ∀ {v q}, b.run p = (.ok v, q) → ((f v).run q).2.size ≤ q.size + n) :
    ((b >>= f).run p).2.size ≤ l + (m + n) := by
  rcases hr : b.run p with ⟨e | v, q⟩
  · rw [hr] at hb
    rw [run_bind_error hr]
    exact hb.trans (Nat.add_le_add_left (Nat.le_add_right ..) _)
  · rw [hr] at hb
    rw [run_bind_ok hr, ← Nat.add_assoc]
    exact (hf hr).trans (Nat.add_le_add_right hb _)

theorem run_known_snd : ((known h i).run p).2 = p := by
  cases hd : p.derivative? h i with
  | some d => rw [run_known hd]
  | none => rw [run_known_error hd]

theorem run_compile_snd (roots : List Handle) (dim : ℕ) : ((compile roots dim).run p).2 = p := by
  rw [run_compile]

variable [Scalar α]

/-- A node is charged if it is due. -/
theorem size_extend_le (hp : p.WF) (hh : p.Names h) :
    ((extend i h).run p).2.size ≤ p.size + if p.isDue i h then 8 else 0 := by
  obtain ⟨n, hn⟩ := hh
  cases hd : p.derivative? h i with
  | some d =>
    rw [run_extend_known hd]
    exact Nat.le_add_right ..
  | none =>
    rw [run_extend hd, Pool.isDue, hd, Option.isNone_none, if_pos rfl]
    rcases run_derive (i := i) hn with ⟨r, hr, he⟩ | ⟨e, _, he⟩
    · rw [run_bind_ok he]
      exact hr.size_le hp hn
    · rw [run_bind_error he]
      exact Nat.le_add_right ..

/-- However the loop over some nodes ends, it has charged those that are due, each of them once. -/
theorem size_forM_extend_le (hp : p.WF) (hs : List Handle) (hh : ∀ h ∈ hs, p.Names h) :
    ((hs.forM (extend i)).run p).2.size ≤ p.size + 8 * hs.countP (p.isDue i) := by
  induction hs generalizing p with
  | nil => exact Nat.le_refl _
  | cons h hs ih =>
    have hfirst := hh h List.mem_cons_self
    have hcount : 8 * (h :: hs).countP (p.isDue i) =
        (if p.isDue i h then 8 else 0) + 8 * hs.countP (p.isDue i) := by
      rw [List.countP_cons]
      split <;> omega
    rw [hcount]
    refine size_bind_le (size_extend_le hp hfirst) fun {_ q} hr => ?_
    have he : p.Evolves q :=
      ((extend_ensures (i := i) hp (Pool.names_iff.mp hfirst).1).run_ok hr).1
    have hle := he.le hp
    refine (ih (he.wf hp) fun k hk => (hh k (List.mem_cons_of_mem h hk)).mono hle).trans ?_
    exact Nat.add_le_add_left (Nat.mul_le_mul_left 8
      (List.countP_mono_left fun _ _ => Pool.isDue_anti hle)) _

theorem size_differentiate_le (hp : p.WF) (hh : p.Names h) :
    ((differentiate h i).run p).2.size ≤ p.size + 8 * (p.due h i).ncard := by
  cases hd : p.derivative? h i with
  | some d =>
    rw [run_differentiate_known hd]
    exact Nat.le_add_right ..
  | none =>
    rw [run_differentiate_new hd, Pool.ncard_due hp hh]
    refine size_bind_le (n := 0) (size_forM_extend_le hp _ (agenda_reachable (i := i) hp hh).names)
      fun _ => ?_
    rw [run_known_snd]
    exact Nat.le_refl _

/-- Derivatives by several variables are paid for separately. -/
theorem size_mapM_differentiate_le (hp : p.WF) (hh : p.Names h) (is : List ℕ) :
    ((is.mapM (differentiate h)).run p).2.size ≤ p.size + 8 * is.length * (p.below h).ncard := by
  induction is generalizing p with
  | nil => exact Nat.le_add_right ..
  | cons i is ih =>
    have hlength : 8 * (i :: is).length * (p.below h).ncard =
        8 * (p.below h).ncard + 8 * is.length * (p.below h).ncard := by
      rw [List.length_cons, Nat.mul_succ, Nat.add_mul, Nat.add_comm]
    have hfirst := (size_differentiate_le (i := i) hp hh).trans
      (Nat.add_le_add_left (Nat.mul_le_mul_left 8 (Pool.ncard_due_le hp hh)) _)
    rw [List.mapM_cons, hlength]
    refine size_bind_le hfirst fun {_ q} hr => ?_
    have he : p.Evolves q := ((differentiate_ensures hp (Pool.names_iff.mp hh).1 i).run_ok hr).1
    have hle := he.le hp
    have hrest := ih (he.wf hp) (hh.mono hle)
    rw [hh.below_eq hp hle] at hrest
    exact size_bind_le (n := 0) hrest fun _ => Nat.le_refl _

theorem size_gradient_le (hp : p.WF) (hh : p.Names h) (dim : ℕ) :
    ((gradient h dim).run p).2.size ≤ p.size + 8 * dim * (p.below h).ncard := by
  have H := size_mapM_differentiate_le hp hh (List.range dim)
  rwa [List.length_range] at H

/-- Once the partial derivatives are there nothing is appended. -/
theorem size_compiledGradient_le (hp : p.WF) (hh : p.Names h) (dim : ℕ) :
    ((compiledGradient dim (.expression h)).run p).2.size ≤
      p.size + 8 * dim * (p.below h).ncard := by
  have hroot : (expression (.expression h) : Build α Handle).run p = (.ok h, p) := rfl
  rw [compiledGradient, run_bind_ok hroot]
  refine size_bind_le (n := 0) (size_gradient_le hp hh dim) fun {ds q} _ => ?_
  refine size_bind_le (n := 0) ?_ fun _ => Nat.le_refl _
  rw [run_compile_snd]
  exact Nat.le_refl _

end Build

/-! ## Repeated squaring -/

namespace Term

variable {α : Type}

/-- The number of operators, variables and numbers in a term. -/
def size : Term α → ℕ
  | num _ | var _ => 1
  | unary _ a => a.size + 1
  | binary _ a b => a.size + b.size + 1

/-- A coordinate multiplied by itself, and the product again, `n` times. -/
def squared : ℕ → Term α
  | 0 => .var 0
  | n + 1 => .binary .mul (squared n) (squared n)

theorem size_squared (n : ℕ) : (squared n : Term α).size + 1 = 2 ^ (n + 1) := by
  induction n with
  | zero => rfl
  | succ n ih =>
    rw [squared, size, Nat.pow_succ, ← ih]
    omega

end Term

namespace Pool

variable {α : Type} [Scalar α] {p : Pool α}

/-- The last node of a pool times itself, if it is no constant, is a new node. -/
theorem WF.square_last (hp : p.WF) {n : ℕ} (hsize : p.size = n + 1) (hn : p.constant? n = none) :
    p.binary .mul n n = (((n + 1 : ℕ) : Handle), p.push (.binary .mul n n)) := by
  have hnames : p.Names n :=
    names_iff.mpr ⟨Int.natCast_nonneg n, hsize ▸ Int.ofNat_lt.mpr n.lt_succ_self⟩
  have hnumber (v : α) : ¬p.IsNumber n v := by
    rw [IsNumber, hn]
    exact Bool.false_ne_true
  have hs := binary_steps .mul hnames hnames
  generalize p.binary .mul n n = r at hs ⊢
  cases hs with
  | fold hu => cases hn.symm.trans hu.constant?
  | zeroMul h | mulZero h | oneMul h | mulOne h => exact absurd h (hnumber _)
  | keep =>
    have hnew : p.find? (.binary .mul n n) = none := by
      -- its operand would come before it, but there is no node after the last one
      refine Option.eq_none_iff_forall_ne_some.mpr fun k hk => ?_
      have hk := holds_of_find? hp.indexed hk (by simp)
      have hlt := Int.ofNat_lt.mp (hp.args_lt hk n List.mem_cons_self).2
      have hle := Int.ofNat_lt.mp (names_iff.mp hk.names).2
      omega
    rw [intern, hnew, hsize]

/-- As many products as there are squarings make a term that doubles with each of them. -/
theorem exists_squared (n : ℕ) :
    ∃ p : Pool α, p.Reached ∧ p.size = n + 1 ∧ p.Unfolds n (.squared n) := by
  induction n with
  | zero =>
    have hfind : (.empty : Pool α).find? (.var 0) = none := rfl
    have hcall : (Call.var 0).after (.empty : Pool α) = Pool.empty.push (.var 0) := by
      change (Pool.empty.intern (.var 0)).2 = _
      rw [intern, hfind]
    refine ⟨_, Reached.empty.call (.var 0) trivial, ?_, .var ?_ rfl⟩
    · rw [hcall]
      rfl
    · rw [hcall]
      exact holds_push_self
  | succ n ih =>
    obtain ⟨p, hp, hsize, ht⟩ := ih
    have hn : p.constant? n = none := by
      rw [← ht.number?]
      cases n <;> rfl
    have hcall : (Call.combine .mul (.expression n) (.expression n)).after p =
        p.push (.binary .mul n n) := by
      have hrun := Build.run_binary .mul ht.names ht.names
      rw [hp.wf.square_last hsize hn] at hrun
      exact congrArg Prod.snd (Build.run_bind_ok (f := fun h => pure (Operand.expression h)) hrun)
    refine ⟨_, hp.call (.combine .mul (.expression n) (.expression n))
      ⟨Int.natCast_nonneg n, Int.natCast_nonneg n⟩, ?_, ?_⟩
    · rw [hcall, size_push, hsize]
    · rw [hcall]
      have hnew : (p.push (.binary .mul n n)).Holds ((n + 1 : ℕ) : Handle) (.binary .mul n n) :=
        hsize ▸ holds_push_self
      exact .binary hnew (ht.mono le_push) (ht.mono le_push) rfl

end Pool

/-- Whether it succeeds or fails, a derivative appends eight nodes at most for each node below its
root whose derivative is not known, and none if its own is. So a gradient is linear in the number of
nodes below its root. -/
theorem derivatives_linear {α : Type} [Scalar α] {p : Pool α} {e : Handle} (H : p.Reached)
    (he : p.Names e) :
    (∀ i : ℤ, ((Build.differentiateBy e i).run p).2.size ≤
      p.size + 8 * (p.due e i.toNat).ncard) ∧
    (∀ i : ℕ, p.Knows e i → ((Build.differentiateBy e i).run p).2 = p) ∧
    (p.below e).Finite ∧
    ∀ dim : ℕ, ((Build.compiledGradient dim (.expression e)).run p).2.size ≤
      p.size + 8 * dim * (p.below e).ncard := by
  refine ⟨fun i => ?_, fun i hi => ?_, Pool.finite_below H.wf he,
    Build.size_compiledGradient_le H.wf he⟩
  · rw [Build.differentiateBy]
    split
    · exact Nat.le_add_right ..
    · exact Build.size_differentiate_le H.wf he
  · obtain ⟨d, hd⟩ := hi
    rw [Build.differentiateBy, if_neg (Int.not_lt.mpr (Int.natCast_nonneg i)), Int.toNat_natCast,
      Build.run_differentiate_known hd]

/-- The derivative of a term with more than `2 ^ 64` operators. -/
theorem derivatives_linear_squared :
    ∃ (p : Pool Float) (t : Term Float), p.Reached ∧ p.Unfolds 64 t ∧ t.size + 1 = 2 ^ 65 ∧
      ((Build.compiledGradient 1 (.expression 64)).run p).2.size ≤ p.size + 8 * 65 := by
  obtain ⟨p, hp, hsize, ht⟩ := Pool.exists_squared (α := Float) 64
  obtain ⟨_, _, _, hgradient⟩ := derivatives_linear hp ht.names
  refine ⟨p, _, hp, ht, Term.size_squared 64, (hgradient 1).trans ?_⟩
  have hbelow := Pool.ncard_below_le hp.wf ht.names
  omega

end Downhill
