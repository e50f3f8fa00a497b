import Downhill.Proofs.Meaning.Interpretation
import Downhill.Proofs.Pool.Canonicity

/-!
# Sharing

In a reached pool of doubles, two handles are equal when they stand for the same tree
(`Unfolds.eq_of_same`): this is lifted from nodes, of which no two are the same, by induction on one
of the trees. What was built before is built again at no cost. A constructor decides by what its
operands hold, which no later call changes, so it does the same in every later pool
(`unary_inStep`, `binary_inStep`), and a node that was interned once is found from then on
(`WF.intern_again`). NaN is the exception to both: the table does not lead to it, and so what is
made of a NaN that has no node yet is made anew each time (`Pool.sum_with_nan`).
-/

namespace Downhill

/-! ## The same tree -/

/-- The same tree, with constants compared as numbers. -/
def Term.same [Scalar α] : Term α → Term α → Bool
  | num v, num w => Scalar.eq v w
  | var i, var j => i == j
  | unary op s, unary op' s' => op == op' && s.same s'
  | binary op s t, binary op' s' t' => op == op' && (s.same s' && t.same t')
  | _, _ => false

theorem Node.same_trans {l m n : Node Handle Float} (H : l.same m = true)
    (H' : m.same n = true) : l.same n = true := by
  rcases Node.same_cases H with rfl | ⟨u, v, rfl, rfl, huv⟩
  · exact H'
  rcases Node.same_cases H' with rfl | ⟨_, w, hv, rfl, hvw⟩
  · exact huv
  · cases hv
    exact Double.eq_trans huv hvw

namespace Pool

variable {p q r : Pool Float} {h k a b : Handle} {n : Node Handle Float} {s t : Term Float}

/-- A handle of a constant that is NaN. -/
def IsNaN (p : Pool Float) (h : Handle) : Prop := ∃ v, p.Holds h (.const v) ∧ v.isNaN = true

/-- There is no NaN below a node. -/
def NaNFree (p : Pool Float) (h : Handle) : Prop := ∀ k, p.Reaches h k → ¬p.IsNaN k

theorem NaNFree.arg (H : p.NaNFree h) (hn : p.Holds h n) (ha : a ∈ n.args) : p.NaNFree a :=
  fun k hk => H k (.step hn ha hk)

theorem WF.eq_of_same (hp : p.WF) {m : Node Handle Float} (hm : p.Holds h m) (hn : p.Holds k n)
    (hsame : m.same n = true) : h = k := by
  rcases Int.lt_trichotomy h k with hlt | rfl | hlt
  · rw [Node.same_symm Double.eq_symm] at hsame
    exact nomatch hsame.symm.trans (hp.new hm hn hlt)
  · rfl
  · exact nomatch hsame.symm.trans (hp.new hn hm hlt)

/-- Nodes that stand for the same tree are one node. -/
theorem Unfolds.eq_of_same (hp : p.WF) (hs : p.Unfolds h s) (ht : p.Unfolds k t)
    (hsame : s.same t = true) : h = k := by
  induction hs generalizing k t with
  | const hn hs =>
    cases hs
    cases ht with
    | const hm ht =>
      cases ht
      exact hp.eq_of_same hn hm hsame
    | var _ ht | unary _ _ ht | binary _ _ _ ht =>
      cases ht
      cases hsame
  | var hn hs =>
    cases hs
    cases ht with
    | var hm ht =>
      cases ht
      exact hp.eq_of_same hn hm hsame
    | const _ ht | unary _ _ ht | binary _ _ _ ht =>
      cases ht
      cases hsame
  | unary hn _ hs ih =>
    cases hs
    cases ht with
    | unary hm hb ht =>
      cases ht
      obtain ⟨hop, harg⟩ := Bool.and_eq_true_iff.mp hsame
      cases eq_of_beq hop
      cases ih hb harg
      exact hp.eq_of_same hn hm (Node.same_unary _ _)
    | const _ ht | var _ ht | binary _ _ _ ht =>
      cases ht
      cases hsame
  | binary hn _ _ hs ihl ihr =>
    cases hs
    cases ht with
    | binary hm hb hb' ht =>
      cases ht
      obtain ⟨hop, hargs⟩ := Bool.and_eq_true_iff.mp hsame
      obtain ⟨hleft, hright⟩ := Bool.and_eq_true_iff.mp hargs
      cases eq_of_beq hop
      cases ihl hb hleft
      cases ihr hb' hright
      exact hp.eq_of_same hn hm (Node.same_binary _ _ _)
    | const _ ht | var _ ht | unary _ _ ht =>
      cases ht
      cases hsame

/-- A tree without NaN is the same as itself. -/
theorem Unfolds.same_self (hs : p.Unfolds h s) (hnan : p.NaNFree h) : s.same s = true := by
  induction hs with
  | const hn hs =>
    cases hs
    refine Double.eq_self (Bool.eq_false_iff.mpr fun hv => ?_)
    exact hnan _ .rfl ⟨_, hn, hv⟩
  | var _ hs =>
    cases hs
    exact beq_self_eq_true _
  | unary hn _ hs ih =>
    cases hs
    exact Bool.and_eq_true_iff.mpr ⟨beq_self_eq_true _, ih (hnan.arg hn List.mem_cons_self)⟩
  | binary hn _ _ hs ihl ihr =>
    cases hs
    refine Bool.and_eq_true_iff.mpr ⟨beq_self_eq_true _, Bool.and_eq_true_iff.mpr ⟨?_, ?_⟩⟩
    · exact ihl (hnan.arg hn List.mem_cons_self)
    · exact ihr (hnan.arg hn (List.mem_cons_of_mem _ List.mem_cons_self))

/-! ## Nodes interned again -/

/-- A node is found where one that is the same is stored. -/
theorem WF.intern_same (hp : p.WF) {m : Node Handle Float} (hm : p.Holds h m)
    (hsame : n.same m = true) : p.intern n = (h, p) := by
  obtain ⟨k, rfl⟩ := Int.eq_ofNat_of_zero_le hm.nonneg
  rcases intern_cases hp.indexed n with ⟨j, m', hm', hsame', he⟩ | ⟨hnone, _⟩
  · rw [Node.same_symm Double.eq_symm] at hsame
    rw [he, hp.eq_of_same hm hm' (Node.same_trans hsame hsame')]
  · exact nomatch hsame.symm.trans ((find?_eq_none_iff hp.indexed).mp hnone hm)

/-- What was interned once is found in every later pool. -/
theorem WF.intern_again (hr : r.WF) (hp : p.Indexed) (hself : n.same n = true)
    (hle : (p.intern n).2 ≤ r) : r.intern n = ((p.intern n).1, r) := by
  obtain ⟨m, hm, rfl | ⟨v, w, rfl, rfl, hvw⟩⟩ := holds_intern hp n
  · exact hr.intern_same (hm.mono hle) hself
  · exact hr.intern_same (hm.mono hle) hvw

/-- A node is the same as itself unless NaN comes of interning it. -/
theorem same_self_of_intern (hp : p.Indexed) (hnan : ¬(p.intern n).2.IsNaN (p.intern n).1) :
    n.same n = true := by
  obtain ⟨m, hm, rfl | ⟨v, w, rfl, rfl, hvw⟩⟩ := holds_intern hp n
  · cases m with
    | const v => exact Double.eq_self (Bool.eq_false_iff.mpr fun hv => hnan ⟨v, hm, hv⟩)
    | var i => exact beq_self_eq_true i
    | unary op a => exact Node.same_unary op a
    | binary op a b => exact Node.same_binary op a b
  · exact Double.eq_trans hvw (Double.eq_symm v w ▸ hvw)

/-! ## Constructors in later pools -/

/-- What comes of doing the same in two pools: a handle that both have, or a node interned. -/
inductive InStep (p q : Pool Float) : Handle × Pool Float → Handle × Pool Float → Prop where
  | found {h : Handle} : InStep p q (h, p) (h, q)
  | interned {n : Node Handle Float} : InStep p q (p.intern n) (q.intern n)

theorem unary_inStep (op : UnaryOp) (ha : p.Names a) (hle : p ≤ q) :
    InStep p q (p.unary op a) (q.unary op a) := by
  unfold unary
  rw [ha.node?_eq hle]
  split
  · exact .interned
  · exact .found
  · exact .interned

theorem binary_inStep (op : BinaryOp) (ha : p.Names a) (hb : p.Names b) (hle : p ≤ q) :
    InStep p q (p.binary op a b) (q.binary op a b) := by
  -- all tests are on the constants that the operands hold, so both pools take the same branch
  unfold binary
  rw [ha.constant?_eq hle, hb.constant?_eq hle]
  split
  · exact .interned
  cases op with
  | add =>
    dsimp only
    split
    · exact .found
    split
    · exact .found
    · exact .interned
  | sub =>
    dsimp only
    split
    · exact .found
    split
    · exact unary_inStep .neg hb hle
    · exact .interned
  | mul =>
    dsimp only
    split
    · exact .interned
    split
    · exact .found
    split
    · exact .found
    · exact .interned
  | div | pow =>
    dsimp only
    split
    · exact .found
    split
    · exact .interned
    · exact .interned

theorem InStep.again {u v : Handle × Pool Float} (H : InStep p q u v) (hp : p.Indexed) (hq : q.WF)
    (hle : u.2 ≤ q) (hnan : ¬u.2.IsNaN u.1) : v = (u.1, q) := by
  cases H with
  | found => rfl
  | interned => exact hq.intern_again hp (same_self_of_intern hp hnan) hle

end Pool

/-! ## Builders in later pools -/

/-- Not the number NaN, which the table does not lead to. -/
def Operand.NotNaN : Operand Float → Prop
  | .number v => v.isNaN = false
  | .expression _ | .foreign | .tooLarge | .other _ => True

namespace Build

variable {β γ : Type} {p q r : Pool Float} {b : Build Float β} {f : β → Build Float γ} {v : β}
  {w : γ} {a a' h : Handle}

/-- The builder gave a result once, and gives it in all later pools, to which it adds nothing. -/
structure Repeats (b : Build Float β) (v : β) (p q : Pool Float) : Prop where
  le : p ≤ q
  wf : q.WF
  again : ∀ {r}, r.WF → q ≤ r → b.run r = (.ok v, r)

theorem Repeats.pure (hp : p.WF) (v : β) : Repeats (Pure.pure v) v p p :=
  ⟨le_rfl, hp, fun _ _ => rfl⟩

theorem Repeats.bind (H : Repeats b v p q) (H' : Repeats (f v) w q r) :
    Repeats (b >>= f) w p r where
  le := H.le.trans H'.le
  wf := H'.wf
  again hs hle := (run_bind_ok (H.again hs (H'.le.trans hle))).trans (H'.again hs hle)

theorem repeats_constant (hp : p.WF) {v : Float} (hself : Scalar.eq v v = true) :
    Repeats (constant v) (p.constant v).1 p (p.constant v).2 := by
  have H := (Pool.constant_yields hp.indexed v).grows
  refine ⟨H.le, H.wf hp, fun {r} hr hle => ?_⟩
  have hagain : r.constant v = ((p.constant v).1, r) :=
    hr.intern_again hp.indexed (n := .const v) hself hle
  change (Except.ok (r.constant v).1, (r.constant v).2) = _
  rw [hagain]

/-- A handle that passes the check names a node. -/
theorem names_of_checked {f : Unit → Build Float β} (h0 : 0 ≤ a)
    (hr : (discard (node a) >>= f).run p = (.ok v, q)) : p.Names a := by
  by_contra ha
  exact nomatch (run_bind_error (run_bind_error (run_node_error h0 ha))).symm.trans hr

theorem repeats_unary (hp : p.WF) {op : UnaryOp} (h0 : 0 ≤ a)
    (hr : (unary op a).run p = (.ok h, q)) (hnan : ¬q.IsNaN h) : Repeats (unary op a) h p q := by
  have ha := names_of_checked h0 hr
  have H := (Pool.unary_yields hp op ha).grows
  rw [run_unary op ha] at hr
  cases hr
  refine ⟨H.le, H.wf hp, fun {r} hs hle => ?_⟩
  have hpr := H.le.trans hle
  rw [run_unary op (ha.mono hpr), (Pool.unary_inStep op ha hpr).again hp.indexed hs hle hnan]

theorem repeats_binary (hp : p.WF) {op : BinaryOp} (h0 : 0 ≤ a) (h0' : 0 ≤ a')
    (hr : (binary op a a').run p = (.ok h, q)) (hnan : ¬q.IsNaN h) :
    Repeats (binary op a a') h p q := by
  have ha := names_of_checked h0 hr
  have ha' := names_of_checked h0' ((run_checked ha).symm.trans hr)
  have H := (Pool.binary_yields hp op ha ha').grows
  rw [run_binary op ha ha'] at hr
  cases hr
  refine ⟨H.le, H.wf hp, fun {r} hs hle => ?_⟩
  have hpr := H.le.trans hle
  rw [run_binary op (ha.mono hpr) (ha'.mono hpr),
    (Pool.binary_inStep op ha ha' hpr).again hp.indexed hs hle hnan]

theorem repeats_unaryNamed (hp : p.WF) {name : String} (h0 : 0 ≤ a)
    (hr : (unaryNamed name a).run p = (.ok h, q)) (hnan : ¬q.IsNaN h) :
    Repeats (unaryNamed name a) h p q := by
  unfold unaryNamed at hr ⊢
  cases ho : Operator.ofName? name with
  | none => rw [ho] at hr; cases hr
  | some o =>
    rw [ho] at hr
    cases o with
    | unary op => exact repeats_unary hp h0 hr hnan
    | binary op => cases hr

theorem repeats_binaryNamed (hp : p.WF) {name : String} (h0 : 0 ≤ a) (h0' : 0 ≤ a')
    (hr : (binaryNamed name a a').run p = (.ok h, q)) (hnan : ¬q.IsNaN h) :
    Repeats (binaryNamed name a a') h p q := by
  unfold binaryNamed at hr ⊢
  cases ho : Operator.ofName? name with
  | none => rw [ho] at hr; cases hr
  | some o =>
    rw [ho] at hr
    cases o with
    | unary op => cases hr
    | binary op => exact repeats_binary hp h0 h0' hr hnan

/-! ## Operands -/

variable {x y z : Operand Float}

theorem repeats_lift (hp : p.WF) (hx : x.NotNaN) (hr : (lift x).run p = (.ok h, q)) :
    Repeats (lift x) h p q := by
  cases x with
  | expression k =>
    cases hr
    exact .pure hp h
  | number v =>
    cases hr
    exact repeats_constant hp (Double.eq_self hx)
  | foreign | tooLarge | other => cases hr

theorem repeats_combine (hp : p.WF) {op : BinaryOp} (hx : x.All (0 ≤ ·)) (hy : y.All (0 ≤ ·))
    (hxn : x.NotNaN) (hyn : y.NotNaN) (hr : (combine op x y).run p = (.ok h, q))
    (hnan : ¬q.IsNaN h) : Repeats (combine op x y) h p q := by
  obtain ⟨a, s, hra, hr⟩ := run_bind_eq_ok hr
  obtain ⟨a', t, hra', hr⟩ := run_bind_eq_ok hr
  have Ha := repeats_lift hp hxn hra
  have Ha' := repeats_lift Ha.wf hyn hra'
  have ha := ((lift_ensures hp hx).run_ok hra).2
  have ha' := ((lift_ensures Ha.wf hy).run_ok hra').2
  exact Ha.bind (Ha'.bind (repeats_binary Ha'.wf ha ha' hr hnan))

theorem repeats_apply (hp : p.WF) {op : UnaryOp} (hx : x.All (0 ≤ ·)) (hxn : x.NotNaN)
    (hr : (x.apply op).run p = (.ok z, q)) (hnan : z.All (¬q.IsNaN ·)) :
    Repeats (x.apply op) z p q := by
  cases x with
  | number v =>
    cases hr
    exact .pure hp _
  | expression | foreign | tooLarge | other =>
    obtain ⟨a, s, hra, hr⟩ := run_bind_eq_ok hr
    obtain ⟨h, t, hrh, hr⟩ := run_bind_eq_ok hr
    cases hr
    have Ha := repeats_lift hp hxn hra
    have Hh := repeats_unary Ha.wf ((lift_ensures hp hx).run_ok hra).2 hrh hnan
    exact Ha.bind (Hh.bind (.pure Hh.wf _))

theorem repeats_operand_combine (hp : p.WF) {op : BinaryOp} (hx : x.All (0 ≤ ·))
    (hy : y.All (0 ≤ ·)) (hxn : x.NotNaN) (hyn : y.NotNaN)
    (hr : (x.combine op y).run p = (.ok z, q)) (hnan : z.All (¬q.IsNaN ·)) :
    Repeats (x.combine op y) z p q := by
  have hexpression (hr : (combine op x y >>= fun h => Pure.pure (.expression h) :
      Build Float (Operand Float)).run p = (.ok z, q)) :
      Repeats (combine op x y >>= fun h => Pure.pure (.expression h)) z p q := by
    obtain ⟨h, s, hrh, hr⟩ := run_bind_eq_ok hr
    cases hr
    have H := repeats_combine hp hx hy hxn hyn hrh hnan
    exact H.bind (.pure H.wf _)
  cases x with
  | number u =>
    cases y with
    | number v =>
      cases hr
      exact .pure hp _
    | expression | foreign | tooLarge | other => exact hexpression hr
  | expression | foreign | tooLarge | other => exact hexpression hr

end Build

/-! ## Shared pools -/

namespace Pool

/-- Where the builder succeeds with a result that `Q` admits, it gives that result again after any
further calls, and adds nothing. -/
def Again (p : Pool Float) (b : Build Float β) (Q : Pool Float → β → Prop) : Prop :=
  ∀ ⦃v q r⦄, b.run p = (.ok v, q) → Q q v → q.Leads r → b.run r = (.ok v, r)

theorem again_of_repeats {p : Pool Float} {b : Build Float β} {Q : Pool Float → β → Prop}
    (H : ∀ {v q}, b.run p = (.ok v, q) → Q q v → Build.Repeats b v p q) : p.Again b Q := by
  intro v q r hrun hv hr
  have hb := H hrun hv
  exact hb.again (hr.wf hb.wf) (hr.le hb.wf)

/-- A pool with one node for every expression, in which what was built is found again. NaN is
excepted. -/
structure Shared (p : Pool Float) : Prop where
  unfolds : ∀ {h}, p.Names h → ∃! t, p.Unfolds h t
  eq_iff : ∀ {h k s t}, p.NaNFree h → p.Unfolds h s → p.Unfolds k t → (h = k ↔ s.same t = true)
  kept : ∀ {q h n}, p.Leads q → p.Holds h n → q.Holds h n
  constant : ∀ v, p.Again (Build.constant v) fun q h => ¬q.IsNaN h
  unary : ∀ name {a}, 0 ≤ a → p.Again (Build.unaryNamed name a) fun q h => ¬q.IsNaN h
  binary : ∀ name {a b}, 0 ≤ a → 0 ≤ b →
    p.Again (Build.binaryNamed name a b) fun q h => ¬q.IsNaN h
  apply : ∀ op {u : Operand Float}, u.All (0 ≤ ·) → u.NotNaN →
    p.Again (u.apply op) fun q w => w.All (¬q.IsNaN ·)
  combine : ∀ op {u v : Operand Float}, u.All (0 ≤ ·) → v.All (0 ≤ ·) → u.NotNaN → v.NotNaN →
    p.Again (u.combine op v) fun q w => w.All (¬q.IsNaN ·)

theorem Reached.shared {p : Pool Float} (H : p.Reached) : p.Shared where
  unfolds hh := by
    obtain ⟨t, ht⟩ := H.wf.unfolds hh
    exact ⟨t, ht, fun s hs => hs.unique ht⟩
  eq_iff hnan hs ht := by
    constructor
    · rintro rfl
      exact hs.unique ht ▸ hs.same_self hnan
    · exact hs.eq_of_same H.wf ht
  kept hq hn := hn.mono (hq.le H.wf)
  constant v := by
    refine again_of_repeats fun hrun hnan => ?_
    cases hrun
    exact Build.repeats_constant H.wf (same_self_of_intern H.wf.indexed hnan)
  unary _ _ ha := again_of_repeats (Build.repeats_unaryNamed H.wf ha)
  binary _ _ _ ha hb := again_of_repeats (Build.repeats_binaryNamed H.wf ha hb)
  apply _ _ hu hnan := again_of_repeats (Build.repeats_apply H.wf hu hnan)
  combine _ _ _ hu hv hun hvn :=
    again_of_repeats (Build.repeats_operand_combine H.wf hu hv hun hvn)

theorem not_isNaN {p : Pool Float} (H : p.isConstant h = false) : ¬p.IsNaN h := by
  rintro ⟨v, hv, _⟩
  exact nomatch (isConstant_eq_false_iff.mp H).symm.trans hv.constant?

end Pool

def Operand.handle? : Operand α → Option Handle
  | .expression h => some h
  | .foreign | .number _ | .tooLarge | .other _ => none

theorem Build.run_expression {b : Build α (Operand α)} {p : Pool α}
    (H : (b.run p).1.toOption.bind Operand.handle? = some h) :
    b.run p = (.ok (.expression h), (b.run p).2) := by
  rcases hb : b.run p with ⟨e | u, q⟩
  · rw [hb] at H
    cases H
  · rw [hb] at H
    cases u with
    | expression => cases H; rfl
    | foreign | number | tooLarge | other => cases H

namespace Pool

/-- The sum of a coordinate and a number has one node, also after its derivative was taken. -/
theorem shared_sum :
    let p : Pool Float := (Call.vars 1).after .empty
    let sum : Build Float (Operand Float) := (Operand.expression 0).combine .add (.number 2)
    ∃ q r, p.Shared ∧ sum.run p = (.ok (.expression 2), q) ∧
      r = (Call.differentiate 2 0).after q ∧ q.size < r.size ∧
      sum.run r = (.ok (.expression 2), r) := by
  intro p sum
  have hp : p.Reached := Reached.empty.call (.vars 1) trivial
  have hrun : sum.run p = (.ok (.expression 2), (sum.run p).2) :=
    Build.run_expression (by decide +kernel)
  have htwo : (2 : Float).isNaN = false := by decide +kernel
  have hnan : ¬(sum.run p).2.IsNaN 2 := not_isNaN (by decide +kernel)
  have hr : (sum.run p).2.Leads ((Call.differentiate 2 0).after (sum.run p).2) :=
    .call .rfl (.differentiate 2 0) (Int.natCast_nonneg 2)
  have H := hp.shared
  exact ⟨_, _, H, hrun, rfl, by decide +kernel, H.combine .add (u := .expression 0)
    (v := .number 2) (Int.natCast_nonneg 0) trivial trivial htwo hrun hnan hr⟩

/-- Adding NaN to a coordinate again is another sum, though neither sum is NaN. -/
theorem sum_with_nan :
    let p : Pool Float := (Call.vars 1).after .empty
    let sum : Build Float (Operand Float) := (Operand.expression 0).combine .add (.number (0 / 0))
    p.Reached ∧ ∃ q r, sum.run p = (.ok (.expression 2), q) ∧ ¬q.IsNaN 2 ∧
      sum.run q = (.ok (.expression 4), r) ∧ r.size = q.size + 2 := by
  intro p sum
  have hp : p.Reached := Reached.empty.call (.vars 1) trivial
  have hfirst : sum.run p = (.ok (.expression 2), (sum.run p).2) :=
    Build.run_expression (by decide +kernel)
  have hsecond : sum.run (sum.run p).2 = (.ok (.expression 4), (sum.run (sum.run p).2).2) :=
    Build.run_expression (by decide +kernel)
  exact ⟨hp, _, _, hfirst, not_isNaN (by decide +kernel), hsecond, by decide +kernel⟩

end Pool

end Downhill
