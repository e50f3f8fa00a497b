import Downhill.Proofs.Meaning.Sharing
import Downhill.Proofs.Meaning.Support
import Downhill.Proofs.Term.Independence
import Downhill.Proofs.Term.Zeros

/-!
# Histories of pools of doubles

The same program, carried out step by step in two pools (`Tandem`), makes the same of them unless
one stores another zero than the other (`tandem_values`). Where they do differ, a quotient may have
another sign (`quotients_differ`).
-/

namespace Downhill

/-! ## One program in two pools -/

theorem Operand.run_apply {α : Type} [Scalar α] {p : Pool α} (op : UnaryOp) (ha : p.Names a) :
    ((expression a).apply op).run p = (.ok (.expression (p.unary op a).1), (p.unary op a).2) :=
  Build.run_bind_ok (Build.run_unary op ha)

/-- The same number, or two nodes of which something is said. -/
inductive Operand.Both (R : Handle → Handle → Prop) : Operand α → Operand α → Prop where
  | number {v : α} : Both R (.number v) (.number v)
  | expression : R h k → Both R (.expression h) (.expression k)

theorem Operand.Both.imp {R R' : Handle → Handle → Prop} {u v : Operand α} (H : u.Both R v)
    (hR : ∀ {h k}, R h k → R' h k) : u.Both R' v := by
  cases H with
  | number => exact .number
  | expression hc => exact .expression (hR hc)

/-- `Tandem p u q v` says that a program made the operand `u` in the pool `p`, and that the same
program made `v` in `q`. Anything else may have happened in either pool before or in between. -/
inductive Tandem : Pool Float → Operand Float → Pool Float → Operand Float → Prop where
  | number {p q : Pool Float} : p.Reached → q.Reached → Tandem p (.number v) q (.number v)
  | var {p q : Pool Float} : p.Reached → q.Reached → p.Holds h (.var i) → q.Holds k (.var i) →
    Tandem p (.expression h) q (.expression k)
  | expression : Tandem p u q v → (Build.expression u).run p = (.ok h, p') →
    (Build.expression v).run q = (.ok k, q') → Tandem p' (.expression h) q' (.expression k)
  | apply : Tandem p u q v → (u.apply op).run p = (.ok w, p') → (v.apply op).run q = (.ok w', q') →
    Tandem p' w q' w'
  | combine : Tandem p u q v → Tandem p u' q v' → (u.combine op u').run p = (.ok w, p') →
    (v.combine op v').run q = (.ok w', q') → Tandem p' w q' w'
  | later : Tandem p u q v → p.Leads p' → q.Leads q' → Tandem p' u q' v

namespace Tandem

variable {p q : Pool Float} {u v : Operand Float}

theorem written (H : Tandem p u q v) : ∃ t, Written p u t ∧ Written q v t := by
  induction H with
  | number hp hq => exact ⟨_, .number hp, .number hq⟩
  | var hp hq hh hk => exact ⟨_, .node hp (.var hh rfl), .node hq (.var hk rfl)⟩
  | expression _ hr hr' ih =>
    obtain ⟨t, H, H'⟩ := ih
    exact ⟨t, H.expression hr, H'.expression hr'⟩
  | apply _ hr hr' ih =>
    obtain ⟨t, H, H'⟩ := ih
    exact ⟨_, H.apply hr, H'.apply hr'⟩
  | combine _ _ hr hr' ih ih' =>
    obtain ⟨s, H, H'⟩ := ih
    obtain ⟨t, K, K'⟩ := ih'
    exact ⟨_, H.combine K hr, H'.combine K' hr'⟩
  | later _ hl hl' ih =>
    obtain ⟨t, H, H'⟩ := ih
    exact ⟨t, H.later hl, H'.later hl'⟩

/-- Operands of a pool that a program goes on with. -/
theorem ready (H : Tandem p u q v) :
    (p.Reached ∧ u.All p.Names) ∧ q.Reached ∧ v.All q.Names :=
  let ⟨_, H, H'⟩ := H.written; ⟨H.valid, H'.valid⟩


theorem names_of_both (H : u.Both (p.Concur · q ·) v) : u.All p.Names ∧ v.All q.Names := by
  cases H with
  | number => exact ⟨trivial, trivial⟩
  | expression hc =>
    obtain ⟨t, ht, ht'⟩ := hc
    exact ⟨ht.names, ht'.names⟩

/-- Operands that concur are lifted to nodes that concur. -/
theorem lift {p' q' : Pool Float} (hp : p.WF) (hq : q.WF) (H : u.Both (p.Concur · q ·) v)
    (hr : (Build.lift u).run p = (.ok h, p')) (hr' : (Build.lift v).run q = (.ok k, q'))
    (hz : p'.ZerosAgree q') : p'.Concur h q' k := by
  cases H with
  | number =>
    cases hr
    cases hr'
    exact hz.constant hp.indexed hq.indexed
  | expression hc =>
    cases hr
    cases hr'
    exact hc

theorem build_combine {p' q' : Pool Float} {u' v' : Operand Float} (hp : p.WF) (hq : q.WF)
    (H : u.Both (p.Concur · q ·) v) (H' : u'.Both (p.Concur · q ·) v')
    (hr : (Build.combine op u u').run p = (.ok h, p'))
    (hr' : (Build.combine op v v').run q = (.ok k, q')) (hz : p'.ZerosAgree q') :
    p'.Concur h q' k := by
  obtain ⟨hu, hv⟩ := names_of_both H
  obtain ⟨hu', hv'⟩ := names_of_both H'
  obtain ⟨a, p₁, ha, hr⟩ := Build.run_bind_eq_ok hr
  obtain ⟨b, p₂, hb, hr⟩ := Build.run_bind_eq_ok hr
  obtain ⟨a', q₁, ha', hr'⟩ := Build.run_bind_eq_ok hr'
  obtain ⟨b', q₂, hb', hr'⟩ := Build.run_bind_eq_ok hr'
  obtain ⟨he₁, h0⟩ := (Build.lift_ensures hp hu.nonneg).run_ok ha
  obtain ⟨he₂, h1⟩ := (Build.lift_ensures (he₁.wf hp) hu'.nonneg).run_ok hb
  obtain ⟨he₁', h0'⟩ := (Build.lift_ensures hq hv.nonneg).run_ok ha'
  obtain ⟨he₂', h1'⟩ := (Build.lift_ensures (he₁'.wf hq) hv'.nonneg).run_ok hb'
  have hp₂ := (he₁.trans he₂).wf hp
  have hq₂ := (he₁'.trans he₂').wf hq
  have hle := he₂.le (he₁.wf hp)
  have hle' := he₂'.le (he₁'.wf hq)
  -- the zeros agree all the way back
  have hz₂ : p₂.ZerosAgree q₂ :=
    hz.old (((Build.binary_ensures hp₂ op h0 h1).run_ok hr).1.le hp₂)
      (((Build.binary_ensures hq₂ op h0' h1').run_ok hr').1.le hq₂)
  have left : p₂.Concur a q₂ a' := (lift hp hq H ha ha' (hz₂.old hle hle')).mono hle hle'
  have right : p₂.Concur b q₂ b' :=
    lift (he₁.wf hp) (he₁'.wf hq) (H'.imp fun hc => hc.mono (he₁.le hp) (he₁'.le hq)) hb hb' hz₂
  obtain ⟨s, hs, hs'⟩ := left
  obtain ⟨t, ht, ht'⟩ := right
  cases hr.symm.trans (Build.run_binary op hs.names ht.names)
  cases hr'.symm.trans (Build.run_binary op hs'.names ht'.names)
  exact hz.binary hp₂.indexed hq₂.indexed hs ht hs' ht'

theorem operand_combine {p' q' : Pool Float} {u' v' w w' : Operand Float} (hp : p.WF) (hq : q.WF)
    (H : u.Both (p.Concur · q ·) v) (H' : u'.Both (p.Concur · q ·) v')
    (hr : (u.combine op u').run p = (.ok w, p')) (hr' : (v.combine op v').run q = (.ok w', q'))
    (hz : p'.ZerosAgree q') : w.Both (p'.Concur · q' ·) w' := by
  have hnode
      (hr : (Build.combine op u u' >>= fun h => pure (.expression h) :
        Build Float (Operand Float)).run p = (.ok w, p'))
      (hr' : (Build.combine op v v' >>= fun h => pure (.expression h) :
        Build Float (Operand Float)).run q = (.ok w', q')) : w.Both (p'.Concur · q' ·) w' := by
    obtain ⟨h, p₁, hh, hr⟩ := Build.run_bind_eq_ok hr
    obtain ⟨k, q₁, hk, hr'⟩ := Build.run_bind_eq_ok hr'
    cases hr
    cases hr'
    exact .expression (build_combine hp hq H H' hh hk hz)
  cases H with
  | number =>
    cases H' with
    | number =>
      cases hr
      cases hr'
      exact .number
    | expression => exact hnode hr hr'
  | expression => exact hnode hr hr'

theorem concur (H : Tandem p u q v) (hz : p.ZerosAgree q) : u.Both (p.Concur · q ·) v := by
  induction H with
  | number => exact .number
  | var _ _ hh hk => exact .expression ⟨_, .var hh rfl, .var hk rfl⟩
  | expression H hr hr' ih =>
    obtain ⟨⟨hp, hu⟩, hq, hv⟩ := H.ready
    have hle := ((Build.expression_ensures hp.wf hu.nonneg).run_ok hr).1.le hp.wf
    have hle' := ((Build.expression_ensures hq.wf hv.nonneg).run_ok hr').1.le hq.wf
    cases ih (hz.old hle hle') with
    | number =>
      cases hr
      cases hr'
      exact .expression (hz.constant hp.wf.indexed hq.wf.indexed)
    | expression hc =>
      cases hr
      cases hr'
      exact .expression hc
  | apply H hr hr' ih =>
    obtain ⟨⟨hp, hu⟩, hq, hv⟩ := H.ready
    have hle := ((Build.apply_ensures hp.wf _ hu.nonneg).run_ok hr).1.le hp.wf
    have hle' := ((Build.apply_ensures hq.wf _ hv.nonneg).run_ok hr').1.le hq.wf
    cases ih (hz.old hle hle') with
    | number =>
      cases hr
      cases hr'
      exact .number
    | expression hc =>
      obtain ⟨t, ha, hb⟩ := hc
      cases hr.symm.trans (Operand.run_apply _ ha.names)
      cases hr'.symm.trans (Operand.run_apply _ hb.names)
      exact .expression (hz.unary hp.wf.indexed hq.wf.indexed ha hb)
  | combine H K hr hr' ih ih' =>
    obtain ⟨⟨hp, hu⟩, hq, hv⟩ := H.ready
    obtain ⟨⟨_, hu'⟩, _, hv'⟩ := K.ready
    have hle :=
      ((Build.operand_combine_ensures hp.wf _ hu.nonneg hu'.nonneg).run_ok hr).1.le hp.wf
    have hle' :=
      ((Build.operand_combine_ensures hq.wf _ hv.nonneg hv'.nonneg).run_ok hr').1.le hq.wf
    have hold := hz.old hle hle'
    exact operand_combine hp.wf hq.wf (ih hold) (ih' hold) hr hr' hz
  | later H hl hl' ih =>
    obtain ⟨⟨hp, _⟩, hq, _⟩ := H.ready
    have hle := hl.le hp.wf
    have hle' := hl'.le hq.wf
    exact (ih (hz.old hle hle')).imp fun hc => hc.mono hle hle'

end Tandem

/-! ## What constants evaluate to -/

namespace Pool

variable {p q : Pool Float} {h k a : Handle} {v c : Float} {x : Array Float}

/-- A value is stored as it is unless another zero is there for it. -/
theorem WF.holds_constant_iff (hp : p.WF) (v : Float) :
    (p.constant v).2.Holds (p.constant v).1 (.const v) ↔
      (Scalar.IsZero v → ∀ w ∈ p.zeros, w = v) := by
  constructor
  · intro H hv w hw
    obtain ⟨hz, k, hk⟩ := mem_zeros.mp hw
    have hsame : Scalar.eq v w = true := Double.eq_trans hv (Double.eq_symm w _ ▸ hz)
    have hfound : p.constant v = (k, p) := hp.intern_same hk hsame
    rw [hfound] at H
    cases hk.unique H
    rfl
  · intro H
    rcases intern_cases hp.indexed (.const v) with ⟨k, m, hm, hsame, he⟩ | ⟨_, he⟩
    · change (p.intern _).2.Holds (p.intern _).1 _
      rw [he]
      rcases Node.same_cases hsame with rfl | ⟨_, w, hv, rfl, heq⟩
      · exact hm
      · cases hv
        rcases Double.eq_cases heq with rfl | ⟨hz, hz'⟩
        · exact hm
        · exact H hz w (mem_zeros.mpr ⟨hz', k, hm⟩) ▸ hm
    · change (p.intern _).2.Holds (p.intern _).1 _
      rw [he]
      exact holds_push_self

theorem WF.constant_hasValue_iff (hp : p.WF) (v : Float) (x : Array Float) :
    (p.constant v).2.HasValue (p.constant v).1 x v ↔
      (Scalar.IsZero v → ∀ w ∈ p.zeros, w = v) := by
  rw [← hp.holds_constant_iff]
  have hq := (constant_yields hp.indexed v).grows.wf hp
  obtain ⟨w, hw, _⟩ := holds_constant hp.indexed v
  have hterm : (p.constant v).2.Unfolds (p.constant v).1 (.num w) := .const hw rfl
  rw [hterm.hasValue_iff hq]
  constructor
  · intro hv
    cases hv with | num hv => exact hv ▸ hw
  · intro hv
    cases hw.unique hv
    exact .num rfl

/-- A coordinate divided by a zero that no other zero stands for. -/
theorem WF.quotient_hasValue (hp : p.WF) (ha : p.Holds a (.var i)) (hv : Scalar.IsZero v)
    (hzero : ∀ w ∈ p.zeros, w = v) (hc : x[i]? = some c) :
    ∃ h q, ((Operand.expression a).combine .div (.number v)).run p = (.ok (.expression h), q) ∧
      q.HasValue h x (c / v) := by
  have hk := (hp.holds_constant_iff v).mpr fun _ => hzero
  have H := (constant_yields hp.indexed v).grows
  have ha' := ha.mono H.le
  generalize hr : p.constant v = r at hk H ha'
  have hlift : (Build.lift (.number v)).run p = (.ok r.1, r.2) := by rw [← hr]; rfl
  have hrun : (Build.combine .div (.expression a) (.number v)).run p =
      (.ok (r.2.binary .div a r.1).1, (r.2.binary .div a r.1).2) :=
    (Build.run_bind_ok rfl).trans
      ((Build.run_bind_ok hlift).trans (Build.run_binary .div ha'.names hk.names))
  have hnode : r.2.binary .div a r.1 = r.2.intern (.binary .div a r.1) := by
    have hone : Scalar.eq v (Scalar.nat 1) ≠ true := fun heq =>
      Double.zeroLaws.one (.inr (Double.eq_symm _ v ▸ heq)) hv
    have hleft : r.2.constant? a = none := ha'.constant?_eq_none fun w hw => by cases hw
    rw [binary_eq, hleft, hk.constant?]
    simp [BinaryOp.reduction, holds, hone, Reduction.carryOut]
  have hterm := Unfolds.intern_binary (H.wf hp).indexed (.var ha' rfl) (.const hk rfl) .div
  rw [← hnode] at hterm
  have hq := (binary_yields (H.wf hp) .div ha'.names hk.names).grows.wf (H.wf hp)
  refine ⟨_, _, Build.run_bind_ok hrun, (hterm.hasValue_iff hq).mpr ?_⟩
  exact .binary (.var hc) (.num rfl) rfl

/-- Nobody can tell the nodes apart, and each point with enough coordinates gives them a value. -/
structure SameValue (p : Pool Float) (h : Handle) (q : Pool Float) (k : Handle) : Prop where
  alike : p.Alike h q k
  value : ∀ x : Array Float, (∀ i, ¬p.Exceeds h x.size i) →
    ∃ c, p.HasValue h x c ∧ q.HasValue k x c

theorem Concur.sameValue (H : p.Concur h q k) (hp : p.WF) (hq : q.WF) : p.SameValue h q k := by
  obtain ⟨t, ht, ht'⟩ := H
  refine ⟨ht.alike ht' hp hq, fun x hx => ?_⟩
  obtain ⟨c, hc⟩ := Unfolds.evaluation ht fun {k i} hk hi =>
    Nat.not_le.mp fun hle => hx i ⟨k, hk, hi, hle⟩
  have hc := ht.reads_iff.mp hc
  exact ⟨c, (ht.hasValue_iff hp).mpr hc, (ht'.hasValue_iff hq).mpr hc⟩

end Pool

/-! ## Two histories of doubles -/

/-- A program makes the same of two pools whose zeros agree. A constant evaluates to its value, and
a coordinate divided by a zero has the sign that the zero gives it, unless the other zero was stored
before. -/
theorem tandem_values {p : Pool Float} (hp : p.Reached) :
    (∀ {q u v}, Tandem p u q v → p.ZerosAgree q → u.Both (p.SameValue · q ·) v) ∧
    (∀ v x, (p.constant v).2.HasValue (p.constant v).1 x v ↔
      (Scalar.IsZero v → ∀ w ∈ p.zeros, w = v)) ∧
    ∀ {a i v x c}, p.Holds a (.var i) → Scalar.IsZero v → (∀ w ∈ p.zeros, w = v) →
      x[i]? = some c →
      ∃ h q, ((Operand.expression a).combine .div (.number v)).run p = (.ok (.expression h), q) ∧
        q.HasValue h x (c / v) := by
  refine ⟨?_, hp.wf.constant_hasValue_iff, hp.wf.quotient_hasValue⟩
  intro q u v H hz
  obtain ⟨_, hq, _⟩ := H.ready
  exact (H.concur hz).imp fun hc => hc.sameValue hp.wf hq.wf

namespace Pool

theorem HasValue.of_run {p : Pool Float} {x : Array Float} {c : Float}
    (H : ((Build.function x.size (.expression h)).run p).1.toOption.bind
      (fun f => (f.apply x).toOption) = some c) : p.HasValue h x c := by
  rcases hf : (Build.function x.size (.expression h)).run p with ⟨e | f, q⟩
  · rw [hf] at H
    cases H
  · rw [hf] at H
    refine ⟨f, q, hf, ?_⟩
    cases hx : f.apply x with
    | error e =>
      change (f.apply x).toOption = _ at H
      rw [hx] at H
      cases H
    | ok v =>
      change (f.apply x).toOption = _ at H
      rw [hx] at H
      cases H
      rfl

theorem HasValue.unique {p : Pool Float} {x : Array Float} {c d : Float} (H : p.HasValue h x c)
    (H' : p.HasValue h x d) : c = d := by
  obtain ⟨f, q, hf, hc⟩ := H
  obtain ⟨g, r, hg, hd⟩ := H'
  cases hf.symm.trans hg
  cases hc.symm.trans hd
  rfl

end Pool

/-- The first coordinate divided by the negative zero. -/
def pole : Build Float (Operand Float) := (Operand.expression 1).combine .div (.number (-0.0))

/-- A pool in which a number was a constant before there were variables. -/
def poolAfter (v : Float) : Pool Float := (Call.vars 1).after ((Call.constant v).after .empty)

theorem reached_poolAfter (v : Float) : (poolAfter v).Reached :=
  (Pool.Reached.empty.call (.constant v) trivial).call (.vars 1) trivial

theorem pole_tandem {v w : Float} (hv : (poolAfter v).Holds 1 (.var 0))
    (hw : (poolAfter w).Holds 1 (.var 0)) (hr : pole.run (poolAfter v) = (.ok (.expression h), p))
    (hr' : pole.run (poolAfter w) = (.ok (.expression k), q)) :
    Tandem p (.expression h) q (.expression k) := by
  have hp := reached_poolAfter v
  have hq := reached_poolAfter w
  exact (Tandem.var hp hq hv hw).combine (.number hp hq) hr hr'

/-- Beside an unrelated constant the quotient is what it is where its own zero was stored. -/
theorem tandem_values_pole :
    ∃ (p q : Pool Float) (h k : Handle), h ≠ k ∧ p.SameValue h q k ∧
      p.HasValue h #[1.0] (1.0 / -0.0) := by
  have hv : (poolAfter (-0.0)).Holds 1 (.var 0) :=
    Pool.holds_of_find? (k := 1) (reached_poolAfter _).wf.indexed (by decide +kernel) (by simp)
  have hw : (poolAfter 2.0).Holds 1 (.var 0) :=
    Pool.holds_of_find? (k := 1) (reached_poolAfter _).wf.indexed (by decide +kernel) (by simp)
  have hrun := Build.run_expression (b := pole) (p := poolAfter (-0.0)) (h := 2) (by decide +kernel)
  have hrun' := Build.run_expression (b := pole) (p := poolAfter 2.0) (h := 3) (by decide +kernel)
  have H := pole_tandem hv hw hrun hrun'
  have hsame := (tandem_values H.ready.1.1).1 H (by decide +kernel)
  have hzero : Scalar.eq (-0.0 : Float) (Scalar.nat 0) = true := by decide +kernel
  obtain ⟨h, p, hr, hvalue⟩ :=
    (tandem_values (reached_poolAfter _)).2.2 (x := #[1.0]) hv hzero (by decide +kernel) rfl
  cases hrun.symm.trans hr
  cases hsame with | expression hsame => exact ⟨_, _, 2, 3, by decide, hsame, hvalue⟩

/-- Where the positive zero was a constant before, it stands for the negative one. -/
theorem quotients_differ :
    ∃ (p q : Pool Float) (h k : Handle), Tandem p (.expression h) q (.expression k) ∧
      p.HasValue h #[1.0] (1.0 / -0.0) ∧ q.HasValue k #[1.0] (1.0 / 0.0) ∧
      ¬q.HasValue k #[1.0] (1.0 / -0.0) := by
  have hv : (poolAfter 2.0).Holds 1 (.var 0) :=
    Pool.holds_of_find? (k := 1) (reached_poolAfter _).wf.indexed (by decide +kernel) (by simp)
  have hw : (poolAfter 0.0).Holds 1 (.var 0) :=
    Pool.holds_of_find? (k := 1) (reached_poolAfter _).wf.indexed (by decide +kernel) (by simp)
  have hrun := Build.run_expression (b := pole) (p := poolAfter 2.0) (h := 3) (by decide +kernel)
  have hrun' := Build.run_expression (b := pole) (p := poolAfter 0.0) (h := 2) (by decide +kernel)
  have hvalue : (pole.run (poolAfter 0.0)).2.HasValue 2 #[1.0] (1.0 / 0.0) :=
    .of_run (by decide +kernel)
  refine ⟨_, _, 3, 2, pole_tandem hv hw hrun hrun', .of_run (by decide +kernel), hvalue, ?_⟩
  intro hother
  have hne : (1.0 / 0.0 : Float) ≠ 1.0 / -0.0 := by decide +kernel
  exact hne (hvalue.unique hother)

end Downhill
