import Downhill.Proofs.Meaning.Soundness
import Downhill.Proofs.Pool.History

/-!
# Writing expressions

`Written p u t` says that in the pool `p` the operand `u` was written as the term `t`: operator by
operator, with numbers kept as numbers until they meet an expression, and with any other calls in
between. Whatever the constructors keep can be said of the operand and what the term is read as
(`Written.stands`); in particular the operand means the same or better (`Written.means`).
-/

namespace Downhill

inductive Written [Scalar α] : Pool α → Operand α → Term α → Prop where
  | number {p : Pool α} : p.Reached → Written p (.number v) (.num v)
  /-- Any node that is there, written as the term it stands for. -/
  | node {p : Pool α} : p.Reached → p.Unfolds h t → Written p (.expression h) t
  | expression : Written p u t → (Build.expression u).run p = (.ok h, q) →
    Written q (.expression h) t
  | apply : Written p u t → (u.apply op).run p = (.ok w, q) → Written q w (.unary op t)
  | combine : Written p u s → Written p v t → (u.combine op v).run p = (.ok w, q) →
    Written q w (.binary op s t)
  | later : Written p u t → p.Leads q → Written q u t

variable {α β : Type} {p q : Pool α} {I : Interpretation α β} {u v w : Operand α} {t : Term α}
  {b c d : β}

/-! ## What is said of operands -/

/-- Something said of nodes and numbers, said of an operand. -/
def Operand.Stands (N : α → β → Prop) (M : Pool α → Handle → β → Prop) (p : Pool α) (b : β) :
    Operand α → Prop
  | .expression h => M p h b
  | .number v => N v b
  | .foreign | .tooLarge | .other _ => False

namespace Operand.Stands

variable [Scalar α] {N : α → β → Prop} {M : Pool α → Handle → β → Prop}

theorem mono (K : I.Kept N M) (H : u.Stands N M p b) (hle : p ≤ q) : u.Stands N M q b := by
  cases u with
  | expression h => exact K.mono H hle
  | number | foreign | tooLarge | other => exact H

theorem lift (K : I.Kept N M) (hp : p.WF) (H : u.Stands N M p b) :
    ∃ h q, (Build.lift u).run p = (.ok h, q) ∧ p.Grows q ∧ M q h b := by
  cases u with
  | expression h => exact ⟨h, p, rfl, .rfl, H⟩
  | number v =>
    exact ⟨_, _, rfl, (Pool.constant_yields hp.indexed v).grows, K.constant hp H⟩
  | foreign | tooLarge | other => exact H.elim

theorem expression (K : I.Kept N M) (hp : p.WF) (H : u.Stands N M p b) :
    ∃ h q, (Build.expression u).run p = (.ok h, q) ∧ M q h b := by
  cases u with
  | expression h => exact ⟨h, p, rfl, H⟩
  | number v => exact ⟨_, _, rfl, K.constant hp H⟩
  | foreign | tooLarge | other => exact H.elim

theorem apply (K : I.Kept N M) (hp : p.WF) (H : u.Stands N M p b) (hc : I.unary op b c) :
    ∃ w q, (u.apply op).run p = (.ok w, q) ∧ w.Stands N M q c := by
  cases u with
  | expression h =>
    exact ⟨_, _, Build.run_bind_ok (Build.run_unary op (K.names H)), K.unary hp H hc⟩
  | number v => exact ⟨_, _, rfl, K.unary_number H hc⟩
  | foreign | tooLarge | other => exact H.elim

theorem build_combine (K : I.Kept N M) (hp : p.WF) (Hu : u.Stands N M p b)
    (Hv : v.Stands N M p c) (hd : I.binary op b c d) :
    ∃ h q, (Build.combine op u v).run p = (.ok h, q) ∧ M q h d := by
  obtain ⟨h, q, hr, hpq, hu⟩ := Hu.lift K hp
  obtain ⟨k, r, hr', hqr, hv⟩ := (Hv.mono K hpq.le).lift K (hpq.wf hp)
  have hu := K.mono hu hqr.le
  refine ⟨_, _, ?_, K.binary (hqr.wf (hpq.wf hp)) hu hv hd⟩
  exact (Build.run_bind_ok hr).trans
    ((Build.run_bind_ok hr').trans (Build.run_binary op (K.names hu) (K.names hv)))

theorem combine (K : I.Kept N M) (hp : p.WF) (Hu : u.Stands N M p b) (Hv : v.Stands N M p c)
    (hd : I.binary op b c d) : ∃ w q, (u.combine op v).run p = (.ok w, q) ∧ w.Stands N M q d := by
  obtain ⟨h, q, hr, hh⟩ := Hu.build_combine K hp Hv hd
  have hexpression : ∃ w q, ((Build.combine op u v >>= fun h => pure (.expression h) :
      Build α (Operand α)).run p = (.ok w, q)) ∧ w.Stands N M q d :=
    ⟨_, q, Build.run_bind_ok hr, hh⟩
  cases u with
  | number x =>
    cases v with
    | number y => exact ⟨_, _, rfl, K.binary_number Hu Hv hd⟩
    | expression | foreign | tooLarge | other => exact hexpression
  | expression | foreign | tooLarge | other => exact hexpression

end Operand.Stands

/-! ## What is said of written terms -/

namespace Written

variable [Scalar α]

/-- Expressions are written in reached pools, and an operand is there to be used. -/
theorem valid (H : Written p u t) : p.Reached ∧ u.All p.Names := by
  induction H with
  | number hp => exact ⟨hp, trivial⟩
  | node hp H => exact ⟨hp, H.names⟩
  | @expression p u t h q _ hr ih =>
    obtain ⟨hp, hu⟩ := ih
    refine ⟨Build.run_snd hr ▸ hp.call (.expression u) hu.nonneg, ?_⟩
    cases u with
    | expression => cases hr; exact hu
    | number v => cases hr; exact (Pool.constant_yields hp.wf.indexed v).names
    | foreign | tooLarge | other => cases hr
  | @apply p u t op w q _ hr ih =>
    obtain ⟨hp, hu⟩ := ih
    exact ⟨Build.run_snd hr ▸ hp.call (.apply op u) hu.nonneg,
      ((Build.apply_ensures hp.wf op hu.nonneg).run_ok hr).2⟩
  | @combine p u s v t op w q _ _ hr ihs iht =>
    obtain ⟨hp, hu⟩ := ihs
    obtain ⟨_, hv⟩ := iht
    exact ⟨Build.run_snd hr ▸ hp.call (.combine op u v) ⟨hu.nonneg, hv.nonneg⟩,
      ((Build.operand_combine_ensures hp.wf op hu.nonneg hv.nonneg).run_ok hr).2⟩
  | later _ hq ih =>
    obtain ⟨hp, hu⟩ := ih
    exact ⟨hp.leads hq, hu.imp fun h => h.mono (hq.le hp.wf)⟩

theorem nonneg (H : Written p u t) : u.All (0 ≤ ·) := H.valid.2.nonneg

theorem var (hp : p.Reached) (i : Nat) :
    Written (p.var i).2 (.expression (p.var i).1) (.var i) := by
  have hr : (Build.var (i : Int)).run p = (.ok (p.var i).1, (p.var i).2) := by
    rw [Build.var, if_neg (Int.not_lt.mpr (Int.natCast_nonneg i))]
    rfl
  have hnode := Pool.holds_var hp.wf.indexed i
  exact .node (Build.run_snd hr ▸ hp.call (.var i) trivial) (.var hnode rfl)

theorem unary (H : Written p (.expression a) t) (op : UnaryOp) :
    Written (p.unary op a).2 (.expression (p.unary op a).1) (.unary op t) :=
  H.apply (Build.run_bind_ok (Build.run_unary op H.valid.2))

theorem binary {a b : Handle} (H : Written p (.expression a) s) (H' : Written p (.expression b) t)
    (op : BinaryOp) :
    Written (p.binary op a b).2 (.expression (p.binary op a b).1) (.binary op s t) := by
  have hr : (Build.combine op (.expression a) (.expression b)).run p =
      (.ok (p.binary op a b).1, (p.binary op a b).2) := Build.run_binary op H.valid.2 H'.valid.2
  exact H.combine H' (Build.run_bind_ok hr)

/-- The operand stands for what the written term is read as. -/
theorem stands {N : α → β → Prop} {M : Pool α → Handle → β → Prop} (K : I.Kept N M)
    (H : Written p u t) (ht : t.Reads I b) : u.Stands N M p b := by
  induction H generalizing b with
  | number => cases ht with | num hb => exact K.number hb
  | node hp H => exact K.reads hp.wf (H.reads_iff.mpr ht)
  | expression H hr ih =>
    obtain ⟨h, q, hr', hh⟩ := (ih ht).expression K H.valid.1.wf
    cases hr.symm.trans hr'
    exact hh
  | apply H hr ih =>
    cases ht with
    | unary hb hc =>
      obtain ⟨w, q, hr', hw⟩ := (ih hb).apply K H.valid.1.wf hc
      cases hr.symm.trans hr'
      exact hw
  | combine H _ hr ihs iht =>
    cases ht with
    | binary hb hc hd =>
      obtain ⟨w, q, hr', hw⟩ := (ihs hb).combine K H.valid.1.wf (iht hc) hd
      cases hr.symm.trans hr'
      exact hw
  | later H hq ih => exact (ih ht).mono K (hq.le H.valid.1.wf)

/-- What the written term is read as, the operand means. -/
theorem means (L : I.Lawful) (H : Written p u t) (ht : t.Reads I b) :
    u.Stands I.StandIn (Pool.Means I) p b :=
  H.stands L.kept ht

end Written

/-! ## Terms that are built -/

variable [Scalar α] {xs : Array Handle}

/-- Building a term is a sequence of calls that writes it. -/
theorem Term.build_written (hp : p.Reached)
    (hx : ∀ {i h}, xs[i]? = some h → p.Holds h (.var i)) (hr : (t.build xs).run p = (.ok u, q)) :
    p.Leads q ∧ Written q u t := by
  induction t generalizing p q u with
  | num v =>
    cases hr
    exact ⟨.rfl, .number hp⟩
  | var i =>
    rw [build] at hr
    cases hi : xs[i]? with
    | none => rw [hi] at hr; cases hr
    | some h =>
      rw [hi] at hr
      cases hr
      exact ⟨.rfl, .node hp (.var (hx hi) rfl)⟩
  | unary op a ih =>
    obtain ⟨v, r, ha, hr⟩ := Build.run_bind_eq_ok hr
    obtain ⟨hl, hw⟩ := ih hp hx ha
    have hcall : r.Leads q := Build.run_snd hr ▸ .call .rfl (.apply op v) hw.nonneg
    exact ⟨hl.trans hcall, hw.apply hr⟩
  | binary op a b iha ihb =>
    obtain ⟨v, r, ha, hr⟩ := Build.run_bind_eq_ok hr
    obtain ⟨w, s, hb, hr⟩ := Build.run_bind_eq_ok hr
    obtain ⟨hl, hw⟩ := iha hp hx ha
    obtain ⟨hl', hw'⟩ := ihb (hp.leads hl) (fun hi => (hx hi).mono (hl.le hp.wf)) hb
    have hw := hw.later hl'
    have hcall : s.Leads q :=
      Build.run_snd hr ▸ .call .rfl (.combine op v w) ⟨hw.nonneg, hw'.nonneg⟩
    exact ⟨(hl.trans hl').trans hcall, hw.combine hw' hr⟩

/-- What can be read can be built. -/
theorem Term.build_ok {N : α → β → Prop} {M : Pool α → Handle → β → Prop} (K : I.Kept N M)
    (hp : p.Reached) (hx : ∀ {i h}, xs[i]? = some h → p.Holds h (.var i))
    (hvar : ∀ {i b}, I.var i b → i < xs.size) (ht : t.Reads I b) :
    ∃ u q, (t.build xs).run p = (.ok u, q) := by
  induction t generalizing p b with
  | num v => exact ⟨.number v, p, rfl⟩
  | var i =>
    cases ht with
    | var hb =>
      have hi := hvar hb
      refine ⟨.expression xs[i], p, ?_⟩
      rw [build, Array.getElem?_eq_getElem hi]
      rfl
  | unary op a ih =>
    cases ht with
    | unary hb hc =>
      obtain ⟨v, r, ha⟩ := ih hp hx hb
      obtain ⟨_, hw⟩ := a.build_written hp hx ha
      obtain ⟨w, q, hr, _⟩ := (hw.stands K hb).apply K hw.valid.1.wf hc
      exact ⟨w, q, (Build.run_bind_ok ha).trans hr⟩
  | binary op a a' iha ihb =>
    cases ht with
    | binary hb hc hd =>
      obtain ⟨v, r, ha⟩ := iha hp hx hb
      obtain ⟨hl, hw⟩ := a.build_written hp hx ha
      have hx' : ∀ {i h}, xs[i]? = some h → r.Holds h (.var i) :=
        fun hi => (hx hi).mono (hl.le hp.wf)
      obtain ⟨w, s, ha'⟩ := ihb (hp.leads hl) hx' hc
      obtain ⟨hl', hw'⟩ := a'.build_written (hp.leads hl) hx' ha'
      obtain ⟨o, q, hr, _⟩ :=
        ((hw.later hl').stands K hb).combine K hw'.valid.1.wf (hw'.stands K hc) hd
      exact ⟨o, q, (Build.run_bind_ok ha).trans ((Build.run_bind_ok ha').trans hr)⟩

end Downhill
