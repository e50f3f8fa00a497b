import Downhill.Proofs.Pool.Building

/-!
# Taking derivatives

Differentiation goes through the nodes below a root in ascending order, so the derivatives of the
operands are known when a node is reached. Each step either remembers a derivative of the kind that
`Pool.Derives` lists or, if a node has no rule, leaves the pool as the steps before it made it. So
the derivatives of all nodes below the root are known in the end, unless there is a step among them,
the one operator without a rule (`run_differentiate_cases`).
-/

namespace Downhill.Build

variable {α : Type} {p q : Pool α} {h d : Handle} {i : Nat} {n : Node Handle α}

/-! ## One node -/

theorem run_known (H : p.derivative? h i = some d) : (known h i).run p = (.ok d, p) := by
  rw [known, run_get_bind, H]
  rfl

theorem run_known_error (H : p.derivative? h i = none) :
    (known h i).run p = (.error .derivativeMissing, p) := by
  rw [known, run_get_bind, H]
  rfl

/-- What keeps a node from being differentiated, and the error it comes to. -/
inductive Hindered {α : Type} (p : Pool α) (i : Nat) : Node Handle α → ExpressionError → Prop where
  | missing {n : Node Handle α} : a ∈ n.args → ¬p.Knows a i → Hindered p i n .derivativeMissing
  | unruled : op.rule? = none → Hindered p i (.unary op a) (.notDifferentiable op)

variable [Scalar α]

theorem run_derive (hn : p.Holds h n) :
    (∃ r, p.Derives i n r ∧ (derive h i).run p = (.ok r.1, r.2)) ∨
      ∃ e, Hindered p i n e ∧ (derive h i).run p = (.error e, p) := by
  rw [derive, run_bind_ok (run_node hn)]
  cases n with
  | const v => exact .inl ⟨_, .const, rfl⟩
  | var j => exact .inl ⟨_, .var, rfl⟩
  | unary op a =>
    cases hda : p.derivative? a i with
    | none =>
      have hin : Hindered p i (.unary op a) .derivativeMissing :=
        .missing (List.mem_singleton_self a) (Pool.not_knows_iff.mpr hda)
      exact .inr ⟨_, hin, run_bind_error (run_known_error hda)⟩
    | some da =>
      simp only [run_bind_ok (run_known hda)]
      cases hr : op.rule? with
      | none => exact .inr ⟨_, .unruled hr, rfl⟩
      | some rule => exact .inl ⟨_, .unary hda hr, rfl⟩
  | binary op a b =>
    have hindered {k : Handle} (hk : k = a ∨ k = b) (hd : p.derivative? k i = none) :
        Hindered p i (.binary op a b) .derivativeMissing :=
      .missing (by simpa [Node.args] using hk) (Pool.not_knows_iff.mpr hd)
    cases hda : p.derivative? a i with
    | none =>
      exact .inr ⟨_, hindered (.inl rfl) hda, run_bind_error (run_known_error hda)⟩
    | some da =>
      simp only [run_bind_ok (run_known hda)]
      cases hdb : p.derivative? b i with
      | none => exact .inr ⟨_, hindered (.inr rfl) hdb, run_bind_error (run_known_error hdb)⟩
      | some db =>
        simp only [run_bind_ok (run_known hdb)]
        exact .inl ⟨_, .binary hda hdb, rfl⟩

theorem run_extend_known (H : p.derivative? h i = some d) : (extend i h).run p = (.ok (), p) := by
  rw [extend, run_get_bind, H]
  rfl

theorem run_extend (H : p.derivative? h i = none) :
    (extend i h).run p = (derive h i >>= fun d => modify (·.remember h i d)).run p := by
  rw [extend, run_get_bind, H]
  rfl

/-- A derivative is remembered and no other, or a node is hindered and nothing happens. -/
theorem run_extend_cases (hp : p.WF) (hn : p.Holds h n) :
    (∃ q, (extend i h).run p = (.ok (), q) ∧ p.Evolves q ∧
      ∀ {k j}, q.Knows k j ↔ p.Knows k j ∨ k = h ∧ j = i) ∨
      ∃ e, Hindered p i n e ∧ (extend i h).run p = (.error e, p) := by
  cases hd : p.derivative? h i with
  | some d =>
    refine .inl ⟨p, run_extend_known hd, .rfl, ?_⟩
    intro k j
    have hh : k = h ∧ j = i → p.Knows k j := by
      rintro ⟨rfl, rfl⟩
      exact ⟨d, hd⟩
    exact ⟨.inl, fun H => H.elim id hh⟩
  | none =>
    rw [run_extend hd]
    rcases run_derive (i := i) hn with ⟨r, hr, he⟩ | ⟨e, hin, he⟩
    · refine .inl ⟨r.2.remember h i r.1, run_bind_ok he, .derive .rfl hn hd hr, ?_⟩
      intro k j
      rw [Pool.knows_remember, Pool.Knows, (hr.yields hp hn).grows.derivative?_eq, Pool.Knows]
    · exact .inr ⟨e, hin, run_bind_error he⟩

theorem extend_ensures (hp : p.WF) (h0 : 0 ≤ h) : Ensures p (extend i h) fun _ _ => True := by
  by_cases hh : p.Names h
  · obtain ⟨n, hn⟩ := hh
    rcases run_extend_cases (i := i) hp hn with ⟨q, hr, he, _⟩ | ⟨e, _, hr⟩
    · exact .of_run_ok hr he trivial
    · exact .of_run_error hr .rfl
  · cases hd : p.derivative? h i with
    | some d => exact .of_run_ok (run_extend_known hd) .rfl trivial
    | none =>
      refine .of_run_error (e := .noSuchNode) ?_ .rfl
      rw [run_extend hd, derive]
      exact run_bind_error (run_bind_error (run_node_error h0 hh))

/-! ## All nodes below a root -/

/-- Nodes in ascending order, those they are built from among them unless known already. -/
structure Agenda (p : Pool α) (i : Nat) (hs : List Handle) : Prop where
  names : ∀ h ∈ hs, p.Names h
  ascending : hs.Pairwise (· < ·)
  closed : ∀ h ∈ hs, ∀ {n}, p.Holds h n → ∀ a ∈ n.args, a ∈ hs ∨ p.Knows a i

omit [Scalar α] in
theorem Agenda.rest (H : Agenda p i (h :: hs)) (hle : p ≤ q) (hd : q.Knows h i) :
    Agenda q i hs := by
  refine ⟨fun k hk => (H.names k (List.mem_cons_of_mem _ hk)).mono hle,
    (List.pairwise_cons.mp H.ascending).2, fun k hk m hm a ha => ?_⟩
  have hk := List.mem_cons_of_mem h hk
  rcases H.closed k hk (hm.old hle (H.names k hk)) a ha with hmem | hknown
  · rcases List.mem_cons.mp hmem with rfl | hmem
    · exact .inr hd
    · exact .inl hmem
  · exact .inr (hknown.mono hle)

/-- When it is the turn of a node, the derivatives of its operands are known. -/
theorem Agenda.first (H : Agenda p i (h :: hs)) (hp : p.WF) (hn : p.Holds h n) :
    ∀ a ∈ n.args, p.Knows a i := by
  intro a ha
  rcases H.closed h List.mem_cons_self hn a ha with hmem | hknown
  · have hlt := (hp.args_lt hn a ha).2
    rcases List.mem_cons.mp hmem with rfl | hmem
    · exact absurd hlt (Int.lt_irrefl _)
    · exact absurd hlt (Int.lt_asymm (List.rel_of_pairwise_cons H.ascending hmem))
  · exact hknown

/-- All derivatives on an agenda are found and no others, unless a node has no rule. -/
theorem run_agenda (hp : p.WF) (H : Agenda p i hs) :
    (∃ q, (hs.forM (extend i)).run p = (.ok (), q) ∧ p.Evolves q ∧
      ∀ {k j}, q.Knows k j ↔ p.Knows k j ∨ k ∈ hs ∧ j = i) ∨
      ∃ q h op a, h ∈ hs ∧ p.Holds h (.unary op a) ∧ op.rule? = none ∧
        (hs.forM (extend i)).run p = (.error (.notDifferentiable op), q) := by
  induction hs generalizing p with
  | nil => exact .inl ⟨p, rfl, .rfl, by simp⟩
  | cons h hs ih =>
    obtain ⟨n, hn⟩ := H.names h List.mem_cons_self
    rcases run_extend_cases (i := i) hp hn with ⟨q, hr, he, hkeys⟩ | ⟨e, hin, hr⟩
    · have hrest := H.rest (he.le hp) (hkeys.mpr (.inr ⟨rfl, rfl⟩))
      rcases ih (he.wf hp) hrest with ⟨r, hr', he', hkeys'⟩ | ⟨r, k, op, a, hk, hm, hrule, hr'⟩
      · refine .inl ⟨r, (run_bind_ok hr).trans hr', he.trans he', ?_⟩
        intro k j
        rw [hkeys', hkeys, List.mem_cons, or_assoc, ← or_and_right]
      · have hk := List.mem_cons_of_mem h hk
        exact .inr ⟨r, k, op, a, hk, hm.old (he.le hp) (H.names k hk), hrule,
          (run_bind_ok hr).trans hr'⟩
    · cases hin with
      | missing ha hnone => exact absurd (H.first hp hn _ ha) hnone
      | unruled hrule =>
        exact .inr ⟨p, h, _, _, List.mem_cons_self, hn, hrule, run_bind_error hr⟩

theorem agenda_reachable (hp : p.WF) (hh : p.Names h) : Agenda p i (p.reachable [h]) := by
  have hmem {k : Handle} : k ∈ p.reachable [h] ↔ p.Reaches h k :=
    Pool.mem_reachable_singleton hp hh
  exact ⟨fun k hk => (hmem.mp hk).names hp hh, Pool.pairwise_reachable p [h],
    fun k hk n hn a ha => .inl (hmem.mpr ((hmem.mp hk).arg hn ha))⟩

theorem run_differentiate_known (H : p.derivative? h i = some d) :
    (differentiate h i).run p = (.ok d, p) := by
  rw [differentiate, run_get_bind, H]
  exact run_known H

theorem run_differentiate_new (H : p.derivative? h i = none) :
    (differentiate h i).run p =
      ((p.reachable [h]).forM (extend i) >>= fun _ => known h i).run p := by
  rw [differentiate, run_get_bind, H]
  rfl

/-- Unless it is known, the derivative of a root is found along with those of all nodes below it.
Only a step among them prevents that. -/
theorem run_differentiate_cases (hp : p.WF) (hh : p.Names h) :
    (∃ d q, (differentiate h i).run p = (.ok d, q) ∧ p.Evolves q ∧ q.derivative? h i = some d ∧
      (q = p ∨ ∀ {k j}, q.Knows k j ↔ p.Knows k j ∨ p.Reaches h k ∧ j = i)) ∨
      ∃ q k a, p.Reaches h k ∧ p.Holds k (.unary .unitStep a) ∧
        (differentiate h i).run p = (.error (.notDifferentiable .unitStep), q) := by
  cases hd : p.derivative? h i with
  | some d => exact .inl ⟨d, p, run_differentiate_known hd, .rfl, hd, .inl rfl⟩
  | none =>
    have hmem {k : Handle} : k ∈ p.reachable [h] ↔ p.Reaches h k :=
      Pool.mem_reachable_singleton hp hh
    rw [run_differentiate_new hd]
    rcases run_agenda hp (agenda_reachable (i := i) hp hh) with
      ⟨q, hr, he, hkeys⟩ | ⟨q, k, op, a, hk, hn, hrule, hr⟩
    · obtain ⟨d, hd'⟩ : q.Knows h i := hkeys.mpr (.inr ⟨hmem.mpr .rfl, rfl⟩)
      refine .inl ⟨d, q, (run_bind_ok hr).trans (run_known hd'), he, hd', .inr ?_⟩
      intro k j
      rw [hkeys, hmem]
    · cases not_not.mp (mt UnaryOp.rule?_ne_none.mpr (not_not.mpr hrule))
      exact .inr ⟨q, k, a, hmem.mp hk, hn, run_bind_error hr⟩

/-- Where every node below a root has a rule, the derivative of the root is found. -/
theorem run_differentiate (hp : p.WF) (hh : p.Names h)
    (hrule : ∀ {k op a}, p.Reaches h k → p.Holds k (.unary op a) → op.rule? ≠ none) :
    ∃ d q, (differentiate h i).run p = (.ok d, q) ∧ p.Evolves q ∧
      q.derivative? h i = some d := by
  rcases run_differentiate_cases (i := i) hp hh with
    ⟨d, q, hr, he, hd, _⟩ | ⟨_, _, _, hk, hn, _⟩
  · exact ⟨d, q, hr, he, hd⟩
  · exact absurd rfl (hrule hk hn)

/-- Where there is no step below a root, all its derivatives are found. -/
theorem run_gradient (hp : p.WF) (hh : p.Names h) (hs : ¬p.Stepped h) (dim : Nat) :
    ∃ ds q, (gradient h dim).run p = (.ok ds, q) ∧ p.Evolves q ∧
      List.Forall₂ (fun i d => q.derivative? h i = some d) (List.range dim) ds := by
  rw [gradient]
  generalize List.range dim = is
  induction is generalizing p with
  | nil => exact ⟨[], p, rfl, .rfl, .nil⟩
  | cons i is ih =>
    rcases run_differentiate_cases (i := i) hp hh with
      ⟨d, q, hr, he, hd, _⟩ | ⟨_, k, a, hk, hn, _⟩
    · have hle := he.le hp
      obtain ⟨ds, r, hr', he', hds⟩ :=
        ih (he.wf hp) (hh.mono hle) (mt (hh.stepped_iff hp hle).mp hs)
      refine ⟨d :: ds, r, ?_, he.trans he', .cons ((he'.le (he.wf hp)).derivative hd) hds⟩
      rw [List.mapM_cons, run_bind_ok hr, run_bind_ok hr']
      rfl
    · exact absurd ⟨k, a, hk, hn⟩ hs

theorem forM_extend_ensures (hp : p.WF) (hs : List Handle) (h0 : ∀ h ∈ hs, 0 ≤ h) :
    Ensures p (hs.forM (extend i)) fun _ _ => True := by
  induction hs generalizing p with
  | nil => exact .pure trivial
  | cons h hs ih =>
    exact (extend_ensures hp (h0 h List.mem_cons_self)).bind fun hpq _ =>
      ih (hpq.wf hp) fun k hk => h0 k (List.mem_cons_of_mem _ hk)

theorem known_ensures : Ensures p (known h i) fun d q => q.derivative? h i = some d := by
  cases hd : p.derivative? h i with
  | some d => exact .of_run_ok (run_known hd) .rfl hd
  | none => exact .of_run_error (run_known_error hd) .rfl

theorem differentiate_ensures (hp : p.WF) (h0 : 0 ≤ h) (i : Nat) :
    Ensures p (differentiate h i) fun d q => q.derivative? h i = some d := by
  have h0 : ∀ k ∈ [h], 0 ≤ k := by simpa using h0
  refine .get_bind ?_
  split
  · refine .get_bind ((forM_extend_ensures hp _ fun k hk => ?_).bind fun _ _ => known_ensures)
    obtain ⟨r, hr, hn, hrk⟩ := (Pool.mem_reachable_iff hp h0).mp hk
    exact (Pool.names_iff.mp (hrk.names hp hn)).1
  · exact known_ensures

theorem differentiateBy_ensures (hp : p.WF) (h0 : 0 ≤ h) (i : Int) :
    Ensures p (differentiateBy h i) fun d q => q.derivative? h i.toNat = some d := by
  unfold differentiateBy
  split
  · exact .throw
  · exact differentiate_ensures hp h0 _

theorem gradient_ensures (hp : p.WF) (h0 : 0 ≤ h) (dim : Nat) :
    Ensures p (gradient h dim) fun ds q =>
      List.Forall₂ (fun i d => q.derivative? h i = some d) (List.range dim) ds :=
  .mapM _ (fun i _ _ hpq => differentiate_ensures (hpq.wf hp) h0 i)
    fun hpq hd hqr => (hqr.le (hpq.wf hp)).derivative hd

/-! ## Compiling -/

omit [Scalar α] in
theorem run_compile (roots : List Handle) (dim : Nat) :
    (compile roots dim).run p = (p.compile roots dim, p) := by
  rw [compile, run_get_bind]
  cases p.compile roots dim <;> rfl

theorem compile_ensures (roots : List Handle) (dim : Nat) :
    Ensures p (compile roots dim) fun g q => q.compile roots dim = .ok g := by
  cases hg : p.compile roots dim with
  | ok g => exact .of_run_ok ((run_compile ..).trans (by rw [hg])) .rfl hg
  | error e => exact .of_run_error ((run_compile ..).trans (by rw [hg])) .rfl

theorem function_ensures (hp : p.WF) {u : Operand α} (hu : u.All (0 ≤ ·)) (dim : Nat) :
    Ensures p (function dim u) fun f q =>
      0 ≤ f.root ∧ q.compile [f.root] dim = .ok f.program :=
  (expression_ensures hp hu).bind fun _ h0 => (compile_ensures _ _).bind fun _ hg => .pure ⟨h0, hg⟩

theorem compiledGradient_ensures (hp : p.WF) {u : Operand α} (hu : u.All (0 ≤ ·)) (dim : Nat) :
    Ensures p (compiledGradient dim u) fun g q =>
      List.Forall₂ (fun i d => q.derivative? g.root i = some d) (List.range dim) g.partials ∧
        q.compile g.partials dim = .ok g.program := by
  refine (expression_ensures hp hu).bind fun hpq h0 => ?_
  refine (gradient_ensures (hpq.wf hp) h0 dim).bind fun hqr hds => ?_
  refine (compile_ensures _ _).bind fun hrs hg => .pure ⟨?_, hg⟩
  exact hds.imp fun _ _ hd => (hrs.le ((hpq.trans hqr).wf hp)).derivative hd

end Downhill.Build
