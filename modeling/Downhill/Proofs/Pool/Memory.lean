import Downhill.Proofs.Pool.History
import Downhill.Scalar.Double

/-!
# Remembered derivatives of whole runs

What the memory of every reached pool looks like (`Reached.memory`), whatever was differentiated in
it and whether that succeeded: with a node all its operands are known (`Closed`), so no derivative
that a rule asks for is ever missing, a derivative stays what it is, and taking one makes known the
nodes below its root and nothing else. Only a step among them keeps it from being taken
(`Build.run_differentiateBy_error_iff`), however much is remembered: a node above a step is never
known, because with a node all that is below it would be.
-/

namespace Downhill

namespace Pool

variable {α : Type} [Scalar α] {p q : Pool α} {h k a d : Handle} {i j : Nat}
  {n : Node Handle α} {r : Handle × Pool α}

/-! ## Closed memories -/

theorem Derives.knows_args (H : p.Derives i n r) : ∀ a ∈ n.args, p.Knows a i := by
  intro a ha
  cases H with
  | const | var => exact nomatch ha
  | unary hda =>
    cases List.mem_singleton.mp ha
    exact ⟨_, hda⟩
  | binary hda hdb =>
    rcases List.mem_cons.mp ha with rfl | ha
    · exact ⟨_, hda⟩
    · cases List.mem_singleton.mp ha
      exact ⟨_, hdb⟩

theorem Derives.rule?_ne_none (H : p.Derives i (.unary op a) r) : op.rule? ≠ none := by
  cases H with
  | unary _ hrule => exact fun hnone => nomatch hnone.symm.trans hrule

/-- With a node its operands are known, and it has a rule. -/
structure Closed (p : Pool α) : Prop where
  args : ∀ {h i n}, p.Knows h i → p.Holds h n → ∀ a ∈ n.args, p.Knows a i
  ruled : ∀ {h i op a}, p.Knows h i → p.Holds h (.unary op a) → op.rule? ≠ none

/-- What makes a memory closed, said of one derivative. -/
def ClosedAt (p : Pool α) (h : Handle) (i : Nat) (_d : Handle) : Prop :=
  (∀ {n}, p.Holds h n → ∀ a ∈ n.args, p.Knows a i) ∧
    ∀ {op a}, p.Holds h (.unary op a) → op.rule? ≠ none

theorem inherited_closedAt : Inherited (ClosedAt (α := α)) where
  mono H _ hle hh :=
    ⟨fun hn a ha => (H.1 (hn.old hle hh) a ha).mono hle, fun hn => H.2 (hn.old hle hh)⟩
  derives {p h i n r} hp _ hn hd := by
    have hle := (hd.yields hp hn).grows.le
    have same {m} (hm : r.2.Holds h m) : m = n := hm.unique (hn.mono hle)
    constructor
    · intro m hm a ha
      cases same hm
      exact (hd.knows_args a ha).mono hle
    · intro op a hm
      cases same hm
      exact hd.rule?_ne_none

theorem Reached.closed (H : p.Reached) : p.Closed where
  args hk hn := let ⟨_, hd⟩ := hk; (H.inherits inherited_closedAt hd).1 hn
  ruled hk hn := let ⟨_, hd⟩ := hk; (H.inherits inherited_closedAt hd).2 hn

omit [Scalar α] in
/-- Below a node that is known all nodes are known. -/
theorem Closed.reaches (H : p.Closed) (hr : p.Reaches h k) (hk : p.Knows h i) : p.Knows k i := by
  induction hr with
  | rfl => exact hk
  | step hn ha _ ih => exact ih (H.args hk hn _ ha)

omit [Scalar α] in
/-- A node above a step is never known. -/
theorem Closed.not_knows (H : p.Closed) (hs : p.Stepped h) (i : Nat) : ¬p.Knows h i := by
  obtain ⟨k, a, hk, hn⟩ := hs
  intro hknows
  exact H.ruled (H.reaches hk hknows) hn rfl

end Pool

namespace Build

variable {α : Type} [Scalar α] {p q : Pool α} {h k d : Handle} {i j : Nat}

/-! ## What a call makes known -/

/-- A derivative is found together with those of all nodes below, and no others. -/
theorem run_differentiate_knows (hp : p.WF) (hc : p.Closed) (hh : p.Names h)
    (hr : (differentiate h i).run p = (.ok d, q)) :
    q.Knows k j ↔ p.Knows k j ∨ p.Reaches h k ∧ j = i := by
  rcases run_differentiate_cases (i := i) hp hh with
    ⟨d', q', hr', _, hd, rfl | hkeys⟩ | ⟨_, _, _, _, _, hr'⟩
  · cases hr.symm.trans hr'
    refine ⟨.inl, ?_⟩
    rintro (hk | ⟨hk, rfl⟩)
    · exact hk
    · exact hc.reaches hk ⟨d, hd⟩
  · cases hr.symm.trans hr'
    exact hkeys
  · exact nomatch hr.symm.trans hr'

theorem run_differentiateBy_ofNat (h : Handle) (i : Nat) :
    (differentiateBy h i : Build α Handle) = differentiate h i :=
  if_neg (Int.not_lt.mpr (Int.natCast_nonneg i))

/-- Only a step keeps a call from finding a derivative. -/
theorem run_differentiate_error (hp : p.WF) (hh : p.Names h)
    (hr : (differentiate h i).run p = (.error e, q)) : e = .notDifferentiable .unitStep := by
  rcases run_differentiate_cases (i := i) hp hh with
    ⟨_, _, hr', _⟩ | ⟨_, _, _, _, _, hr'⟩
  · exact nomatch hr.symm.trans hr'
  · cases hr.symm.trans hr'
    rfl

theorem run_gradient_error (hp : p.WF) (hh : p.Names h) {dim : Nat}
    (hr : (gradient h dim).run p = (.error e, q)) : e = .notDifferentiable .unitStep := by
  rw [gradient] at hr
  generalize List.range dim = is at hr
  induction is generalizing p with
  | nil => cases hr
  | cons i is ih =>
    rw [List.mapM_cons] at hr
    rcases hd : (differentiate h i).run p with ⟨e' | d, r⟩
    · cases (run_bind_error hd).symm.trans hr
      exact run_differentiate_error hp hh hd
    · have he := ((differentiate_ensures hp (Pool.names_iff.mp hh).1 i).run_ok hd).1
      have hrest := (run_bind_ok hd).symm.trans hr
      rcases hds : (is.mapM (differentiate h)).run r with ⟨e' | ds, s⟩
      · cases (run_bind_error hds).symm.trans hrest
        exact ih (he.wf hp) (hh.mono (he.le hp)) hds
      · cases (run_bind_ok hds).symm.trans hrest

/-! ## Refused calls -/

theorem reached_differentiate (H : p.Reached) (hh : p.Names h)
    (hr : (differentiate h i).run p = (.ok d, q)) : q.Reached := by
  rw [← run_differentiateBy_ofNat] at hr
  exact run_snd hr ▸ H.call (.differentiate h i) (Pool.names_iff.mp hh).1

/-- Steps are what keeps a derivative from being found, and the only thing that does. -/
theorem run_differentiateBy_error_iff (H : p.Reached) (hh : p.Names h) :
    (∃ q, (differentiateBy h i).run p = (.error e, q)) ↔
      p.Stepped h ∧ e = .notDifferentiable .unitStep := by
  rw [run_differentiateBy_ofNat]
  rcases run_differentiate_cases (i := i) H.wf hh with
    ⟨d, q, hr, he, hd, _⟩ | ⟨q, k, a, hk, hn, hr⟩
  · have hq : q.Reached := reached_differentiate H hh hr
    constructor
    · rintro ⟨r, hr'⟩
      cases hr.symm.trans hr'
    · rintro ⟨hs, _⟩
      have hs := (hh.stepped_iff H.wf (he.le H.wf)).mpr hs
      exact absurd ⟨d, hd⟩ (hq.closed.not_knows hs i)
  · constructor
    · rintro ⟨r, hr'⟩
      cases hr.symm.trans hr'
      exact ⟨⟨k, a, hk, hn⟩, rfl⟩
    · rintro ⟨_, rfl⟩
      exact ⟨q, hr⟩

theorem run_differentiateBy_ok_iff (H : p.Reached) (hh : p.Names h) :
    (∃ d q, (differentiateBy h i).run p = (.ok d, q)) ↔ ¬p.Stepped h := by
  rcases hr : (differentiateBy h i).run p with ⟨e | d, q⟩
  · have hs := ((run_differentiateBy_error_iff H hh).mp ⟨q, hr⟩).1
    constructor
    · rintro ⟨d, r, hr'⟩
      cases hr'
    · exact fun hns => absurd hs hns
  · constructor
    · intro _ hs
      obtain ⟨r, hr'⟩ := (run_differentiateBy_error_iff (i := i) H hh).mpr ⟨hs, rfl⟩
      cases hr.symm.trans hr'
    · exact fun _ => ⟨d, q, rfl⟩

theorem differentiateBy_leads (h0 : 0 ≤ h) (hr : (differentiateBy h i).run p = (v, q)) :
    p.Leads q := by
  have hq : (Call.differentiate h i).after p = q := congrArg Prod.snd hr
  exact hq ▸ .call .rfl (.differentiate h i) h0

end Build

namespace Pool

variable {α : Type} [Scalar α] {p : Pool α}

/-! ## Memories -/

/-- What a pool remembers, and what becomes of it. -/
structure Memory (p : Pool α) : Prop where
  named : ∀ {h i d}, p.derivative? h i = some d → p.Names h ∧ p.Names d
  closed : ∀ {h i n}, p.Knows h i → p.Holds h n → ∀ a ∈ n.args, p.Knows a i
  /-- The derivative of an operand is never found missing. -/
  complete : ∀ {h}, p.Names h →
    (∀ i q, (Build.differentiateBy h i).run p ≠ (.error .derivativeMissing, q)) ∧
      ∀ dim q, (Build.gradient h dim).run p ≠ (.error .derivativeMissing, q)
  /-- Whatever calls follow, successful or not, a derivative stays what it is. -/
  kept : ∀ {q h i d}, p.Leads q → p.derivative? h i = some d → q.derivative? h i = some d
  added : ∀ {h i d q}, p.Names h → (Build.differentiateBy h i).run p = (.ok d, q) →
    ∀ k j, q.Knows k j ↔ p.Knows k j ∨ p.Reaches h k ∧ (j : Int) = i
  unruled : ∀ {h i a}, p.Holds h (.unary .unitStep a) → ¬p.Knows h i

theorem Reached.memory (H : p.Reached) : p.Memory where
  named := H.wf.derivative
  closed := H.closed.args
  complete {h} hh := by
    constructor
    · intro i q hr
      rw [Build.differentiateBy] at hr
      split at hr
      · cases hr
      · cases Build.run_differentiate_error H.wf hh hr
    · intro dim q hr
      cases Build.run_gradient_error H.wf hh hr
  kept hq hd := (hq.le H.wf).derivative hd
  added {h i d q} hh hr k j := by
    rw [Build.differentiateBy] at hr
    split at hr
    · cases hr
    · rename_i hi
      have hj : (j : Int) = i ↔ j = i.toNat := by omega
      rw [Build.run_differentiate_knows H.wf H.closed hh hr, hj]
  unruled hn hk := H.closed.ruled hk hn rfl

/-- The product of a logarithm and a step has no derivative, but what was found on the way is
known. -/
theorem memory_product :
    ∃ p : Pool Float, p.Memory ∧ p.Knows 2 0 ∧ ¬p.Knows 3 0 ∧ ¬p.Knows 4 0 := by
  have hvars := Reached.empty.call (α := Float) (.vars 2) trivial
  have hlog := hvars.call (.apply .log (.expression 0)) (Int.natCast_nonneg 0)
  have hstep := hlog.call (.apply .unitStep (.expression 1)) (Int.natCast_nonneg 1)
  have hmul := hstep.call (.combine .mul (.expression 2) (.expression 3))
    ⟨Int.natCast_nonneg 2, Int.natCast_nonneg 3⟩
  have hfailed := hmul.call (.differentiate 4 0) (Int.natCast_nonneg 4)
  refine ⟨_, hfailed.memory, ?_, ?_, ?_⟩
  · exact Option.isSome_iff_exists.mp (by decide +kernel)
  · exact not_knows_iff.mpr (by decide +kernel)
  · exact not_knows_iff.mpr (by decide +kernel)

end Pool

end Downhill
