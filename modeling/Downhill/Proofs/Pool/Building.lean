import Mathlib.Data.List.Forall2
import Downhill.Graph.Compiled
import Downhill.Graph.Term
import Downhill.Proofs.Pool.Evolution
import Downhill.Proofs.Pool.Reachability
import Downhill.Proofs.Pool.Runs

/-!
# What building does to a pool

`Build.Ensures p b Q` says that `b`, begun with the pool `p`, lets it evolve whether it succeeds or
not, and that `Q` holds of its result and the new pool if it does succeed. There is one lemma for
each builder; the rule for sequences is `Ensures.bind`. Handles are taken to be positions, and all
else that can be wrong with them is found out by the builders themselves.
-/

namespace Downhill

namespace Build

/-! ## Runs -/

section

variable {α β γ : Type} {p q : Pool α} {b : Build α β} {f : β → Build α γ}

theorem run_bind_ok (H : b.run p = (.ok v, q)) : (b >>= f).run p = (f v).run q :=
  run_bind_of_ok H

theorem run_bind_error (H : b.run p = (.error e, q)) : (b >>= f).run p = (.error e, q) :=
  run_bind_of_error H

theorem run_bind_eq_ok (H : (b >>= f).run p = (.ok w, r)) :
    ∃ v q, b.run p = (.ok v, q) ∧ (f v).run q = (.ok w, r) := by
  rcases hb : b.run p with ⟨e | v, q⟩
  · exact nomatch (run_bind_error hb).symm.trans H
  · exact ⟨v, q, rfl, (run_bind_ok hb).symm.trans H⟩

theorem run_discard (H : b.run p = (.ok v, q)) : (discard b).run p = (.ok (), q) :=
  run_bind_ok H

theorem run_snd (H : b.run p = (.ok v, q)) : (b.run p).2 = q := by rw [H]

theorem run_get_bind {f : Pool α → Build α β} : (get >>= f).run p = (f p).run p := rfl

end

section

variable {α : Type} {p : Pool α}

theorem run_node (H : p.Holds h n) : (node h).run p = (.ok n, p) := by
  rw [node, run_get_bind, H.2]
  rfl

theorem run_node_error (h0 : 0 ≤ h) (H : ¬p.Names h) :
    (node h).run p = (.error .noSuchNode, p) := by
  have hnone : p.node? h = none := Option.eq_none_iff_forall_not_mem.mpr fun n hn => H ⟨n, h0, hn⟩
  rw [node, run_get_bind, hnone]
  rfl

/-- A handle is looked up only to see that it names a node. -/
theorem run_checked {f : Unit → Build α β} (H : p.Names h) :
    (discard (node h) >>= f).run p = (f ()).run p := by
  obtain ⟨n, hn⟩ := H
  exact run_bind_ok (run_discard (run_node hn))

variable [Scalar α]

theorem run_unary (op : UnaryOp) (ha : p.Names a) :
    (unary op a).run p = (.ok (p.unary op a).1, (p.unary op a).2) :=
  run_checked ha

theorem run_binary (op : BinaryOp) (ha : p.Names a) (hb : p.Names b) :
    (binary op a b).run p = (.ok (p.binary op a b).1, (p.binary op a b).2) :=
  (run_checked ha).trans (run_checked hb)

end

/-! ## Evolution of a pool -/

/-- What a builder does, begun with a given pool. -/
structure Ensures {α β : Type} [Scalar α] (p : Pool α) (b : Build α β)
    (Q : β → Pool α → Prop) : Prop where
  evolves : p.Evolves (b.run p).2
  result : ∀ {v}, (b.run p).1 = .ok v → Q v (b.run p).2

namespace Ensures

variable {α β γ : Type} [Scalar α] {p : Pool α} {b : Build α β} {f : β → Build α γ}
  {Q Q' : β → Pool α → Prop} {R : γ → Pool α → Prop}

theorem of_run_ok (H : b.run p = (.ok v, q)) (he : p.Evolves q) (hv : Q v q) :
    Ensures p b Q := by
  refine ⟨by rwa [H], ?_⟩
  intro w hw
  rw [H] at hw ⊢
  cases hw
  exact hv

theorem of_run_error (H : b.run p = (.error e, q)) (he : p.Evolves q) : Ensures p b Q := by
  refine ⟨by rwa [H], ?_⟩
  intro w hw
  rw [H] at hw
  cases hw

theorem pure (H : Q v p) : Ensures p (Pure.pure v) Q := of_run_ok rfl .rfl H

theorem throw : Ensures p (throw e : Build α β) Q := of_run_error rfl .rfl

theorem run_ok (H : Ensures p b Q) (hr : b.run p = (.ok v, q)) : p.Evolves q ∧ Q v q := by
  have he := H.evolves
  have hv := H.result (v := v)
  rw [hr] at he hv
  exact ⟨he, hv rfl⟩

theorem run_error (H : Ensures p b Q) (hr : b.run p = (.error e, q)) : p.Evolves q := by
  have he := H.evolves
  rwa [hr] at he

theorem imp (H : Ensures p b Q) (hQ : ∀ {v q}, p.Evolves q → Q v q → Q' v q) : Ensures p b Q' :=
  ⟨H.evolves, fun hv => hQ H.evolves (H.result hv)⟩

theorem bind (H : Ensures p b Q) (H' : ∀ {v q}, p.Evolves q → Q v q → Ensures q (f v) R) :
    Ensures p (b >>= f) R := by
  rcases hb : b.run p with ⟨e | v, q⟩
  · exact of_run_error (run_bind_error hb) (H.run_error hb)
  · obtain ⟨he, hv⟩ := H.run_ok hb
    have Hf := H' he hv
    rcases hf : (f v).run q with ⟨e | w, r⟩
    · exact of_run_error ((run_bind_ok hb).trans hf) (he.trans (Hf.run_error hf))
    · obtain ⟨he', hw⟩ := Hf.run_ok hf
      exact of_run_ok ((run_bind_ok hb).trans hf) (he.trans he') hw

theorem get_bind {f : Pool α → Build α γ} (H : Ensures p (f p) R) : Ensures p (get >>= f) R :=
  ⟨H.evolves, H.result⟩

theorem mapM {δ : Type} {f : δ → Build α β} {Q : δ → β → Pool α → Prop} (l : List δ)
    (H : ∀ x ∈ l, ∀ {q}, p.Evolves q → Ensures q (f x) (Q x))
    (hQ : ∀ {x v q r}, p.Evolves q → Q x v q → q.Evolves r → Q x v r) :
    Ensures p (l.mapM f) fun vs q => List.Forall₂ (Q · · q) l vs := by
  induction l generalizing p with
  | nil => exact pure .nil
  | cons x l ih =>
    rw [List.mapM_cons]
    refine (H x List.mem_cons_self .rfl).bind fun hpq hv => ?_
    refine (ih (fun y hy r hr => H y (List.mem_cons_of_mem _ hy) (hpq.trans hr))
      fun hr => hQ (hpq.trans hr)).bind fun hqr hvs => ?_
    exact pure (.cons (hQ hpq hv hqr) hvs)

end Ensures

/-! ## Constructors -/

variable {α β : Type} [Scalar α] {p q : Pool α}

theorem checked_ensures {f : Unit → Build α β} (h0 : 0 ≤ a)
    (H : p.Names a → Ensures p (f ()) Q) : Ensures p (discard (node a) >>= f) Q := by
  by_cases ha : p.Names a
  · have Hf := H ha
    exact ⟨by rw [run_checked ha]; exact Hf.evolves, by rw [run_checked ha]; exact Hf.result⟩
  · exact .of_run_error (run_bind_error (run_bind_error (run_node_error h0 ha))) .rfl

theorem yields_ensures {f : Pool α → Handle × Pool α} (H : p.Yields (f p)) :
    Ensures p (modifyGet f : Build α Handle) fun h q => q.Names h :=
  .of_run_ok rfl (.ofGrows H.grows) H.names

theorem constant_ensures (hp : p.WF) (v : α) : Ensures p (constant v) fun h q => q.Names h :=
  yields_ensures (Pool.constant_yields hp.indexed v)

theorem var_ensures (hp : p.WF) (i : Int) :
    Ensures p (var i) fun h q => q.Holds h (.var i.toNat) := by
  unfold var
  split
  · exact .throw
  · exact .of_run_ok rfl (.ofGrows (Pool.var_yields hp.indexed _).grows)
      (Pool.holds_var hp.indexed _)

theorem unary_ensures (hp : p.WF) (op : UnaryOp) (h0 : 0 ≤ a) :
    Ensures p (unary op a) fun h q => q.Names h :=
  checked_ensures h0 fun ha => yields_ensures (Pool.unary_yields hp op ha)

theorem binary_ensures (hp : p.WF) (op : BinaryOp) (ha : 0 ≤ a) (hb : 0 ≤ b) :
    Ensures p (binary op a b) fun h q => q.Names h :=
  checked_ensures ha fun ha => checked_ensures hb fun hb =>
    yields_ensures (Pool.binary_yields hp op ha hb)

theorem unaryNamed_ensures (hp : p.WF) (name : String) (h0 : 0 ≤ a) :
    Ensures p (unaryNamed name a) fun h q => q.Names h := by
  unfold unaryNamed
  split
  · exact .throw
  · exact .throw
  · exact unary_ensures hp _ h0

theorem binaryNamed_ensures (hp : p.WF) (name : String) (ha : 0 ≤ a) (hb : 0 ≤ b) :
    Ensures p (binaryNamed name a b) fun h q => q.Names h := by
  unfold binaryNamed
  split
  · exact .throw
  · exact .throw
  · exact binary_ensures hp _ ha hb

theorem vars_ensures (hp : p.WF) (dim : Int) :
    Ensures p (vars dim) fun hs q =>
      List.Forall₂ (fun i h => q.Holds h (.var i)) (List.range dim.toNat) hs.toList := by
  unfold vars
  split
  · exact .throw
  · rw [Array.mapM_eq_mapM_toList, Array.toList_range]
    have hall : Ensures p ((List.range dim.toNat).mapM fun i : Nat => var i) fun hs q =>
        List.Forall₂ (fun i h => q.Holds h (.var i)) (List.range dim.toNat) hs :=
      .mapM _ (fun i _ q hpq => var_ensures (hpq.wf hp) i) fun hpq hv hqr =>
        hv.mono (hqr.le (hpq.wf hp))
    exact hall.bind fun _ hs => .pure hs

/-! ## Operands -/

end Build

/-- What is asked of the handle of an operand, if it has one. -/
def Operand.All (P : Handle → Prop) : Operand α → Prop
  | .expression h => P h
  | _ => True

theorem Operand.All.imp {P Q : Handle → Prop} {u : Operand α} (H : u.All P)
    (hPQ : ∀ {h}, P h → Q h) : u.All Q := by
  cases u <;> first | exact hPQ H | trivial

theorem Operand.All.nonneg {p : Pool α} {u : Operand α} (H : u.All p.Names) : u.All (0 ≤ ·) :=
  H.imp fun h => (Pool.names_iff.mp h).1

namespace Build

variable {α : Type} [Scalar α] {p : Pool α} {u v : Operand α}

theorem lift_ensures (hp : p.WF) (hu : u.All (0 ≤ ·)) :
    Ensures p (lift u) fun h _ => 0 ≤ h := by
  cases u with
  | expression h => exact .pure hu
  | number v => exact (constant_ensures hp v).imp fun _ hh => (Pool.names_iff.mp hh).1
  | foreign | tooLarge | other => exact .throw

theorem expression_ensures (hp : p.WF) (hu : u.All (0 ≤ ·)) :
    Ensures p (expression u) fun h _ => 0 ≤ h := by
  cases u with
  | expression h => exact .pure hu
  | number v => exact (constant_ensures hp v).imp fun _ hh => (Pool.names_iff.mp hh).1
  | foreign | tooLarge | other => exact .throw

theorem combine_ensures (hp : p.WF) (op : BinaryOp) (hu : u.All (0 ≤ ·)) (hv : v.All (0 ≤ ·)) :
    Ensures p (combine op u v) fun h q => q.Names h :=
  (lift_ensures hp hu).bind fun hpq ha => (lift_ensures (hpq.wf hp) hv).bind fun hqr hb =>
    binary_ensures ((hpq.trans hqr).wf hp) op ha hb

theorem apply_ensures (hp : p.WF) (op : UnaryOp) (hu : u.All (0 ≤ ·)) :
    Ensures p (u.apply op) fun w q => w.All q.Names := by
  cases u with
  | number v => exact .pure trivial
  | expression | foreign | tooLarge | other =>
    exact (lift_ensures hp hu).bind fun hpq ha =>
      (unary_ensures (hpq.wf hp) op ha).bind fun _ hh => .pure hh

theorem operand_combine_ensures (hp : p.WF) (op : BinaryOp) (hu : u.All (0 ≤ ·))
    (hv : v.All (0 ≤ ·)) : Ensures p (u.combine op v) fun w q => w.All q.Names := by
  have H : Ensures p (combine op u v >>= fun h => pure (.expression h) : Build α (Operand α))
      fun w q => w.All q.Names :=
    (combine_ensures hp op hu hv).bind fun _ hh => .pure hh
  cases u <;> cases v <;> first | exact H | exact .pure trivial

end Build

end Downhill
