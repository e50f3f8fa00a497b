import Downhill.Graph.Compiled
import Downhill.Proofs.Pool.Differentiation
import Downhill.Proofs.Pool.Reduction

/-!
# Live handles

A handle is live if a pool can follow it, from whichever end it counts. In an intact pool all
operands and all remembered derivatives are live, and no builder breaks it, whatever handles it is
given (`Pool.Lasts`). No order of the nodes is needed for that: nodes may even refer to themselves.
What comes of a builder is live too, so whoever holds handles of a pool may go on with them.
-/

namespace Downhill

namespace Pool

variable {α : Type} {p q r : Pool α} {h a b d : Handle} {n m : Node Handle α} {i : Nat}

def Live (p : Pool α) (h : Handle) : Prop := ∃ n, p.node? h = some n

theorem live_iff {h : Int} : p.Live h ↔ -(p.size : Int) ≤ h ∧ h < p.size := by
  cases h with
  | ofNat k =>
    rw [Live, Int.ofNat_eq_natCast, node?_ofNat, ← Option.isSome_iff_exists]
    simp only [isSome_getElem?, size]
    omega
  | negSucc k =>
    have hplace : p.node? (Int.negSucc k) =
      (if k < p.size then some (p.size - 1 - k) else none).bind (p.nodes[·]?) := rfl
    rw [Live, hplace, ← Option.isSome_iff_exists]
    split
    · rw [Option.bind_some, isSome_getElem?]
      simp only [size] at *
      omega
    · simp only [Option.bind_none, Option.isSome_none, Bool.false_eq_true, false_iff]
      omega

theorem mem_of_node? (H : p.node? h = some n) : n ∈ p.nodes := by
  obtain ⟨k, _, hk⟩ := Option.bind_eq_some_iff.mp H
  exact Array.mem_of_getElem? hk

theorem Live.mono {h : Int} (H : p.Live h) (hle : p.size ≤ q.size) : q.Live h := by
  have hh := live_iff.mp H
  exact live_iff.mpr ⟨by omega, by omega⟩

/-- A pool in which no handle leads nowhere, and whose table lists its nodes. -/
structure Intact (p : Pool α) : Prop where
  indexed : p.Indexed
  args : ∀ n ∈ p.nodes, ∀ a ∈ n.args, p.Live a
  derivatives : ∀ {h i d}, p.derivative? h i = some d → p.Live d

theorem Intact.empty : (.empty : Pool α).Intact where
  indexed := .empty
  args n hn := absurd hn (Array.not_mem_empty n)
  derivatives hd := nomatch derivative?_empty.symm.trans hd

/-- The pool that comes next is intact and no smaller. -/
structure Lasts (p q : Pool α) : Prop where
  intact : q.Intact
  size : p.size ≤ q.size

instance : Progress (Lasts (α := α)) where
  trans H H' := ⟨H'.intact, Nat.le_trans H.size H'.size⟩
  rest H := ⟨H.intact, Nat.le_refl _⟩

theorem Intact.rest (H : p.Intact) : p.Lasts p := ⟨H, Nat.le_refl _⟩

theorem Live.lasts (H : p.Live h) (hpq : p.Lasts q) : q.Live h := H.mono hpq.size

theorem Intact.push [Scalar α] (H : p.Intact) (hnew : p.find? n = none)
    (hn : ∀ a ∈ n.args, p.Live a) : (p.push n).Intact where
  indexed := H.indexed.push hnew
  args m hm a ha := by
    rcases Array.mem_push.mp hm with hm | rfl
    · exact (H.args m hm a ha).mono size_le_push
    · exact (hn a ha).mono size_le_push
  derivatives hd := (H.derivatives hd).mono size_le_push

theorem Intact.remember (H : p.Intact) (hd : p.Live d) : (p.remember h i d).Intact where
  indexed := H.indexed
  args := H.args
  derivatives {k j e} he := by
    rw [derivative?_remember] at he
    split at he
    · cases he
      exact hd
    · exact H.derivatives he

/-! ## Constructors -/

/-- A live handle of a pool that comes next. -/
structure Gives (p : Pool α) (r : Handle × Pool α) : Prop where
  lasts : p.Lasts r.2
  live : r.2.Live r.1

theorem Gives.after (hpq : p.Lasts q) (H : q.Gives s) : p.Gives s :=
  ⟨Progress.trans hpq H.lasts, H.live⟩

theorem Gives.self (hp : p.Intact) (hh : p.Live h) : p.Gives (h, p) := ⟨hp.rest, hh⟩

variable [Scalar α]

theorem Intact.intern (H : p.Intact) (hn : ∀ a ∈ n.args, p.Live a) : p.Gives (p.intern n) := by
  rcases intern_cases H.indexed n with ⟨k, m, hm, _, he⟩ | ⟨hnew, he⟩
  · rw [he]
    exact .self H ⟨m, hm.2⟩
  · rw [he]
    exact ⟨⟨H.push hnew hn, size_le_push⟩, _, holds_push_self.2⟩

theorem Intact.constant (H : p.Intact) (v : α) : p.Gives (p.constant v) :=
  H.intern (by simp [Node.args])

theorem Intact.var (H : p.Intact) (i : Nat) : p.Gives (p.var i) := H.intern (by simp [Node.args])

theorem Intact.unary (H : p.Intact) (op : UnaryOp) (ha : p.Live a) : p.Gives (p.unary op a) := by
  unfold Pool.unary
  split
  · exact H.constant _
  · rename_i b hb
    exact .self H (H.args _ (mem_of_node? hb) b (by simp [Node.args]))
  · exact H.intern (by simpa [Node.args] using ha)

theorem Intact.binary (H : p.Intact) (op : BinaryOp) (ha : p.Live a) (hb : p.Live b) :
    p.Gives (p.binary op a b) := by
  rw [binary_eq]
  cases op.reduction (p.constant? a) (p.constant? b) with
  | left => exact .self H ha
  | right => exact .self H hb
  | negated => exact H.unary .neg hb
  | number v => exact H.constant v
  | node => exact H.intern (by simpa [Node.args] using ⟨ha, hb⟩)

end Pool

/-! ## Formulas -/

theorem Formula.build_gives {ι α : Type} [Scalar α] {arg tangent : ι → Handle} {p : Pool α}
    (hp : p.Intact) (f : Formula ι) (ha : ∀ i, p.Live (arg i)) (ht : ∀ i, p.Live (tangent i)) :
    p.Gives (f.build arg tangent p) := by
  induction f generalizing p with
  | arg i => exact .self hp (ha i)
  | tangent i => exact .self hp (ht i)
  | num n => exact hp.constant _
  | unary op a ih =>
    have H := ih hp ha ht
    exact .after H.lasts (H.lasts.intact.unary op H.live)
  | binary op a b iha ihb =>
    rcases build_binary arg tangent op a b p with ⟨n, rfl, he⟩ | he
    · rw [he]
      have H := ihb hp ha ht
      have Hc := H.lasts.intact.constant (Scalar.nat n)
      exact .after H.lasts
        (.after Hc.lasts (Hc.lasts.intact.binary op Hc.live (H.live.lasts Hc.lasts)))
    · rw [he]
      have Ha := iha hp ha ht
      have Hb := ihb Ha.lasts.intact (fun i => (ha i).lasts Ha.lasts) fun i => (ht i).lasts Ha.lasts
      exact .after Ha.lasts (.after Hb.lasts
        (Hb.lasts.intact.binary op (Ha.live.lasts Hb.lasts) Hb.live))

namespace Build

variable {α β : Type} {p q : Pool α} {h a b d : Handle} {i : Nat}

/-! ## Builders -/

/-- What a builder does to an intact pool. -/
abbrev Leaves (p : Pool α) (b : Build α β) (Q : β → Pool α → Prop) : Prop := Runs Pool.Lasts p b Q

theorem quiet_node (h : Handle) : Quiet (node h : Build α (Node Handle α)) := by
  refine .bind .get fun p => ?_
  split
  · exact .pure _
  · exact .throw _

theorem node_leaves (hp : p.Intact) (h : Handle) :
    Leaves p (node h) fun n q => ∀ a ∈ n.args, q.Live a := by
  cases hn : p.node? h with
  | none =>
    refine .of_error (e := .noSuchNode) ?_ hp.rest
    rw [node, run_get_bind, hn]
    rfl
  | some n =>
    refine .of_ok (v := n) ?_ hp.rest (hp.args n (Pool.mem_of_node? hn))
    rw [node, run_get_bind, hn]
    rfl

/-- A handle is looked up only to see that it is live. -/
theorem run_live {f : Unit → Build α β} (H : p.Live h) :
    (discard (node h) >>= f).run p = (f ()).run p := by
  obtain ⟨n, hn⟩ := H
  refine run_bind_of_ok (run_bind_of_ok (v := n) ?_)
  rw [node, run_get_bind, hn]
  rfl

theorem run_not_live {f : Unit → Build α β} (H : ¬p.Live h) :
    (discard (node h) >>= f).run p = (.error .noSuchNode, p) := by
  have hnone : p.node? h = none := Option.eq_none_iff_forall_not_mem.mpr fun n hn => H ⟨n, hn⟩
  refine run_bind_of_error (run_bind_of_error ?_)
  rw [node, run_get_bind, hnone]
  rfl

theorem live_leaves {f : Unit → Build α β} (hp : p.Intact) (H : p.Live h → Leaves p (f ()) Q) :
    Leaves p (discard (node h) >>= f) Q := by
  by_cases hh : p.Live h
  · have Hf := H hh
    exact ⟨by rw [run_live hh]; exact Hf.leads, by rw [run_live hh]; exact Hf.result⟩
  · exact .of_error (run_not_live hh) hp.rest

theorem modify_leaves {f : Pool α → Handle × Pool α} (H : p.Gives (f p)) :
    Leaves p (modifyGet f : Build α Handle) fun h q => q.Live h := .of_ok rfl H.lasts H.live

variable [Scalar α]

theorem constant_leaves (hp : p.Intact) (v : α) : Leaves p (constant v) fun h q => q.Live h :=
  modify_leaves (hp.constant v)

theorem var_leaves (hp : p.Intact) (i : Int) : Leaves p (var i) fun h q => q.Live h := by
  unfold var
  split
  · exact .throw hp.rest
  · exact modify_leaves (hp.var _)

theorem unary_leaves (hp : p.Intact) (op : UnaryOp) (a : Handle) :
    Leaves p (unary op a) fun h q => q.Live h :=
  live_leaves hp fun ha => modify_leaves (hp.unary op ha)

theorem binary_leaves (hp : p.Intact) (op : BinaryOp) (a b : Handle) :
    Leaves p (binary op a b) fun h q => q.Live h :=
  live_leaves hp fun ha => live_leaves hp fun hb => modify_leaves (hp.binary op ha hb)

theorem unaryNamed_leaves (hp : p.Intact) (name : String) (a : Handle) :
    Leaves p (unaryNamed name a) fun h q => q.Live h := by
  unfold unaryNamed
  split
  · exact .throw hp.rest
  · exact .throw hp.rest
  · exact unary_leaves hp _ a

theorem binaryNamed_leaves (hp : p.Intact) (name : String) (a b : Handle) :
    Leaves p (binaryNamed name a b) fun h q => q.Live h := by
  unfold binaryNamed
  split
  · exact .throw hp.rest
  · exact .throw hp.rest
  · exact binary_leaves hp _ a b

theorem vars_leaves (hp : p.Intact) (dim : Int) :
    Leaves p (vars dim) fun hs q => ∀ h ∈ hs, q.Live h := by
  unfold vars
  split
  · exact .throw hp.rest
  · rw [Array.mapM_eq_mapM_toList]
    refine Runs.bind (.mapM _ hp.rest (fun i _ q hq => var_leaves hq.intact i) .lasts)
      fun hq hs => ?_
    exact .pure (Progress.rest hq) (by simpa using hs)

/-! ## Operands -/

variable {u v : Operand α}

theorem lift_leaves (hp : p.Intact) (hu : u.All p.Live) :
    Leaves p (lift u) fun h q => q.Live h := by
  cases u with
  | expression h => exact .pure hp.rest hu
  | number v => exact constant_leaves hp v
  | foreign | tooLarge | other => exact .throw hp.rest

theorem expression_leaves (hp : p.Intact) (hu : u.All p.Live) :
    Leaves p (expression u) fun h q => q.Live h := by
  cases u with
  | expression h => exact .pure hp.rest hu
  | number v => exact constant_leaves hp v
  | foreign | tooLarge | other => exact .throw hp.rest

theorem combine_leaves (hp : p.Intact) (op : BinaryOp) (hu : u.All p.Live) (hv : v.All p.Live) :
    Leaves p (combine op u v) fun h q => q.Live h :=
  (lift_leaves hp hu).bind fun hpq _ =>
    (lift_leaves hpq.intact (hv.imp fun hh => hh.lasts hpq)).bind fun hqr _ =>
      binary_leaves hqr.intact op _ _

/-! ## Derivatives and compiled functions -/

omit [Scalar α] in
theorem known_leaves (hp : p.Intact) (h : Handle) (i : Nat) :
    Leaves p (known h i) fun d q => q.Live d := by
  cases hd : p.derivative? h i with
  | none => exact .of_error (run_known_error hd) hp.rest
  | some d => exact .of_ok (run_known hd) hp.rest (hp.derivatives hd)

theorem derive_leaves (hp : p.Intact) (h : Handle) (i : Nat) :
    Leaves p (derive h i) fun d q => q.Live d := by
  refine (node_leaves hp h).bind fun hpq hargs => ?_
  have hq := hpq.intact
  split
  · exact constant_leaves hq _
  · exact constant_leaves hq _
  · refine (known_leaves hq _ i).bind fun hqr hda => ?_
    split
    · refine modify_leaves (Formula.build_gives hqr.intact _ (fun _ => ?_) fun _ => hda)
      exact (hargs _ List.mem_cons_self).lasts hqr
    · exact .throw (Progress.rest hqr)
  · refine (known_leaves hq _ i).bind fun hqr hda => ?_
    refine (known_leaves hqr.intact _ i).bind fun hrs hdb => ?_
    have hqs := Progress.trans hqr hrs
    refine .get_bind (modify_leaves (Formula.build_gives hrs.intact _ ?_ ?_))
    · exact Side.forall.mpr ⟨(hargs _ List.mem_cons_self).lasts hqs,
        (hargs _ (List.mem_cons_of_mem _ List.mem_cons_self)).lasts hqs⟩
    · exact Side.forall.mpr ⟨hda.lasts hrs, hdb⟩

theorem extend_leaves (hp : p.Intact) (i : Nat) (h : Handle) :
    Leaves p (extend i h) fun _ _ => True := by
  refine .get_bind ?_
  split
  · refine (derive_leaves hp h i).bind fun hpq hd => ?_
    exact .of_ok rfl ⟨hpq.intact.remember hd, Nat.le_refl _⟩ trivial
  · exact .pure hp.rest trivial

theorem forM_extend_leaves (hp : p.Intact) (i : Nat) (hs : List Handle) :
    Leaves p (hs.forM (extend i)) fun _ _ => True := by
  induction hs generalizing p with
  | nil => exact .pure hp.rest trivial
  | cons h hs ih =>
    exact (extend_leaves hp i h).bind fun hpq _ => ih hpq.intact

theorem differentiate_leaves (hp : p.Intact) (h : Handle) (i : Nat) :
    Leaves p (differentiate h i) fun d q => q.Live d := by
  refine .get_bind ?_
  split
  · exact .get_bind ((forM_extend_leaves hp i _).bind fun hq _ => known_leaves hq.intact h i)
  · exact known_leaves hp h i

theorem differentiateBy_leaves (hp : p.Intact) (h : Handle) (i : Int) :
    Leaves p (differentiateBy h i) fun d q => q.Live d := by
  unfold differentiateBy
  split
  · exact .throw hp.rest
  · exact differentiate_leaves hp h _

theorem gradient_leaves (hp : p.Intact) (h : Handle) (dim : Nat) :
    Leaves p (gradient h dim) fun ds q => ∀ d ∈ ds, q.Live d :=
  .mapM _ hp.rest (fun i _ _ hq => differentiate_leaves hq.intact h i) .lasts

omit [Scalar α] in
theorem quiet_compile (roots : List Handle) (dim : Nat) :
    Quiet (compile roots dim : Build α (Program α)) := fun p => by rw [run_compile]

theorem function_leaves (hp : p.Intact) (hu : u.All p.Live) (dim : Nat) :
    Leaves p (function dim u) fun _ _ => True := by
  refine (expression_leaves hp hu).bind fun hq _ => ?_
  refine Runs.bind (Q := fun _ _ => True)
    (.of_quiet (quiet_compile _ _) (Progress.rest hq) fun _ => trivial) fun hr _ => ?_
  exact .pure (Progress.rest hr) trivial

theorem compiledGradient_leaves (hp : p.Intact) (hu : u.All p.Live) (dim : Nat) :
    Leaves p (compiledGradient dim u) fun _ _ => True := by
  refine (expression_leaves hp hu).bind fun hq _ => ?_
  refine (gradient_leaves hq.intact _ dim).bind fun hr _ => ?_
  refine Runs.bind (Q := fun _ _ => True)
    (.of_quiet (quiet_compile _ _) (Progress.rest hr) fun _ => trivial) fun hs _ => ?_
  exact .pure (Progress.rest hs) trivial

end Build

/-! ## Programs of one constant -/

namespace Pool

variable {α : Type} {p : Pool α} {h : Handle}

end Pool

/-! ## Failures -/

namespace Build

variable {α : Type} {p : Pool α} {a b : Handle} [Scalar α] {u v : Operand α}

theorem atomic_binary (p : Pool α) (op : BinaryOp) (a b : Handle) : Atomic p (binary op a b) :=
  .bind (.bind (quiet_node a) fun _ => .pure _) fun _ _ =>
    .bind (.bind (quiet_node b) fun _ => .pure _) fun _ _ => .of_ok rfl

theorem run_mapM_var (is : List Nat) (p : Pool α) :
    ∃ hs q, (is.mapM fun i : Nat => (var i : Build α Handle)).run p = (.ok hs, q) := by
  induction is generalizing p with
  | nil => exact ⟨[], p, rfl⟩
  | cons i is ih =>
    have hvar : (var (i : Int)).run p = (.ok (p.var i).1, (p.var i).2) := by
      rw [var, if_neg (Int.not_lt.mpr (Int.natCast_nonneg i))]
      rfl
    obtain ⟨hs, q, hr⟩ := ih (p.var i).2
    refine ⟨(p.var i).1 :: hs, q, ?_⟩
    rw [List.mapM_cons, run_bind_ok hvar, run_bind_ok hr]
    rfl

/-- Variables can be had in every pool. -/
theorem run_vars (p : Pool α) {dim : Int} (hdim : 1 ≤ dim) :
    ∃ hs q, (vars dim).run p = (.ok hs, q) := by
  obtain ⟨hs, q, hr⟩ := run_mapM_var (List.range dim.toNat) p
  refine ⟨hs.toArray, q, ?_⟩
  rw [vars, if_neg (Int.not_lt.mpr hdim), Array.mapM_eq_mapM_toList, Array.toList_range]
  exact run_bind_ok hr

theorem run_binary_live (op : BinaryOp) (ha : p.Live a) (hb : p.Live b) :
    ∃ h q, (binary op a b).run p = (.ok h, q) :=
  ⟨_, _, (run_live ha).trans (run_live hb)⟩

/-- Between operands of which one is an expression, nothing fails once the other was lifted. -/
theorem atomic_combine (hp : p.Intact) (op : BinaryOp) (hu : u.All p.Live) (hv : v.All p.Live)
    (h : (∃ a, u = .expression a) ∨ ∃ b, v = .expression b) : Atomic p (combine op u v) := by
  have lifted (w : α) := hp.constant w
  cases u with
  | expression a =>
    refine .bind (.pure a) fun a' ha' => ?_
    cases ha'
    cases v with
    | expression b => exact .bind (.pure b) fun b' _ => atomic_binary p op a b'
    | number w =>
      refine .bind_ok (.of_ok rfl) fun k q hr => ?_
      cases hr
      exact run_binary_live op (hu.lasts (lifted w).lasts) (lifted w).live
    | foreign | tooLarge | other => exact .bind (.throw _) fun _ hr => by cases hr
  | number w =>
    obtain ⟨b, rfl⟩ := h.resolve_left fun ⟨a, ha⟩ => by cases ha
    refine .bind_ok (.of_ok rfl) fun k q hr => ?_
    cases hr
    exact run_binary_live op (lifted w).live (hv.lasts (lifted w).lasts)
  | foreign | tooLarge | other => exact .bind (.throw _) fun _ hr => by cases hr

end Build

end Downhill
