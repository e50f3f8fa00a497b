import Downhill.Graph.Compiled
import Downhill.Proofs.Meaning.Interpretation
import Downhill.Proofs.Pool.Differentiation

/-!
# Compiling and running

A program lists the nodes below its roots in ascending order, each with the positions of its
operands (`Pool.Compiles`). Operands come first, so whatever a step needs has been computed when the
run comes to it, and the value at the position of a handle is what the handle evaluates to
(`Compiles.run_eq`). No law of the scalars is used: compiling changes nothing but the order.
-/

namespace Downhill

/-- Either all elements give a result, or the first that does not is the end. -/
theorem mapM_cases (f : β → Except ε γ) (l : List β) :
    (∃ cs, l.mapM f = .ok cs ∧ List.Forall₂ (fun b c => f b = .ok c) l cs) ∨
      ∃ b ∈ l, ∃ e, f b = .error e ∧ l.mapM f = .error e := by
  induction l with
  | nil => exact .inl ⟨[], rfl, .nil⟩
  | cons b l ih =>
    rw [List.mapM_cons]
    cases hb : f b with
    | error e => exact .inr ⟨b, List.mem_cons_self, e, hb, rfl⟩
    | ok c =>
      rcases ih with ⟨cs, he, hcs⟩ | ⟨b', hb', e, he', he⟩
      · rw [he]
        exact .inl ⟨c :: cs, rfl, .cons hb hcs⟩
      · rw [he]
        exact .inr ⟨b', List.mem_cons_of_mem _ hb', e, he', rfl⟩

theorem mapM_eq_ok {f : β → Except ε γ} {l : List β} {cs : List γ} (H : l.mapM f = .ok cs) :
    List.Forall₂ (fun b c => f b = .ok c) l cs := by
  rcases mapM_cases f l with ⟨cs', he, hcs⟩ | ⟨_, _, e, _, he⟩
  · cases H.symm.trans he
    exact hcs
  · cases H.symm.trans he

theorem forall₂_getElem? {R : β → γ → Prop} {l : List β} {m : List γ} {k : Nat}
    (H : List.Forall₂ R l m) (hb : l[k]? = some b) : ∃ c, m[k]? = some c ∧ R b c := by
  induction H generalizing k with
  | nil => cases hb
  | cons hr _ ih =>
    cases k with
    | zero => cases hb; exact ⟨_, rfl, hr⟩
    | succ k => exact ih hb

theorem forall₂_mem {R : β → γ → Prop} {l : List β} {m : List γ} (H : List.Forall₂ R l m)
    (hb : b ∈ l) : ∃ c ∈ m, R b c := by
  obtain ⟨k, hk⟩ := List.mem_iff_getElem?.mp hb
  obtain ⟨c, hc, hr⟩ := forall₂_getElem? H hk
  exact ⟨c, List.mem_of_getElem? hc, hr⟩

/-- The values at a point. -/
def Interpretation.evaluation [Scalar α] (x : Array α) : Interpretation α α where
  number v b := b = v
  var i b := x[i]? = some b
  unary op a b := b = Scalar.unary op a
  binary op a b c := c = Scalar.binary op a b

theorem Interpretation.functional_evaluation [Scalar α] (x : Array α) :
    (evaluation x).Functional where
  number hb hc := hb.trans hc.symm
  var hb hc := Option.some.inj (hb.symm.trans hc)
  unary hb hc := hb.trans hc.symm
  binary hb hc := hb.trans hc.symm

namespace Pool

variable {α : Type} {p : Pool α} {roots : List Handle} {g : Program α} {h a : Handle} {k dim : Nat}

/-! ## Positions -/

/-- The position of a handle in the program of some roots. -/
def position (p : Pool α) (roots : List Handle) (h : Handle) : Nat :=
  (positions (p.reachable roots)).getD h 0

theorem position_eq (hk : (p.reachable roots)[k]? = some h) : p.position roots h = k := by
  refine Std.TreeMap.getD_ofList_of_mem Std.compare_self ?_ (List.mk_mem_zipIdx_iff_getElem?.mpr hk)
  have hdistinct : ((p.reachable roots).zipIdx.map Prod.fst).Pairwise (· < ·) := by
    rw [List.zipIdx_map_fst]
    exact pairwise_reachable p roots
  refine (List.pairwise_map.mp hdistinct).imp ?_
  intro _ _ hlt he
  rw [Std.compare_eq_iff_eq.mp he] at hlt
  exact Int.lt_irrefl _ hlt

/-- What compiling makes of the nodes below some roots. -/
structure Compiles (p : Pool α) (roots : List Handle) (g : Program α) : Prop where
  steps : List.Forall₂ (fun h n => ∃ m, p.Holds h m ∧ n = m.relocate (p.position roots))
    (p.reachable roots) g.steps.toList
  outputs : g.outputs = roots.map (p.position roots)

theorem step_cases (f : Handle → Nat) (n : Node Handle α) :
    n.step dim f = .ok (n.relocate f) ∨
      ∃ i, n = .var i ∧ dim ≤ i ∧ n.step dim f = .error (.variableBeyond i dim) := by
  cases n with
  | var i =>
    rw [Node.step]
    split
    · exact .inl rfl
    · rename_i hi
      exact .inr ⟨i, rfl, Nat.not_lt.mp hi, rfl⟩
  | const | unary | binary => exact .inl rfl

/-- The step of the node at a handle. -/
def stepAt (p : Pool α) (roots : List Handle) (dim : Nat) (h : Handle) :
    Except ExpressionError (Node Nat α) :=
  match p.node? h with
  | some n => n.step dim (p.position roots)
  | none => .error .noSuchNode

theorem compile_eq (p : Pool α) (roots : List Handle) (dim : Nat) :
    p.compile roots dim = (do
      let steps ← (p.reachable roots).mapM (p.stepAt roots dim)
      return { dim, steps := steps.toArray, outputs := roots.map (p.position roots) }) := rfl

variable [Scalar α]

/-- Compiling succeeds unless there is a variable beyond the dimension. -/
theorem compile_cases (hp : p.WF) (h0 : ∀ h ∈ roots, 0 ≤ h) (dim : Nat) :
    (∃ g, p.compile roots dim = .ok g ∧ g.dim = dim ∧ p.Compiles roots g) ∨
      ∃ i h, h ∈ p.reachable roots ∧ p.Holds h (.var i) ∧ dim ≤ i ∧
        p.compile roots dim = .error (.variableBeyond i dim) := by
  have held {h : Handle} (hh : h ∈ p.reachable roots) :
      ∃ n, p.Holds h n ∧ p.stepAt roots dim h = n.step dim (p.position roots) := by
    obtain ⟨r, _, hr, hrh⟩ := (mem_reachable_iff hp h0).mp hh
    obtain ⟨n, hn⟩ := hrh.names hp hr
    exact ⟨n, hn, by rw [stepAt, hn.2]⟩
  rw [compile_eq]
  rcases mapM_cases (p.stepAt roots dim) (p.reachable roots) with
    ⟨ns, he, hns⟩ | ⟨h, hh, e, hhe, he⟩
  · rw [he]
    refine .inl ⟨_, rfl, rfl, ?_, rfl⟩
    refine ((List.forall₂_and_left _ _).mpr ⟨fun h => held, hns⟩).imp ?_
    intro h c ⟨⟨n, hn, hs⟩, hc⟩
    rcases step_cases (p.position roots) n with hs' | ⟨i, _, _, hs'⟩
    · cases (hs.trans hs').symm.trans hc
      exact ⟨n, hn, rfl⟩
    · exact nomatch (hs.trans hs').symm.trans hc
  · rw [he]
    obtain ⟨n, hn, hs⟩ := held hh
    rcases step_cases (p.position roots) n with hs' | ⟨i, rfl, hi, hs'⟩
    · exact nomatch (hs.trans hs').symm.trans hhe
    · cases (hs.trans hs').symm.trans hhe
      exact .inr ⟨i, h, hh, hn, hi, rfl⟩

omit [Scalar α] in
/-- What was compiled has no variables beyond the dimension. -/
theorem compile_var (H : p.compile roots dim = .ok g) (hh : h ∈ p.reachable roots)
    (hn : p.Holds h (.var i)) : i < dim := by
  rw [compile_eq] at H
  cases hm : (p.reachable roots).mapM (p.stepAt roots dim) with
  | error e =>
    rw [hm] at H
    cases H
  | ok ns =>
    obtain ⟨c, _, hc⟩ := forall₂_mem (mapM_eq_ok hm) hh
    rw [stepAt, hn.2] at hc
    by_contra hi
    exact nomatch (if_neg hi).symm.trans hc

/-- Operands come before their users in the order of a program. -/
theorem operand_first (hp : p.WF) (h0 : ∀ h ∈ roots, 0 ≤ h)
    (hk : (p.reachable roots)[k]? = some h) (hn : p.Holds h n) (ha : a ∈ n.args) :
    ∃ j, (p.reachable roots)[j]? = some a ∧ j < k := by
  obtain ⟨r, hr, hnr, hrh⟩ := (mem_reachable_iff hp h0).mp (List.mem_of_getElem? hk)
  have hmem : a ∈ p.reachable roots := (mem_reachable_iff hp h0).mpr ⟨r, hr, hnr, hrh.arg hn ha⟩
  obtain ⟨j, hj⟩ := List.mem_iff_getElem?.mp hmem
  refine ⟨j, hj, Nat.lt_of_not_le ?_⟩
  intro hle
  obtain ⟨hj', rfl⟩ := List.getElem?_eq_some_iff.mp hj
  obtain ⟨hk', rfl⟩ := List.getElem?_eq_some_iff.mp hk
  have hlt := (hp.args_lt hn _ ha).2
  rcases Nat.lt_or_eq_of_le hle with hkj | rfl
  · have hgt := List.pairwise_iff_getElem.mp (pairwise_reachable p roots) k j hk' hj' hkj
    exact Int.lt_asymm hlt hgt
  · exact Int.lt_irrefl _ hlt

namespace Compiles

theorem ordered (H : p.Compiles roots g) (hp : p.WF) (h0 : ∀ h ∈ roots, 0 ≤ h) :
    g.ordered = true := by
  rw [Program.ordered, List.all_eq_true]
  intro ⟨n, k⟩ hk
  rw [List.all_eq_true]
  intro j hj
  obtain ⟨h, hh, m, hm, rfl⟩ :=
    forall₂_getElem? H.steps.flip (List.mk_mem_zipIdx_iff_getElem?.mp hk)
  rw [Node.args_relocate] at hj
  obtain ⟨a, ha, rfl⟩ := List.mem_map.mp hj
  obtain ⟨i, hi, hlt⟩ := operand_first hp h0 hh hm ha
  rw [position_eq hi]
  exact decide_eq_true hlt

theorem admits (H : p.Compiles roots g) (hp : p.WF) (h0 : ∀ h ∈ roots, 0 ≤ h) :
    g.admits g.dim = .ok () := by
  rw [Program.admits, if_neg (not_not_intro rfl), if_pos (H.ordered hp h0)]

end Compiles

/-- What was compiled can be run on points of its dimension, and has a result for each root. -/
theorem compile_admits (hp : p.WF) (h0 : ∀ h ∈ roots, 0 ≤ h) (H : p.compile roots dim = .ok g) :
    g.admits dim = .ok () ∧ g.outputs.length = roots.length := by
  rcases compile_cases hp h0 dim with ⟨g', hg, rfl, hc⟩ | ⟨i, h, _, _, _, he⟩
  · cases H.symm.trans hg
    exact ⟨hc.admits hp h0, by rw [hc.outputs, List.length_map]⟩
  · exact nomatch H.symm.trans he

/-! ## Running -/

variable {x : Array α}

/-- What was computed for an operand is what it evaluates to. -/
theorem operand_value {vs : Array α} {pre post : List Handle} {n : Node Handle α} {v : α}
    (hp : p.WF) (h0 : ∀ h ∈ roots, 0 ≤ h) (horder : p.reachable roots = pre ++ h :: post)
    (hvs : List.Forall₂ (p.Reads (.evaluation x)) pre vs.toList) (hn : p.Holds h n)
    (ha : a ∈ n.args) (hv : p.Reads (.evaluation x) a v) :
    vs.getD (p.position roots a) (Scalar.nat 0) = v := by
  have hk : (p.reachable roots)[pre.length]? = some h := by simp [horder]
  obtain ⟨j, hj, hlt⟩ := operand_first hp h0 hk hn ha
  have hpre : pre[j]? = some a := by rwa [horder, List.getElem?_append_left hlt] at hj
  obtain ⟨w, hw, hread⟩ := forall₂_getElem? hvs hpre
  rw [Array.getElem?_toList] at hw
  rw [position_eq hj, Array.getD_eq_getD_getElem?, hw]
  exact hread.functional (Interpretation.functional_evaluation x) hv

/-- A step computes what the node at its handle evaluates to. -/
theorem value_reads {vs : Array α} {pre post : List Handle} {n : Node Handle α} {v : α}
    (hp : p.WF) (h0 : ∀ h ∈ roots, 0 ≤ h) (horder : p.reachable roots = pre ++ h :: post)
    (hvs : List.Forall₂ (p.Reads (.evaluation x)) pre vs.toList) (hn : p.Holds h n)
    (hv : p.Reads (.evaluation x) h v) :
    g.value .point x vs (n.relocate (p.position roots)) = v := by
  have operand {a : Handle} {b : α} (ha : a ∈ n.args) (hb : p.Reads (.evaluation x) a b) :=
    operand_value hp h0 horder hvs hn ha hb
  cases n with
  | const w => exact (hv.of_const hn).symm
  | var i =>
    have hi : x[i]? = some v := hv.of_var hn
    rw [Node.relocate, Program.value, Array.getD_eq_getD_getElem?, hi]
    rfl
  | unary op a =>
    obtain ⟨b, hb, rfl⟩ := hv.of_unary hn
    rw [Node.relocate, Program.value, operand List.mem_cons_self hb]
  | binary op a b =>
    obtain ⟨u, w, hu, hw, rfl⟩ := hv.of_binary hn
    rw [Node.relocate, Program.value, operand List.mem_cons_self hu,
      operand (List.mem_cons_of_mem _ List.mem_cons_self) hw]
    rfl

theorem foldl_reads {vs : Array α} {pre post : List Handle} {steps : List (Node Nat α)}
    (hp : p.WF) (h0 : ∀ h ∈ roots, 0 ≤ h) (horder : p.reachable roots = pre ++ post)
    (hreads : ∀ h ∈ p.reachable roots, ∃ v, p.Reads (.evaluation x) h v)
    (hsteps : List.Forall₂ (fun h n => ∃ m, p.Holds h m ∧ n = m.relocate (p.position roots))
      post steps)
    (hvs : List.Forall₂ (p.Reads (.evaluation x)) pre vs.toList) :
    List.Forall₂ (p.Reads (.evaluation x)) (p.reachable roots)
      (steps.foldl (fun vs n => vs.push (g.value .point x vs n)) vs).toList := by
  induction hsteps generalizing pre vs with
  | nil => rwa [horder, List.append_nil]
  | @cons h n post steps hn _ ih =>
    obtain ⟨m, hm, rfl⟩ := hn
    obtain ⟨v, hv⟩ := hreads h (by simp [horder])
    rw [List.foldl_cons, value_reads hp h0 horder hvs hm hv]
    have horder' : p.reachable roots = (pre ++ [h]) ++ post := by simp [horder]
    refine ih horder' ?_
    rw [Array.toList_push]
    exact List.rel_append hvs (.cons hv .nil)

namespace Compiles

theorem values_reads (H : p.Compiles roots g) (hp : p.WF) (h0 : ∀ h ∈ roots, 0 ≤ h)
    (hreads : ∀ h ∈ p.reachable roots, ∃ v, p.Reads (.evaluation x) h v) :
    List.Forall₂ (p.Reads (.evaluation x)) (p.reachable roots) (g.values .point x).toList := by
  rw [Program.values, ← Array.foldl_toList]
  exact foldl_reads hp h0 (List.nil_append _).symm hreads H.steps .nil

end Compiles

section

variable {vs : List α} (hp : p.WF) (hvs : List.Forall₂ (p.Reads (.evaluation x)) roots vs)
include hvs

theorem root_reads (hh : h ∈ roots) : ∃ v, p.Reads (.evaluation x) h v := by
  obtain ⟨v, _, hv⟩ := forall₂_mem hvs hh
  exact ⟨v, hv⟩

theorem root_nonneg : ∀ h ∈ roots, 0 ≤ h := fun _ hh =>
  let ⟨_, hv⟩ := root_reads hvs hh; (names_iff.mp hv.names).1

include hp

/-- If the roots can be evaluated, so can all nodes below them. -/
theorem below_reads : ∀ h ∈ p.reachable roots, ∃ v, p.Reads (.evaluation x) h v := fun _ hh =>
  let ⟨_, hr, _, hrh⟩ := (mem_reachable_iff hp (root_nonneg hvs)).mp hh
  let ⟨_, hv⟩ := root_reads hvs hr
  hv.reaches hrh

/-- Running gives what the roots evaluate to. -/
theorem Compiles.run_eq (H : p.Compiles roots g) : g.run .point x = vs := by
  have h0 := root_nonneg hvs
  have hvalue {h : Handle} {v : α} (hh : h ∈ roots) (hv : p.Reads (.evaluation x) h v) :
      (g.values .point x).getD (p.position roots h) (Scalar.nat 0) = v := by
    have hmem := (mem_reachable_iff hp h0).mpr ⟨h, hh, hv.names, .rfl⟩
    obtain ⟨k, hk⟩ := List.mem_iff_getElem?.mp hmem
    obtain ⟨w, hw, hread⟩ := forall₂_getElem? (H.values_reads hp h0 (below_reads hp hvs)) hk
    rw [Array.getElem?_toList] at hw
    rw [position_eq hk, Array.getD_eq_getD_getElem?, hw]
    exact hread.functional (Interpretation.functional_evaluation x) hv
  rw [Program.run, H.outputs, List.map_map, ← List.forall₂_eq_eq_eq, List.forall₂_map_left_iff]
  exact ((List.forall₂_and_left _ _).mpr ⟨fun _ => id, hvs⟩).imp fun h v hv => hvalue hv.1 hv.2

/-- Roots that can be evaluated at a point are compiled to a program that evaluates them. -/
theorem compile_run :
    ∃ g, p.compile roots x.size = .ok g ∧ g.admits x.size = .ok () ∧ g.run .point x = vs := by
  have h0 := root_nonneg hvs
  rcases compile_cases hp h0 x.size with ⟨g, hg, hdim, H⟩ | ⟨i, h, hh, hn, hi, _⟩
  · exact ⟨g, hg, hdim ▸ H.admits hp h0, H.run_eq hp hvs⟩
  · obtain ⟨w, hw⟩ := below_reads hp hvs h hh
    have hiw : x[i]? = some w := hw.of_var hn
    exact absurd hi (Nat.not_le.mpr (Array.getElem?_eq_some_iff.mp hiw).1)

end

end Pool

/-! ## Compiled expressions -/

section

variable {α : Type} [Scalar α] {x : Array α}

theorem CompiledFunction.apply_eq {f : CompiledFunction α}
    (hadmits : f.program.admits x.size = .ok ()) :
    f.apply x = .ok ((f.program.run .point x).headD (Scalar.nat 0)) := by
  rw [apply, hadmits]
  rfl

theorem CompiledGradient.apply_eq {g : CompiledGradient α}
    (hadmits : g.program.admits x.size = .ok ()) :
    g.apply x = .ok (g.program.run .point x).toArray := by
  rw [apply, hadmits]
  rfl

end

namespace Build

variable {α : Type} [Scalar α] {p q : Pool α} {x : Array α} {u : Operand α} {v : α}

/-- A compiled function has the value that its expression evaluates to. -/
theorem run_function (hr : (expression u).run p = (.ok h, q)) (hq : q.WF)
    (hv : q.Reads (.evaluation x) h v) :
    ∃ f, (function x.size u).run p = (.ok f, q) ∧ f.apply x = .ok v := by
  obtain ⟨g, hg, hadmits, hrun⟩ := Pool.compile_run hq (.cons hv .nil)
  have hc : (compile [h] x.size).run q = (.ok g, q) := by rw [run_compile, hg]
  refine ⟨⟨h, g⟩, (run_bind_ok hr).trans (run_bind_ok hc), ?_⟩
  rw [CompiledFunction.apply_eq hadmits, hrun]
  rfl

theorem run_function_apply {f : CompiledFunction α} (hp : p.WF)
    (hr : (function x.size (.expression h)).run p = (.ok f, q))
    (hv : p.Reads (.evaluation x) h v) : f.apply x = .ok v := by
  obtain ⟨f', hf, hx⟩ := run_function (u := .expression h) rfl hp hv
  cases hr.symm.trans hf
  exact hx

/-- A compiled gradient has the values that the derivatives evaluate to. -/
theorem run_compiledGradient_apply {ds : List Handle} {vs : List α} (hq : q.WF)
    (hr : (gradient h x.size).run p = (.ok ds, q))
    (hvs : List.Forall₂ (q.Reads (.evaluation x)) ds vs) :
    ∃ g, (compiledGradient x.size (.expression h)).run p = (.ok g, q) ∧ g.partials = ds ∧
      g.apply x = .ok vs.toArray := by
  have hroot : (expression (.expression h)).run p = (.ok h, p) := rfl
  obtain ⟨g, hg, hadmits, hrun⟩ := Pool.compile_run hq hvs
  refine ⟨⟨h, ds, g⟩, ?_, rfl, (CompiledGradient.apply_eq hadmits).trans (by rw [hrun])⟩
  rw [compiledGradient, run_bind_ok hroot, run_bind_ok hr]
  exact run_bind_ok ((run_compile ..).trans (by rw [hg]))

end Build

end Downhill
