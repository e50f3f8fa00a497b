import Mathlib.Data.Set.Insert
import Downhill.Proofs.Meaning.Execution
import Downhill.Proofs.Meaning.Soundness
import Downhill.Proofs.Pool.History
import Downhill.Scalar.Double

/-!
# Variables below a node

The variables of a node are a reading of it that no simplification can add to, and a rule mentions
nothing but the operands of a node and their derivatives. So a derivative has no variables that its
node does not have (`Reached.support`), whoever built it and whatever else is in the pool. Compiling
looks at nothing else: where a function can be compiled, so can its gradient (`gradient_compiles`).
-/

namespace Downhill

/-- The variables a node is built from. -/
def Interpretation.support : Interpretation α (Set Nat) where
  number _ s := s = ∅
  var i s := s = {i}
  unary _ s t := t = s
  binary _ s t u := u = s ∪ t
  le s t := t ⊆ s

namespace Interpretation

theorem total_support : (support : Interpretation α (Set Nat)).Total :=
  ⟨fun _ => ⟨_, rfl⟩, fun _ => ⟨_, rfl⟩, fun _ _ => ⟨_, rfl⟩, fun _ _ _ => ⟨_, rfl⟩⟩

theorem standIn_support (v : α) (s : Set Nat) : support.StandIn v s :=
  ⟨∅, rfl, Set.empty_subset s⟩

theorem support_left {s t u : Set Nat}
    (H : (support : Interpretation α (Set Nat)).binary op s t u) : s ⊆ u :=
  H ▸ Set.subset_union_left

theorem support_right {s t u : Set Nat}
    (H : (support : Interpretation α (Set Nat)).binary op s t u) : t ⊆ u :=
  H ▸ Set.subset_union_right

theorem lawful_support [Scalar α] : (support : Interpretation α (Set Nat)).Lawful where
  refl {a} := Set.Subset.refl a
  trans h h' := Set.Subset.trans h' h
  unary_mono {_ _ b _} hc hle := ⟨b, rfl, hc ▸ hle⟩
  binary_mono {_ _ _ b b' _} hc hle hle' := ⟨b ∪ b', rfl, hc ▸ Set.union_subset_union hle hle'⟩
  equal _ _ := standIn_support _ _
  unary_number _ _ := standIn_support _ _
  binary_number _ _ _ := standIn_support _ _
  neg_neg hb hc := (hc.trans hb).ge
  zero_add _ := support_right
  add_zero _ := support_left
  sub_zero _ := support_left
  zero_sub {_ a _} _ hc := ⟨a, rfl, support_right hc⟩
  zero_mul _ _ := standIn_support _ _
  mul_zero _ _ := standIn_support _ _
  one_mul _ := support_right
  mul_one _ := support_left
  div_one _ := support_left
  zero_div _ _ := standIn_support _ _
  pow_one _ := support_left
  pow_zero _ _ := standIn_support _ _

end Interpretation

/-- A formula has no variables but those of the operands and their derivatives. -/
theorem Formula.reads_support {α : Type} [Scalar α] (f : Formula ι) (s : Set Nat) :
    ∃ t ⊆ s, f.Reads (.support : Interpretation α (Set Nat)) (fun _ => s) (fun _ => s) t := by
  induction f with
  | arg i => exact ⟨s, Set.Subset.rfl, .arg i⟩
  | tangent i => exact ⟨s, Set.Subset.rfl, .tangent i⟩
  | num n => exact ⟨∅, Set.empty_subset s, .num rfl⟩
  | unary op f ih =>
    obtain ⟨t, ht, hf⟩ := ih
    exact ⟨t, ht, .unary hf rfl⟩
  | binary op f g ihf ihg =>
    obtain ⟨t, ht, hf⟩ := ihf
    obtain ⟨u, hu, hg⟩ := ihg
    exact ⟨t ∪ u, Set.union_subset ht hu, .binary hf hg rfl⟩

namespace Pool

variable {α : Type} {p q : Pool α} {h k d : Handle} {i j dim : Nat} {s : Set Nat}

/-! ## Variables of nodes -/

/-- The variables below a node that is none are those below its operands. -/
theorem Holds.var_below_iff (hn : p.Holds h n) (hvar : ∀ i, n ≠ .var i) :
    (∃ k, p.Reaches h k ∧ p.Holds k (.var j)) ↔
      ∃ a ∈ n.args, ∃ k, p.Reaches a k ∧ p.Holds k (.var j) := by
  constructor
  · rintro ⟨k, hk, hj⟩
    cases hk with
    | rfl => exact absurd (hn.unique hj) (hvar j)
    | step hm ha hk =>
      cases hn.unique hm
      exact ⟨_, ha, k, hk, hj⟩
  · rintro ⟨a, ha, k, hk, hj⟩
    exact ⟨k, .step hn ha hk, hj⟩

theorem Reads.mem_support (H : p.Reads .support h s) :
    j ∈ s ↔ ∃ k, p.Reaches h k ∧ p.Holds k (.var j) := by
  induction H with
  | const hn hs =>
    rw [hn.var_below_iff (by simp), hs]
    simp [Node.args]
  | @var h i _ hn hs =>
    rw [hs, Set.mem_singleton_iff]
    constructor
    · rintro rfl
      exact ⟨h, .rfl, hn⟩
    · rintro ⟨k, hk, hj⟩
      cases hk.of_leaf hn rfl
      cases hn.unique hj
      rfl
  | unary hn _ hs ih =>
    rw [hn.var_below_iff (by simp), hs, ih]
    simp [Node.args]
  | binary hn _ _ hs iha ihb =>
    rw [hn.var_below_iff (by simp), hs, Set.mem_union, iha, ihb]
    simp [Node.args]

variable [Scalar α]

/-- A variable has one node only. -/
theorem WF.var_unique (hp : p.WF) (hh : p.Holds h (.var i)) (hk : p.Holds k (.var i)) : h = k := by
  have hsame : (Node.var i : Node Handle α).same (.var i) = true := beq_self_eq_true i
  rcases Int.lt_trichotomy h k with hlt | rfl | hlt
  · exact nomatch hsame.symm.trans (hp.new hh hk hlt)
  · rfl
  · exact nomatch hsame.symm.trans (hp.new hk hh hlt)

/-! ## Variables of derivatives -/

/-- The variables of a derivative are among those of its node. -/
def SupportAt (p : Pool α) (h : Handle) (_i : Nat) (d : Handle) : Prop :=
  ∀ {s}, p.Reads .support h s → p.Means .support d s

theorem inherited_supportAt : Inherited (SupportAt (α := α)) where
  mono H hp hle hh _ hs := (H (hs.old hp hle hh)).mono hle
  derives {p h i n r} hp hP hn hd s hs := by
    have L : (Interpretation.support : Interpretation α (Set Nat)).Lawful :=
      Interpretation.lawful_support
    replace hs := hs.old hp (hd.yields hp hn).grows.le hn.names
    -- the operands and their derivatives have no variables beyond those of the node
    have built {ι : Type} {arg tangent : ι → Handle} (rule : Formula ι)
        (harg : ∀ i, p.Means .support (arg i) s)
        (htangent : ∀ i, p.Means .support (tangent i) s) :
        (rule.build arg tangent p).2.Means .support (rule.build arg tangent p).1 s := by
      obtain ⟨t, ht, hrule⟩ := rule.reads_support (α := α) s
      exact (Formula.kept L.kept hp harg htangent hrule).below L ht
    cases hd with
    | const | var => exact means_standIn L hp (Interpretation.standIn_support _ s)
    | unary hda =>
      obtain ⟨t, ht, rfl⟩ := hs.of_unary hn
      exact built _ (fun _ => ht.means L) fun _ => hP hda ht
    | binary hda hdb =>
      obtain ⟨t, u, ht, hu, hs⟩ := hs.of_binary hn
      have hts := Interpretation.support_left hs
      have hus := Interpretation.support_right hs
      exact built _ (Side.forall.mpr ⟨(ht.means L).below L hts, (hu.means L).below L hus⟩)
        (Side.forall.mpr ⟨(hP hda ht).below L hts, (hP hdb hu).below L hus⟩)

/-- Every variable below a remembered derivative is below its node. -/
theorem Reached.support (H : p.Reached) (hd : p.derivative? h i = some d) (hk : p.Reaches d k)
    (hj : p.Holds k (.var j)) : p.Reaches h k := by
  obtain ⟨s, hs⟩ := H.wf.reads Interpretation.total_support (H.wf.derivative hd).1
  obtain ⟨t, ht, hle⟩ := H.inherits inherited_supportAt hd hs
  obtain ⟨l, hl, hj'⟩ := hs.mem_support.mp (hle (ht.mem_support.mpr ⟨k, hk, hj⟩))
  cases H.wf.var_unique hj hj'
  exact hl

theorem Reached.differentiateBy_support (H : p.Reached) (hh : p.Names h) {i : Int}
    (hr : (Build.differentiateBy h i).run p = (.ok d, q)) (hk : q.Reaches d k)
    (hj : q.Holds k (.var j)) : p.Reaches h k ∧ p.Holds k (.var j) := by
  have h0 : 0 ≤ h := (names_iff.mp hh).1
  obtain ⟨he, hd⟩ := (Build.differentiateBy_ensures H.wf h0 i).run_ok hr
  have hq : q.Reached := Build.run_snd hr ▸ H.call (.differentiate h i) h0
  have hk := (hq.support hd hk hj).old H.wf (he.le H.wf) hh
  exact ⟨hk, hj.old (he.le H.wf) (hk.names H.wf hh)⟩

/-! ## What keeps a node from being compiled -/

/-- A variable below the node is not a coordinate of a point with so many. -/
def Exceeds (p : Pool α) (h : Handle) (dim i : Nat) : Prop :=
  ∃ k, p.Reaches h k ∧ p.Holds k (.var i) ∧ dim ≤ i

theorem Exceeds.old (H : q.Exceeds h dim i) (hp : p.WF) (hle : p ≤ q) (hh : p.Names h) :
    p.Exceeds h dim i := by
  obtain ⟨k, hk, hi, hdim⟩ := H
  have hk := hk.old hp hle hh
  exact ⟨k, hk, hi.old hle (hk.names hp hh), hdim⟩

/-- What exceeds the dimension below a derivative does so below its node. -/
theorem Reached.exceeds (H : p.Reached) (hd : p.derivative? h i = some d)
    (hj : p.Exceeds d dim j) : p.Exceeds h dim j := by
  obtain ⟨k, hk, hj, hdim⟩ := hj
  exact ⟨k, H.support hd hk hj, hj, hdim⟩

/-! ## Compiling -/

/-- Variables beyond the dimension are what keeps nodes from being compiled. -/
theorem WF.compile_ok_iff (hp : p.WF) {roots : List Handle} (hroots : ∀ h ∈ roots, p.Names h) :
    (∃ g, p.compile roots dim = .ok g) ↔ ∀ h ∈ roots, ∀ i, ¬p.Exceeds h dim i := by
  have h0 : ∀ h ∈ roots, 0 ≤ h := fun h hh => (names_iff.mp (hroots h hh)).1
  constructor
  · rintro ⟨g, hg⟩ h hh i ⟨k, hk, hi, hdim⟩
    have hmem := (mem_reachable_iff hp h0).mpr ⟨h, hh, hroots h hh, hk⟩
    exact absurd (compile_var hg hmem hi) (Nat.not_lt.mpr hdim)
  · intro H
    rcases compile_cases hp h0 dim with ⟨g, hg, _⟩ | ⟨i, k, hk, hi, hdim, _⟩
    · exact ⟨g, hg⟩
    · obtain ⟨h, hh, _, hk⟩ := (mem_reachable_iff hp h0).mp hk
      exact absurd ⟨k, hk, hi, hdim⟩ (H h hh i)

theorem WF.compile_error (hp : p.WF) {roots : List Handle} (hroots : ∀ h ∈ roots, p.Names h)
    (H : p.compile roots dim = .error e) :
    ∃ h ∈ roots, ∃ i, p.Exceeds h dim i ∧ e = .variableBeyond i dim := by
  have h0 : ∀ h ∈ roots, 0 ≤ h := fun h hh => (names_iff.mp (hroots h hh)).1
  rcases compile_cases hp h0 dim with ⟨g, hg, _⟩ | ⟨i, k, hk, hi, hdim, he⟩
  · cases H.symm.trans hg
  · obtain ⟨h, hh, _, hk⟩ := (mem_reachable_iff hp h0).mp hk
    cases H.symm.trans he
    exact ⟨h, hh, i, ⟨k, hk, hi, hdim⟩, rfl⟩

end Pool

namespace Build

variable {α : Type} [Scalar α] {p q : Pool α} {h : Handle} {dim : Nat}

theorem run_function_expression (h : Handle) (dim : Nat) :
    (function dim (.expression h)).run p = ((p.compile [h] dim).map (⟨h, ·⟩), p) := by
  have hroot : (expression (.expression h)).run p = (.ok h, p) := rfl
  rw [function, run_bind_ok hroot]
  cases hg : p.compile [h] dim with
  | ok g => exact run_bind_ok ((run_compile ..).trans (by rw [hg]))
  | error e => exact run_bind_error ((run_compile ..).trans (by rw [hg]))

/-- A function is compiled unless a variable below its root exceeds the dimension. -/
theorem run_function_ok_iff (hp : p.WF) (hh : p.Names h) :
    (∃ f q, (function dim (.expression h)).run p = (.ok f, q)) ↔ ∀ i, ¬p.Exceeds h dim i := by
  have hiff : (∃ g, p.compile [h] dim = .ok g) ↔ ∀ k ∈ [h], ∀ i, ¬p.Exceeds k dim i :=
    hp.compile_ok_iff (by simpa using hh)
  rw [List.forall_mem_singleton] at hiff
  rw [← hiff, run_function_expression]
  constructor
  · rintro ⟨f, q, hf⟩
    cases hg : p.compile [h] dim with
    | ok g => exact ⟨g, rfl⟩
    | error e => rw [hg] at hf; cases hf
  · rintro ⟨g, hg⟩
    exact ⟨_, _, by rw [hg]; rfl⟩

theorem run_function_error (hp : p.WF) (hh : p.Names h)
    (hr : (function dim (.expression h)).run p = (.error e, q)) :
    ∃ i, p.Exceeds h dim i ∧ e = .variableBeyond i dim := by
  rw [run_function_expression] at hr
  cases hg : p.compile [h] dim with
  | ok g => rw [hg] at hr; cases hr
  | error e' =>
    rw [hg] at hr
    cases hr
    obtain ⟨_, hk, H⟩ := hp.compile_error (by simpa using hh) hg
    cases List.mem_singleton.mp hk
    exact H

theorem run_function_refused_iff (hp : p.WF) (hh : p.Names h) :
    (∃ i q, (function dim (.expression h)).run p = (.error (.variableBeyond i dim), q)) ↔
      ∃ i, p.Exceeds h dim i := by
  constructor
  · rintro ⟨i, q, hr⟩
    obtain ⟨j, hj, _⟩ := run_function_error hp hh hr
    exact ⟨j, hj⟩
  · rintro ⟨i, hi⟩
    rcases hr : (function dim (.expression h)).run p with ⟨e | f, q⟩
    · obtain ⟨j, _, rfl⟩ := run_function_error hp hh hr
      exact ⟨j, q, rfl⟩
    · exact absurd hi ((run_function_ok_iff hp hh).mp ⟨f, q, hr⟩ i)

/-- The gradient is compiled where the function would be, unless there is a step. -/
theorem run_compiledGradient (H : p.Reached) (hh : p.Names h) (hs : ¬p.Stepped h)
    (hdim : ∀ i, ¬p.Exceeds h dim i) :
    ∃ g q, (compiledGradient dim (.expression h)).run p = (.ok g, q) ∧ q.Reached ∧
      g.partials.length = dim ∧ (∀ d ∈ g.partials, q.Names d) ∧
      q.compile g.partials dim = .ok g.program := by
  obtain ⟨ds, q, hr, he, hds⟩ := run_gradient H.wf hh hs dim
  have hq : q.Reached := run_snd hr ▸ H.call (.gradient h dim) (Pool.names_iff.mp hh).1
  have hderivative : ∀ d ∈ ds, ∃ i, q.derivative? h i = some d := by
    intro d hd
    obtain ⟨i, _, hi⟩ := forall₂_mem hds.flip hd
    exact ⟨i, hi⟩
  have hnames : ∀ d ∈ ds, q.Names d := fun d hd =>
    let ⟨_, hi⟩ := hderivative d hd; (hq.wf.derivative hi).2
  have hcompile : ∀ d ∈ ds, ∀ j, ¬q.Exceeds d dim j := by
    intro d hd j hj
    obtain ⟨_, hi⟩ := hderivative d hd
    exact hdim j ((hq.exceeds hi hj).old H.wf (he.le H.wf) hh)
  obtain ⟨g, hg⟩ := (hq.wf.compile_ok_iff hnames).mpr hcompile
  have hroot : (expression (.expression h)).run p = (.ok h, p) := rfl
  refine ⟨⟨h, ds, g⟩, q, ?_, hq, ?_, hnames, hg⟩
  · rw [compiledGradient, run_bind_ok hroot, run_bind_ok hr]
    exact run_bind_ok ((run_compile ..).trans (by rw [hg]))
  · rw [← hds.length_eq, List.length_range]

end Build

/-! ## Calling -/

section

variable {α : Type} [Scalar α] {p q r : Pool α} {h : Handle} {dim : Nat} {x : Array α}

theorem CompiledFunction.call_ok {f : CompiledFunction α} (hp : p.WF) (h0 : 0 ≤ h)
    (H : p.compile [h] dim = .ok f.program) (hx : x.size = dim) :
    ∃ v, f.call (.ofVector x) = .ok v := by
  cases hx
  have hadmits := (Pool.compile_admits hp (by simpa using h0) H).1
  exact ⟨_, (if_pos rfl).trans (apply_eq hadmits)⟩

theorem CompiledGradient.call_ok {g : CompiledGradient α} (hp : p.WF)
    (hroots : ∀ d ∈ g.partials, p.Names d) (H : p.compile g.partials dim = .ok g.program)
    (hx : x.size = dim) : ∃ ds, g.call (.ofVector x) = .ok ds ∧ ds.size = g.partials.length := by
  cases hx
  have h0 : ∀ d ∈ g.partials, 0 ≤ d := fun d hd => (Pool.names_iff.mp (hroots d hd)).1
  obtain ⟨hadmits, hlength⟩ := Pool.compile_admits hp h0 H
  refine ⟨_, (if_pos rfl).trans (apply_eq hadmits), ?_⟩
  rw [List.size_toArray, Program.run, List.length_map, hlength]

/-- A compiled function and its gradient, both defined at all points of a dimension. -/
structure Callable (f : CompiledFunction α) (g : CompiledGradient α) (dim : Nat) : Prop where
  length : g.partials.length = dim
  call : ∀ x : Array α, x.size = dim →
    ∃ v ds, f.call (.ofVector x) = .ok v ∧ g.call (.ofVector x) = .ok ds ∧ ds.size = dim

/-- Once a function is compiled, its gradient can be, at any time. -/
theorem Build.gradient_follows {f : CompiledFunction α} (H : p.Reached) (hh : p.Names h)
    (hr : (function dim (.expression h)).run p = (.ok f, q)) (hs : ¬p.Stepped h) (hqr : q.Leads r) :
    ∃ g s, (compiledGradient dim (.expression h)).run r = (.ok g, s) ∧ Callable f g dim := by
  have h0 : (Operand.expression h : Operand α).All (0 ≤ ·) := (Pool.names_iff.mp hh).1
  have hdim := (run_function_ok_iff H.wf hh).mp ⟨f, q, hr⟩
  obtain ⟨he, hroot, hf⟩ := (function_ensures H.wf h0 dim).run_ok hr
  have hq : q.Reached := run_snd hr ▸ H.call (.function dim (.expression h)) h0
  have hle := (he.le H.wf).trans (hqr.le hq.wf)
  have hdim' : ∀ i, ¬r.Exceeds h dim i := fun i hi => hdim i (hi.old H.wf hle hh)
  obtain ⟨g, s, hg, hs, hlength, hnames, hprogram⟩ :=
    run_compiledGradient (hq.leads hqr) (hh.mono hle) (mt (hh.stepped_iff H.wf hle).mp hs) hdim'
  refine ⟨g, s, hg, hlength, fun x hx => ?_⟩
  obtain ⟨v, hv⟩ := CompiledFunction.call_ok hq.wf hroot hf hx
  obtain ⟨ds, hds, hsize⟩ := CompiledGradient.call_ok hs.wf hnames hprogram hx
  exact ⟨v, ds, hv, hds, hsize.trans hlength⟩

/-- A derivative has no variables that its node does not have. A function is compiled unless there
is a variable beyond the dimension, and then, if there is no step, so is its gradient. -/
theorem gradient_compiles (H : p.Reached) (hh : p.Names h) :
    (∀ {i d q}, (Build.differentiateBy h i).run p = (.ok d, q) →
      ∀ {k j}, q.Reaches d k → q.Holds k (.var j) → p.Reaches h k ∧ p.Holds k (.var j)) ∧
    ∀ dim : Nat,
      ((∃ i q, (Build.function dim (.expression h)).run p = (.error (.variableBeyond i dim), q)) ↔
        ∃ i, p.Exceeds h dim i) ∧
      (∀ {e q}, (Build.function dim (.expression h)).run p = (.error e, q) →
        ∃ i, p.Exceeds h dim i ∧ e = .variableBeyond i dim) ∧
      ∀ {f q r}, (Build.function dim (.expression h)).run p = (.ok f, q) → ¬p.Stepped h →
        q.Leads r → ∃ g s, (Build.compiledGradient dim (.expression h)).run r = (.ok g, s) ∧
          Callable f g dim := by
  refine ⟨fun hr _ _ => H.differentiateBy_support hh hr, fun dim => ⟨?_, ?_, ?_⟩⟩
  · exact Build.run_function_refused_iff H.wf hh
  · exact Build.run_function_error H.wf hh
  · exact Build.gradient_follows H hh

end

theorem reached_area : ∃ p : Pool Float, p.Reached ∧ p.Holds 0 (.var 0) ∧ p.Holds 1 (.var 1) ∧
    p.Holds 3 (.binary .mul 0 1) := by
  have hvars := Pool.Reached.empty.call (α := Float) (.vars 3) trivial
  have hmul := hvars.call (.combine .mul (.expression 0) (.expression 1))
    ⟨Int.natCast_nonneg 0, Int.natCast_nonneg 1⟩
  refine ⟨_, hmul, ?_, ?_, ?_⟩
  · exact Pool.holds_of_find? (k := 0) hmul.wf.indexed (by decide +kernel) nofun
  · exact Pool.holds_of_find? (k := 1) hmul.wf.indexed (by decide +kernel) nofun
  · exact Pool.holds_of_find? (k := 3) hmul.wf.indexed (by decide +kernel) nofun

/-- In a pool with three variables, the product of two is compiled for points with two coordinates,
along with its gradient, and refused for points with one. -/
theorem gradient_compiles_area : ∃ p : Pool Float, p.Holds 3 (.binary .mul 0 1) ∧
    (∃ i q, (Build.function 1 (.expression 3)).run p = (.error (.variableBeyond i 1), q)) ∧
    ∃ f q g s, (Build.function 2 (.expression 3)).run p = (.ok f, q) ∧
      (Build.compiledGradient 2 (.expression 3)).run q = (.ok g, s) ∧ Callable f g 2 := by
  obtain ⟨p, hp, hx, hy, hxy⟩ := reached_area
  have below {k : Handle} (hk : p.Reaches 3 k) : k = 3 ∨ k = 0 ∨ k = 1 := by
    have hleaves : ∀ a ∈ ([0, 1] : List Handle), ∃ m, p.Holds a m ∧ m.args = [] := by
      simpa using ⟨⟨_, hx, rfl⟩, _, hy, rfl⟩
    simpa [Node.args] using hk.of_leaves hxy hleaves
  obtain ⟨_, H⟩ := gradient_compiles hp hxy.names
  have hright : (1 : Handle) ∈ (Node.binary .mul 0 1 : Node Handle Float).args :=
    List.mem_cons_of_mem _ List.mem_cons_self
  have hone := (H 1).1.mpr ⟨1, 1, .step hxy hright .rfl, hy, le_rfl⟩
  have hsteps : ¬p.Stepped 3 := by
    rintro ⟨k, a, hk, hn⟩
    rcases below hk with rfl | rfl | rfl
    · cases hxy.unique hn
    · cases hx.unique hn
    · cases hy.unique hn
  rcases hr : (Build.function 2 (.expression 3)).run p with ⟨e | f, q⟩
  · obtain ⟨i, ⟨k, hk, hi, hdim⟩, _⟩ := (H 2).2.1 hr
    rcases below hk with rfl | rfl | rfl
    · cases hxy.unique hi
    · cases hx.unique hi
      cases hdim
    · cases hy.unique hi
      exact absurd hdim (by decide)
  · obtain ⟨g, s, hg, hcall⟩ := (H 2).2.2 hr hsteps .rfl
    exact ⟨p, hxy, hone, f, q, g, s, hr, hg, hcall⟩

end Downhill
