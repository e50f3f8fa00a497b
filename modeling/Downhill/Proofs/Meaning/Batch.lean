import Downhill.Proofs.Meaning.Execution
import Downhill.Proofs.Meaning.Powers
import Downhill.Scalar.Double

/-!
# Batches and their rows

Running on a batch is running on each of its rows (`Program.runBatch_eq`): when the loop comes to a
step, the columns so far have in each row what running on that row has computed so far
(`Program.Aligned`). The one operator that a batch takes differently is a power whose exponent is no
constant; a program without those computes in each row what it computes at that point. So it is with
compiled functions and gradients, whose exponents are constants if those of the expression are
(`batches_rowwise`).
-/

namespace Downhill

/-! ## Columns -/

/-- The numbers of a column, said as a function of the rows. -/
inductive Column.Covers (rows : List β) (f : β → α) : Column α → Prop where
  | same : (∀ row ∈ rows, f row = v) → Covers rows f (.same v)
  | each : Covers rows f (.each (rows.map f).toArray)

namespace Column.Covers

variable {β : Type v} {α : Type u} {rows : List β} {f f' : β → α} {c c' : Column α}

theorem map (H : c.Covers rows f) (op : α → α) : (c.map op).Covers rows fun row => op (f row) := by
  cases H with
  | same hv => exact .same fun row hrow => congrArg op (hv row hrow)
  | each =>
    rw [Column.map, List.map_toArray, List.map_map]
    exact .each

/-- A number that counts for all rows is as good as one for each. -/
theorem spread (H : c.Covers rows f) : c.spread rows.length = (rows.map f).toArray := by
  cases H with
  | @same v hv =>
    have hrows : rows.map f = List.replicate rows.length v := by
      refine List.eq_replicate_iff.mpr ⟨List.length_map f, ?_⟩
      intro w hw
      obtain ⟨row, hrow, rfl⟩ := List.mem_map.mp hw
      exact hv row hrow
    rw [Column.spread, hrows, List.toArray_replicate]
  | each => rfl

theorem zipWith (H : c.Covers rows f) (H' : c'.Covers rows f') (op : α → α → α) :
    (c.zipWith op c').Covers rows fun row => op (f row) (f' row) := by
  cases H with
  | @same u hu =>
    cases H' with
    | same hv => exact .same fun row hrow => congrArg₂ op (hu row hrow) (hv row hrow)
    | each =>
      have hrows : rows.map (fun row => op (f row) (f' row)) = (rows.map f').map (op u) := by
        rw [List.map_map]
        exact List.map_congr_left fun row hrow => congrArg (op · (f' row)) (hu row hrow)
      rw [Column.zipWith, List.map_toArray, ← hrows]
      exact .each
  | each =>
    cases H' with
    | @same v hv =>
      have hrows : rows.map (fun row => op (f row) (f' row)) = (rows.map f).map (op · v) := by
        rw [List.map_map]
        exact List.map_congr_left fun row hrow => congrArg (op (f row)) (hv row hrow)
      rw [Column.zipWith, List.map_toArray, ← hrows]
      exact .each
    | each =>
      rw [Column.zipWith, List.zipWith_toArray, List.zipWith_map, List.zipWith_self]
      exact .each

end Column.Covers

/-! ## The loop -/

namespace Program

variable {α : Type u} [Scalar α] {g : Program α} {x : Tensor α} {cs : Array (Column α)}
  {vs : Array α → Array α}

/-- The columns of some steps have in each row what was computed there. -/
structure Aligned (rows : List (Array α)) (cs : Array (Column α)) (vs : Array α → Array α) :
    Prop where
  size : ∀ row, (vs row).size = cs.size
  covers : ∀ k, (cs.getD k (.same (Scalar.nat 0))).Covers rows fun row =>
    (vs row).getD k (Scalar.nat 0)

theorem Aligned.empty {rows : List (Array α)} : Aligned rows #[] fun _ => #[] where
  size _ := rfl
  covers _ := .same fun _ _ => rfl

/-- A step computes in each row what it computes there. -/
theorem Aligned.column (H : Aligned x.rows cs vs) (n : Node Nat α) :
    (g.column x cs n).Covers x.rows fun row => g.value .batch row (vs row) n := by
  cases n with
  | const v => exact .same fun _ _ => rfl
  | var i => exact .each
  | unary op a => exact (H.covers a).map _
  | binary op a b => exact (H.covers a).zipWith (H.covers b) _

theorem Aligned.push {rows : List (Array α)} (H : Aligned rows cs vs) {c : Column α}
    {f : Array α → α} (hc : c.Covers rows f) :
    Aligned rows (cs.push c) fun row => (vs row).push (f row) where
  size row := by rw [Array.size_push, Array.size_push, H.size]
  covers k := by
    have hk := H.covers k
    simp only [Array.getD_eq_getD_getElem?, Array.getElem?_push, H.size] at hk ⊢
    split
    · exact hc
    · exact hk

theorem aligned_foldl (H : Aligned x.rows cs vs) (steps : List (Node Nat α)) :
    Aligned x.rows (steps.foldl (fun cs n => cs.push (g.column x cs n)) cs) fun row =>
      steps.foldl (fun vs n => vs.push (g.value .batch row vs n)) (vs row) := by
  induction steps generalizing cs vs with
  | nil => exact H
  | cons n steps ih => exact ih (H.push (H.column n))

/-- The columns of a run have in each row what the run on that row computes. -/
theorem aligned_columns (g : Program α) (x : Tensor α) :
    Aligned x.rows (g.columns x) (g.values .batch) := by
  have H := aligned_foldl (g := g) (x := x) .empty g.steps.toList
  simp only [Array.foldl_toList] at H
  exact H

/-- Running on a batch is running on its rows. -/
theorem runBatch_eq (g : Program α) (x : Tensor α) :
    g.runBatch x = g.outputs.map fun k =>
      (x.rows.map fun row => (g.values .batch row).getD k (Scalar.nat 0)).toArray :=
  List.map_congr_left fun k _ => ((aligned_columns g x).covers k).spread

/-! ## Powers -/

/-- Every exponent is a constant. -/
def ConstantExponents (g : Program α) : Prop :=
  ∀ n ∈ g.steps, ∀ a b, n = .binary .pow a b → g.constantAt b = true

/-- A batch takes powers with constant exponents as they are taken at a point. -/
theorem ConstantExponents.values_batch (H : g.ConstantExponents) (row : Array α) :
    g.values .batch row = g.values .point row := by
  have hvalue {n : Node Nat α} (hn : n ∈ g.steps) (vs : Array α) :
      g.value .batch row vs n = g.value .point row vs n := by
    cases n with
    | const | var | unary => rfl
    | binary op a b =>
      cases op with
      | pow => simp only [value, operation, H _ hn a b rfl, if_true]
      | add | sub | mul | div => rfl
  rw [values, values, ← Array.foldl_toList, ← Array.foldl_toList]
  refine List.foldl_ext _ _ _ fun vs n hn => ?_
  rw [hvalue (Array.mem_toList_iff.mp hn)]

end Program

/-! ## Compiled programs -/

theorem exists_forall₂ {R : β → γ → Prop} {l : List β} (H : ∀ b ∈ l, ∃ c, R b c) :
    ∃ cs, List.Forall₂ R l cs := by
  induction l with
  | nil => exact ⟨[], .nil⟩
  | cons b l ih =>
    obtain ⟨c, hc⟩ := H b List.mem_cons_self
    obtain ⟨cs, hcs⟩ := ih fun b hb => H b (List.mem_cons_of_mem _ hb)
    exact ⟨c :: cs, .cons hc hcs⟩

namespace Pool

variable {α : Type} [Scalar α] {p : Pool α} {roots : List Handle} {g : Program α} {dim : Nat}
  {x : Array α}

/-- Exponents that are constants in the pool are constants in the program. -/
theorem Compiles.constantExponents (H : p.Compiles roots g) (hp : p.WF) (h0 : ∀ h ∈ roots, 0 ≤ h)
    (hpowers : ∀ h ∈ roots, p.ConstantPowers h) : g.ConstantExponents := by
  rintro n hn _ _ rfl
  obtain ⟨k, hk⟩ := List.mem_iff_getElem?.mp (Array.mem_toList_iff.mpr hn)
  obtain ⟨h, hh, m, hm, he⟩ := forall₂_getElem? H.steps.flip hk
  cases m with
  | const | var | unary => cases he
  | binary op a b =>
    cases he
    obtain ⟨r, hr, _, hrh⟩ := (mem_reachable_iff hp h0).mp (List.mem_of_getElem? hh)
    obtain ⟨v, hv⟩ := isConstant_iff.mp (hpowers r hr _ _ _ hrh hm)
    have hb : b ∈ (Node.binary .pow a b : Node Handle α).args :=
      List.mem_cons_of_mem _ List.mem_cons_self
    obtain ⟨j, hj, _⟩ := operand_first hp h0 hh hm hb
    obtain ⟨c, hc, m, hm', rfl⟩ := forall₂_getElem? H.steps hj
    cases hm'.unique (holds_of_constant? hm'.names hv)
    rw [position_eq hj, Program.constantAt, ← Array.getElem?_toList, hc]
    rfl

/-- A node evaluates at a point that has all its variables. -/
theorem WF.evaluates (hp : p.WF) (hh : p.Names h)
    (hvar : ∀ {k i}, p.Reaches h k → p.Holds k (.var i) → i < x.size) :
    ∃ v, p.Reads (.evaluation x) h v := by
  refine hp.induction (P := fun h => (∀ {k i}, p.Reaches h k → p.Holds k (.var i) → i < x.size) →
    ∃ v, p.Reads (.evaluation x) h v) (fun {h n} hn ih hvar => ?_) hh hvar
  have below {a : Handle} (ha : a ∈ n.args) : ∃ v, p.Reads (.evaluation x) a v :=
    ih a ha fun hr => hvar (.step hn ha hr)
  cases n with
  | const v => exact ⟨v, .const hn rfl⟩
  | var i => exact ⟨_, .var hn (Array.getElem?_eq_getElem (hvar .rfl hn))⟩
  | unary op a =>
    obtain ⟨v, hv⟩ := below List.mem_cons_self
    exact ⟨_, .unary hn hv rfl⟩
  | binary op a b =>
    obtain ⟨v, hv⟩ := below List.mem_cons_self
    obtain ⟨w, hw⟩ := below (List.mem_cons_of_mem _ List.mem_cons_self)
    exact ⟨_, .binary hn hv hw rfl⟩

/-- What is compiled computes at a point what its roots evaluate to. -/
theorem compile_reads (hp : p.WF) (hroots : ∀ h ∈ roots, p.Names h)
    (H : p.compile roots dim = .ok g) (hx : x.size = dim) :
    List.Forall₂ (p.Reads (.evaluation x)) roots (g.run .point x) := by
  have h0 : ∀ h ∈ roots, 0 ≤ h := fun h hh => (names_iff.mp (hroots h hh)).1
  have hreads : ∀ h ∈ roots, ∃ v, p.Reads (.evaluation x) h v := by
    intro h hh
    refine hp.evaluates (hroots h hh) fun {k i} hk hi => ?_
    rw [hx]
    exact compile_var H ((mem_reachable_iff hp h0).mpr ⟨h, hh, hroots h hh, hk⟩) hi
  obtain ⟨vs, hvs⟩ := exists_forall₂ hreads
  obtain ⟨g', hg, _, hrun⟩ := compile_run hp hvs
  rw [hx] at hg
  cases H.symm.trans hg
  rwa [hrun]

end Pool

/-! ## Matrices -/

/-- There are as many numbers as the shape says. -/
def Tensor.Full (x : Tensor α) : Prop := x.data.size = x.shape.foldl (· * ·) 1

namespace Tensor

variable {α : Type u} {x : Tensor α} {n m : Nat}

theorem rank_of_shape (H : x.shape = [n, m]) : x.rank = 2 := by rw [rank, H]; rfl

theorem lastLength_of_shape (H : x.shape = [n, m]) : x.lastLength = m := by rw [lastLength, H]; rfl

theorem rows_of_shape (H : x.shape = [n, m]) :
    x.rows = (List.range n).map fun r => x.data.extract (r * m) ((r + 1) * m) := by
  rw [rows, lastLength_of_shape H, H]
  rfl

theorem length_rows (H : x.shape = [n, m]) : x.rows.length = n := by
  rw [rows_of_shape H, List.length_map, List.length_range]

theorem size_row (hx : x.Full) (H : x.shape = [n, m]) {row : Array α} (hrow : row ∈ x.rows) :
    row.size = m := by
  rw [rows_of_shape H] at hrow
  obtain ⟨r, hr, rfl⟩ := List.mem_map.mp hrow
  have hle : (r + 1) * m ≤ n * m := Nat.mul_le_mul_right m (List.mem_range.mp hr)
  have hsize : x.data.size = n * m := by
    rw [hx, H]
    simp
  rw [Array.size_extract, hsize, Nat.min_eq_left hle, Nat.add_mul, Nat.one_mul,
    Nat.add_sub_cancel_left]

/-- Parts of one length are found where they begin. -/
theorem drop_flatMap {f : β → List α} (l : List β) (hf : ∀ b, (f b).length = m) (r : Nat) :
    (l.flatMap f).drop (r * m) = (l.drop r).flatMap f := by
  induction r generalizing l with
  | zero => rw [Nat.zero_mul, List.drop_zero, List.drop_zero]
  | succ r ih =>
    cases l with
    | nil => simp
    | cons b l =>
      rw [List.flatMap_cons, Nat.succ_mul, Nat.add_comm, List.drop_succ_cons, ← hf b,
        List.drop_length_add_append, hf b, ih]

variable [Scalar α]

/-- The rows of stacked columns. -/
theorem rows_stack (n : Nat) (columns : List (Array α)) :
    (stack n columns).rows =
      (List.range n).map fun r => (columns.map (·.getD r (Scalar.nat 0))).toArray := by
  rw [rows_of_shape (n := n) (m := columns.length) rfl]
  refine List.map_congr_left fun r hr => ?_
  have hlt : r < (List.range n).length := by simpa using hr
  have hdrop := drop_flatMap (List.range n)
    (f := fun r => columns.map (·.getD r (Scalar.nat 0))) (fun _ => List.length_map _) r
  rw [List.drop_eq_getElem_cons hlt, List.flatMap_cons, List.getElem_range] at hdrop
  have hwidth : (r + 1) * columns.length - r * columns.length = columns.length := by
    rw [Nat.succ_mul, Nat.add_sub_cancel_left]
  rw [stack, List.extract_toArray, List.extract_eq_take_drop, hdrop, hwidth,
    List.take_left' (List.length_map _)]

theorem full_stack (n : Nat) (columns : List (Array α)) : (stack n columns).Full := by
  simp [Full, stack, List.length_flatMap]

end Tensor

/-! ## Compiled expressions -/

section

variable {α : Type} [Scalar α] {p : Pool α} {roots : List Handle} {g : Program α} {dim n : Nat}
  {x : Tensor α}

/-- The columns that a run computes, as rows. -/
theorem Program.rows_runBatch (g : Program α) (x : Tensor α) :
    (Tensor.stack x.rows.length (g.runBatch x)).rows =
      x.rows.map fun row => (g.run .batch row).toArray := by
  rw [Tensor.rows_stack, runBatch_eq]
  refine List.ext_getElem (by simp) fun r _ hr => ?_
  have hr : r < x.rows.length := by simpa using hr
  simp [run, List.getElem?_eq_getElem hr]

/-- What can be run on a batch of points, with the results that it has at each of them. -/
structure Program.Rowwise (g : Program α) (dim : Nat) : Prop where
  dim_eq : g.dim = dim
  admits : g.admits dim = .ok ()
  run_batch : ∀ row, g.run .batch row = g.run .point row

theorem Pool.compile_rowwise (hp : p.WF) (h0 : ∀ h ∈ roots, 0 ≤ h)
    (hpowers : ∀ h ∈ roots, p.ConstantPowers h) (H : p.compile roots dim = .ok g) :
    g.Rowwise dim := by
  rcases compile_cases hp h0 dim with ⟨g', hg, hdim, hc⟩ | ⟨_, _, _, _, _, he⟩
  · cases H.symm.trans hg
    refine ⟨hdim, hdim ▸ hc.admits hp h0, fun row => ?_⟩
    rw [Program.run, Program.run, (hc.constantExponents hp h0 hpowers).values_batch]
  · cases H.symm.trans he

omit [Scalar α] in
theorem Tensor.Full.size_data (H : x.Full) (hr : x.rank = 1) : x.data.size = x.lastLength := by
  obtain ⟨n, hn⟩ := List.length_eq_one_iff.mp hr
  rw [H, lastLength, hn]
  exact Nat.one_mul n

namespace Program.Rowwise

variable {β : Type} {k : Except ExpressionError β} {e : ExpressionError}

/-! What functions and gradients do alike, whatever they go on with. -/

theorem admits_error (H : g.Rowwise dim) (hne : n ≠ dim) :
    g.admits n = .error (.wrongDimension n dim) := by
  rw [Program.admits, H.dim_eq, if_pos hne]

theorem batch_ok (H : g.Rowwise dim) (hshape : x.shape = [n, dim]) :
    (do
      if x.rank ≠ 2 then throw .wantsBatch
      g.admits x.lastLength
      k) = k := by
  rw [if_neg (not_not_intro (Tensor.rank_of_shape hshape)), Tensor.lastLength_of_shape hshape,
    H.admits]
  rfl

theorem batch_error (H : g.Rowwise dim) (hne : x.lastLength ≠ dim) :
    (do
      if x.rank ≠ 2 then throw ExpressionError.wantsBatch
      g.admits x.lastLength
      k) = .error (if x.rank = 2 then .wrongDimension x.lastLength dim else .wantsBatch) := by
  rw [H.admits_error hne]
  by_cases hr : x.rank = 2
  · rw [if_neg (not_not_intro hr), if_pos hr]
    rfl
  · rw [if_pos hr, if_neg hr]
    rfl

theorem point_error (H : g.Rowwise dim) (hx : x.Full) (hne : x.lastLength ≠ dim) :
    (if x.rank = 1 then (do g.admits x.data.size; k) else .error e) =
      .error (if x.rank = 1 then .wrongDimension x.lastLength dim else e) := by
  by_cases hr : x.rank = 1
  · rw [if_pos hr, if_pos hr, hx.size_data hr, H.admits_error hne]
    rfl
  · rw [if_neg hr, if_neg hr]

end Program.Rowwise

/-! ### Functions -/

namespace CompiledFunction

variable {f : CompiledFunction α}

/-- Evaluating a function on a batch gives its values at the points, one for each row; a constant is
repeated. An array of points of another dimension is refused. -/
structure Rowwise (f : CompiledFunction α) (p : Pool α) (dim : Nat) : Prop where
  batch : ∀ {x : Tensor α} {n}, x.Full → x.shape = [n, dim] → ∃ vs, vs.size = n ∧
    f.evaluateBatch x = .ok ⟨[n], vs⟩ ∧
    List.Forall₂ (fun row v => f.call (.ofVector row) = .ok v) x.rows vs.toList
  constant : ∀ {x : Tensor α} {n v}, x.Full → x.shape = [n, dim] → p.Holds f.root (.const v) →
    f.evaluateBatch x = .ok ⟨[n], Array.replicate n v⟩
  call_error : ∀ {x : Tensor α}, x.Full → x.lastLength ≠ dim → f.call x =
    .error (if x.rank = 1 then .wrongDimension x.lastLength dim else .functionWantsPoint)
  batch_error : ∀ {x : Tensor α}, x.lastLength ≠ dim → f.evaluateBatch x =
    .error (if x.rank = 2 then .wrongDimension x.lastLength dim else .wantsBatch)

/-- A compiled function evaluates a batch row by row. -/
theorem evaluateBatch_eq (H : f.program.Rowwise dim) (hout : f.program.outputs ≠ [])
    (hshape : x.shape = [n, dim]) :
    f.evaluateBatch x = .ok ⟨[n], (x.rows.map fun row =>
      (f.program.run .point row).headD (Scalar.nat 0)).toArray⟩ := by
  obtain ⟨k, ks, hk⟩ := List.exists_cons_of_ne_nil hout
  have hrun (row : Array α) : (f.program.values .batch row).getD k (Scalar.nat 0) =
      (f.program.run .point row).headD (Scalar.nat 0) := by
    rw [← H.run_batch, Program.run, hk]
    rfl
  have hok : f.evaluateBatch x = .ok (.ofVector ((f.program.runBatch x).headD #[])) :=
    H.batch_ok hshape
  rw [hok, Program.runBatch_eq, hk, List.map_cons, List.headD_cons, Tensor.ofVector]
  simp only [hrun, List.size_toArray, List.length_map, Tensor.length_rows hshape]

theorem call_ofVector (hrow : f.program.Rowwise dim) {row : Array α} (H : row.size = dim) :
    f.call (.ofVector row) = .ok ((f.program.run .point row).headD (Scalar.nat 0)) :=
  apply_eq (H ▸ hrow.admits)

theorem rowwise (hp : p.WF) (hroot : p.Names f.root) (hpowers : p.ConstantPowers f.root)
    (H : p.compile [f.root] dim = .ok f.program) : f.Rowwise p dim := by
  have hroots : ∀ h ∈ [f.root], p.Names h := List.forall_mem_singleton.mpr hroot
  have h0 : ∀ h ∈ [f.root], 0 ≤ h := fun h hh => (Pool.names_iff.mp (hroots h hh)).1
  have hrow : f.program.Rowwise dim :=
    Pool.compile_rowwise hp h0 (List.forall_mem_singleton.mpr hpowers) H
  have hout : f.program.outputs ≠ [] := by
    rw [← List.length_pos_iff, (Pool.compile_admits hp h0 H).2]
    exact Nat.one_pos
  constructor
  · intro x n hx hshape
    refine ⟨_, ?_, evaluateBatch_eq hrow hout hshape, ?_⟩
    · rw [List.size_toArray, List.length_map, Tensor.length_rows hshape]
    · rw [List.forall₂_map_right_iff, List.forall₂_same]
      intro row hmem
      exact call_ofVector hrow (Tensor.size_row hx hshape hmem)
  · intro x n v hx hshape hv
    have hconstant : ∀ row ∈ x.rows, (f.program.run .point row).headD (Scalar.nat 0) = v := by
      intro row hmem
      have hreads := Pool.compile_reads hp hroots H (Tensor.size_row hx hshape hmem)
      generalize f.program.run .point row = vs at hreads
      cases hreads with
      | cons hread => exact hread.of_const hv
    have hcovers : (Column.same v).Covers x.rows fun row =>
      (f.program.run .point row).headD (Scalar.nat 0) := .same hconstant
    rw [evaluateBatch_eq hrow hout hshape, ← hcovers.spread, Tensor.length_rows hshape]
    rfl
  · exact hrow.point_error
  · exact hrow.batch_error

end CompiledFunction

/-! ### Gradients -/

namespace CompiledGradient

variable {g : CompiledGradient α}

theorem evaluateBatch_ok (hrow : g.program.Rowwise dim) (hshape : x.shape = [n, dim]) :
    g.evaluateBatch x = .ok (.stack n (g.program.runBatch x)) := by
  rw [← Tensor.length_rows hshape]
  exact hrow.batch_ok hshape

theorem call_ofVector (hrow : g.program.Rowwise dim) {row : Array α} (H : row.size = dim) :
    g.call (.ofVector row) = .ok (g.program.run .point row).toArray :=
  apply_eq (H ▸ hrow.admits)

/-- Evaluating a gradient on a batch gives the gradients at the points, one in each row; a constant
partial derivative is repeated. An array of points of another dimension is refused. -/
structure Rowwise (g : CompiledGradient α) (p : Pool α) (dim : Nat) : Prop where
  batch : ∀ {x : Tensor α} {n}, x.Full → x.shape = [n, dim] → ∃ y, y.shape = [n, dim] ∧ y.Full ∧
    g.evaluateBatch x = .ok y ∧
    List.Forall₂ (fun row d => g.call (.ofVector row) = .ok d) x.rows y.rows
  constant : ∀ {x y : Tensor α} {n i : Nat} {d v}, x.Full → x.shape = [n, dim] →
    g.evaluateBatch x = .ok y → g.partials[i]? = some d → p.Holds d (.const v) →
    ∀ row ∈ y.rows, row[i]? = some v
  call_error : ∀ {x : Tensor α}, x.Full → x.lastLength ≠ dim → g.call x =
    .error (if x.rank = 1 then .wrongDimension x.lastLength dim else .gradientWantsPoint)
  batch_error : ∀ {x : Tensor α}, x.lastLength ≠ dim → g.evaluateBatch x =
    .error (if x.rank = 2 then .wrongDimension x.lastLength dim else .wantsBatch)

theorem rowwise (hp : p.WF) (hroots : ∀ d ∈ g.partials, p.Names d)
    (hpowers : ∀ d ∈ g.partials, p.ConstantPowers d) (hlength : g.partials.length = dim)
    (H : p.compile g.partials dim = .ok g.program) : g.Rowwise p dim := by
  have h0 : ∀ h ∈ g.partials, 0 ≤ h := fun h hh => (Pool.names_iff.mp (hroots h hh)).1
  have hrow : g.program.Rowwise dim := Pool.compile_rowwise hp h0 hpowers H
  have hrows {x : Tensor α} {n : Nat} (hshape : x.shape = [n, dim]) :
      (Tensor.stack n (g.program.runBatch x)).rows =
        x.rows.map fun row => (g.program.run .point row).toArray := by
    rw [← Tensor.length_rows hshape, Program.rows_runBatch]
    simp only [hrow.run_batch]
  have hwidth (x : Tensor α) : (g.program.runBatch x).length = dim := by
    rw [Program.runBatch, List.length_map, (Pool.compile_admits hp h0 H).2, hlength]
  constructor
  · intro x n hx hshape
    refine ⟨_, ?_, ?_, evaluateBatch_ok hrow hshape, ?_⟩
    · rw [Tensor.stack, hwidth]
    · exact Tensor.full_stack n _
    · rw [hrows hshape, List.forall₂_map_right_iff, List.forall₂_same]
      intro row hmem
      exact call_ofVector hrow (Tensor.size_row hx hshape hmem)
  · intro x y n i d v hx hshape hy hd hv
    cases (evaluateBatch_ok hrow hshape).symm.trans hy
    rw [hrows hshape]
    intro row hmem
    obtain ⟨point, hpoint, rfl⟩ := List.mem_map.mp hmem
    have hreads := Pool.compile_reads hp hroots H (Tensor.size_row hx hshape hpoint)
    obtain ⟨w, hw, hread⟩ := forall₂_getElem? hreads hd
    rw [List.getElem?_toArray, hw]
    exact congrArg some (hread.of_const hv)
  · exact hrow.point_error
  · exact hrow.batch_error

end CompiledGradient

/-! ### Batches -/

theorem Build.expression_names {q : Pool α} {u : Operand α} (hp : p.WF) (hu : u.All p.Names)
    (hr : (expression u).run p = (.ok h, q)) : q.Names h := by
  cases u with
  | expression k => cases hr; exact hu
  | number v => cases hr; exact (Pool.constant_yields hp.indexed v).names
  | foreign | tooLarge | other => cases hr

/-- Where all exponents are constants, evaluating a batch is evaluating its rows. -/
theorem batches_rowwise {u : Operand α} (hp : p.Reached) (hu : u.All p.Names) (dim : Nat) :
    (∀ {f q}, (Build.function dim u).run p = (.ok f, q) → q.ConstantPowers f.root →
      f.Rowwise q dim) ∧
    ∀ {g q}, (Build.compiledGradient dim u).run p = (.ok g, q) → q.ConstantPowers g.root →
      g.Rowwise q dim := by
  constructor
  · intro f q hr hpowers
    have hq : q.Reached := Build.run_snd hr ▸ hp.call (.function dim u) hu.nonneg
    obtain ⟨_, _, hcompile⟩ := (Build.function_ensures hp.wf hu.nonneg dim).run_ok hr
    obtain ⟨root, r, hroot, hr⟩ := Build.run_bind_eq_ok hr
    obtain ⟨g, r', hg, hr⟩ := Build.run_bind_eq_ok hr
    obtain ⟨_, rfl⟩ := Prod.mk.inj ((Build.run_compile ..).symm.trans hg)
    cases hr
    exact CompiledFunction.rowwise hq.wf (Build.expression_names hp.wf hu hroot) hpowers hcompile
  · intro g q hr hpowers
    have hq : q.Reached := Build.run_snd hr ▸ hp.call (.compiledGradient dim u) hu.nonneg
    obtain ⟨_, hds, hcompile⟩ := (Build.compiledGradient_ensures hp.wf hu.nonneg dim).run_ok hr
    have hderivative : ∀ d ∈ g.partials, ∃ i, q.derivative? g.root i = some d := by
      intro d hd
      obtain ⟨i, _, hi⟩ := forall₂_mem hds.flip hd
      exact ⟨i, hi⟩
    refine CompiledGradient.rowwise hq.wf (fun d hd => ?_) (fun d hd => ?_) ?_ hcompile
    · obtain ⟨i, hi⟩ := hderivative d hd
      exact (hq.wf.derivative hi).2
    · obtain ⟨i, hi⟩ := hderivative d hd
      exact hq.constantPowers hi hpowers
    · rw [← hds.length_eq, List.length_range]

end

theorem Build.run_of_toOption {α β γ : Type} {b : Build α β} {p : Pool α} {k : β → γ} {c : γ}
    (H : (b.run p).1.toOption.map k = some c) : ∃ v q, b.run p = (.ok v, q) ∧ k v = c := by
  rcases hb : b.run p with ⟨e | v, q⟩
  · rw [hb] at H
    cases H
  · rw [hb] at H
    exact ⟨v, q, rfl, Option.some.inj H⟩

theorem reached_cube : ∃ p : Pool Float, p.Reached ∧ p.Holds 0 (.var 0) ∧
    p.isConstant 1 = true ∧ p.Holds 2 (.binary .pow 0 1) ∧
    (∃ f q, (Build.function 1 (.expression 2)).run p = (.ok f, q) ∧ f.root = 2) ∧
    ∃ g q, (Build.compiledGradient 1 (.expression 2)).run p = (.ok g, q) ∧ g.root = 2 := by
  have hvars := Pool.Reached.empty.call (α := Float) (.vars 1) trivial
  have hcube := hvars.call (.combine .pow (.expression 0) (.number 3))
    ⟨Int.natCast_nonneg 0, trivial⟩
  refine ⟨_, hcube, ?_, by decide +kernel, ?_, ?_, ?_⟩
  · exact Pool.holds_of_find? (k := 0) hcube.wf.indexed (by decide +kernel) nofun
  · exact Pool.holds_of_find? (k := 2) hcube.wf.indexed (by decide +kernel) nofun
  · exact Build.run_of_toOption (k := CompiledFunction.root) (by decide +kernel)
  · exact Build.run_of_toOption (k := CompiledGradient.root) (by decide +kernel)

/-- The third power of a coordinate and its derivative are evaluated row by row. -/
theorem batches_rowwise_cube :
    ∃ (p q r : Pool Float) (f : CompiledFunction Float) (g : CompiledGradient Float),
      (∃ v, p.Unfolds 2 (.binary .pow (.var 0) (.num v))) ∧
      (Build.function 1 (.expression 2)).run p = (.ok f, q) ∧ f.Rowwise q 1 ∧
      (Build.compiledGradient 1 (.expression 2)).run p = (.ok g, r) ∧ g.Rowwise r 1 := by
  obtain ⟨p, hp, hx, hconstant, hcube, ⟨f, q, hf, hfroot⟩, g, r, hg, hgroot⟩ := reached_cube
  obtain ⟨v, hv⟩ := Pool.isConstant_iff.mp hconstant
  have hv : p.Holds 1 (.const v) := Pool.holds_of_constant? (hp.wf.binary_args hcube).2 hv
  have hreads : p.Reads .constancy 2 false :=
    .binary hcube (.var hx rfl) (.const hv rfl) ⟨fun _ => rfl, rfl⟩
  have hpowers {q : Pool Float} (he : p.Evolves q) : q.ConstantPowers 2 :=
    (Pool.constantPowers_iff (he.wf hp.wf) (hcube.names.mono (he.le hp.wf))).mpr
      ⟨_, hreads.mono (he.le hp.wf)⟩
  have h0 : (Operand.expression 2 : Operand Float).All (0 ≤ ·) := Int.natCast_nonneg 2
  have hef := ((Build.function_ensures hp.wf h0 1).run_ok hf).1
  have heg := ((Build.compiledGradient_ensures hp.wf h0 1).run_ok hg).1
  obtain ⟨hfunction, hgradient⟩ := batches_rowwise (u := .expression 2) hp hcube.names 1
  exact ⟨p, q, r, f, g, ⟨v, .binary hcube (.var hx rfl) (.const hv rfl) rfl⟩, hf,
    hfunction hf (hfroot ▸ hpowers hef), hg, hgradient hg (hgroot ▸ hpowers heg)⟩

end Downhill
