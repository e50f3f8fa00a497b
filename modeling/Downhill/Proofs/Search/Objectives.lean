import Downhill.Proofs.Meaning.Writing
import Downhill.Proofs.Meaning.Execution
import Downhill.Proofs.Search.Evaluation
import Downhill.Search.Minimise

/-!
# Compiled objectives

An objective is whatever builds an expression over the variables it is given. As long as it goes
about it by calls to the pool (`Objective.Proper`), what is compiled can be evaluated at all points
with as many coordinates as there are variables (`Build.compiled_evaluable`).
-/

namespace Downhill

variable {α : Type} [Scalar α] {o : Objective α} {dim : Nat} {p : Pool α}
  {f : CompiledFunction α} {g : CompiledGradient α}

/-- Given the variables of a reached pool, an objective makes calls to that pool and returns an
operand that is there. -/
def Objective.Proper (o : Objective α) : Prop :=
  ∀ {p : Pool α} {xs u q}, p.Reached → (∀ {i h}, xs[i]? = some h → p.Holds h (.var i)) →
    (o xs).run p = (.ok u, q) → p.Leads q ∧ u.All q.Names

/-- Terms are proper objectives. -/
theorem Term.proper (t : Term α) : Objective.Proper fun xs => t.build xs := by
  intro p xs u q hp hx hr
  obtain ⟨hl, hw⟩ := t.build_written hp hx hr
  exact ⟨hl, hw.valid.2⟩

namespace Build

theorem vars_ok {xs : Array Handle} (H : (vars dim).run .empty = (.ok xs, p)) :
    p.Reached ∧ ∀ {i h}, xs[i]? = some h → p.Holds h (.var i) := by
  obtain ⟨_, hvars⟩ := (vars_ensures .empty dim).run_ok H
  refine ⟨run_snd H ▸ Pool.Reached.empty.call (.vars dim) trivial, ?_⟩
  intro i h hi
  obtain ⟨j, hj, hh⟩ := forall₂_getElem? hvars.flip ((Array.getElem?_toList ..).trans hi)
  obtain ⟨_, rfl⟩ := List.getElem?_eq_some_iff.mp hj
  rwa [List.getElem_range] at hh

theorem compiled_evaluable (ho : o.Proper) (H : (compiled o dim).run .empty = (.ok (f, g), p)) :
    Evaluable f.apply g.apply dim := by
  obtain ⟨u, p₁, hobjective, H⟩ := run_bind_eq_ok H
  obtain ⟨xs, p₀, hvars, hu⟩ := run_bind_eq_ok hobjective
  obtain ⟨hp₀, hx⟩ := vars_ok hvars
  obtain ⟨hleads, hnames⟩ := ho hp₀ hx hu
  have hp₁ := (hp₀.leads hleads).wf
  obtain ⟨root, p₂, hroot, H⟩ := run_bind_eq_ok H
  obtain ⟨he₂, h0⟩ := (expression_ensures hp₁ hnames.nonneg).run_ok hroot
  obtain ⟨f', p₃, hf, H⟩ := run_bind_eq_ok H
  obtain ⟨he₃, hf0, hfc⟩ := (function_ensures (he₂.wf hp₁) (u := .expression root) h0 dim).run_ok hf
  obtain ⟨g', p₄, hg, H⟩ := run_bind_eq_ok H
  cases H
  have hp₃ := he₃.wf (he₂.wf hp₁)
  obtain ⟨he₄, hds, hgc⟩ :=
    (compiledGradient_ensures hp₃ (u := .expression root) h0 dim).run_ok hg
  have hp₄ := he₄.wf hp₃
  obtain ⟨hadmits, _⟩ := Pool.compile_admits hp₃ (by simpa using hf0) hfc
  have hd0 : ∀ d ∈ g.partials, 0 ≤ d := fun d hd => by
    obtain ⟨_, _, hd⟩ := forall₂_mem hds.flip hd
    exact (Pool.names_iff.mp (hp₄.derivative hd).2).1
  obtain ⟨hadmits', hlength⟩ := Pool.compile_admits hp₄ hd0 hgc
  constructor
  · intro x hx
    exact ⟨_, CompiledFunction.apply_eq (hx ▸ hadmits)⟩
  · intro x hx
    refine ⟨_, CompiledGradient.apply_eq (hx ▸ hadmits'), ?_⟩
    rw [List.size_toArray, Program.run, List.length_map, hlength, ← hds.length_eq,
      List.length_range]

end Build

end Downhill
