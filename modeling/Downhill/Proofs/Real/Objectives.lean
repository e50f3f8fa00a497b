import Downhill.Proofs.Pool.Liveness
import Downhill.Proofs.Real.Calculus
import Downhill.Proofs.Real.Derivatives
import Downhill.Proofs.Search.Objectives

/-!
# Objectives over the reals

How the value and the slopes of a term follow from those of its parts (`Term.HasJet`), and what that
means for an objective that builds the term. Where the term has a value and slopes at all points,
the objective is built (`Build.run_objective`), its compiled function has the values and its
compiled gradient has the slopes (`Written.function_values`, `Written.gradient_values`).
-/

namespace Downhill

open PartialReal

/-! ## Values and slopes -/

namespace Term

variable {s t : Term PartialReal} {x : Array ℝ} {i k : ℕ} {u v m n : ℝ}

/-- A value at a point, and a slope in the direction of `x[i]`. -/
def HasJet (x : Array ℝ) (i : ℕ) (t : Term PartialReal) (v m : ℝ) : Prop :=
  ∃ j, t.Reads (.jet x i) j ∧ j.value = v ∧ j.slope = m

namespace HasJet

theorem num (u : ℝ) : (Term.num (some u)).HasJet x i u 0 :=
  ⟨.number u, .num ⟨u, rfl, rfl⟩, rfl, rfl⟩

theorem literal (n : ℕ) : (Term.num (Scalar.nat n)).HasJet x i n 0 :=
  (nat_eq n).symm ▸ num (n : ℝ)

theorem var (hk : k < x.size) :
    (Term.var k).HasJet x i (x.getD k 0) (if k = i then 1 else 0) := by
  refine ⟨.coordinate (x.getD k 0) (k == i), .var ⟨_, ?_, rfl⟩, rfl, ?_⟩
  · rw [Array.getD_eq_getD_getElem?, Array.getElem?_eq_getElem hk, Option.getD_some]
  · by_cases hki : k = i <;> simp [Jet.coordinate, hki]

theorem unary (H : t.HasJet x i v m) (hop : op.Smooth v) :
    (Term.unary op t).HasJet x i (op.real v) (op.slope v * m) := by
  obtain ⟨j, hj, rfl, rfl⟩ := H
  exact ⟨j.unary op, .unary hj ⟨hop, rfl⟩, rfl, rfl⟩

theorem add (H : s.HasJet x i u m) (H' : t.HasJet x i v n) :
    (s + t).HasJet x i (u + v) (m + n) := by
  obtain ⟨j, hj, rfl, rfl⟩ := H
  obtain ⟨k, hk, rfl, rfl⟩ := H'
  exact ⟨j.binary .add k, .binary hj hk ⟨trivial, rfl⟩, rfl, rfl⟩

theorem sub (H : s.HasJet x i u m) (H' : t.HasJet x i v n) :
    (s - t).HasJet x i (u - v) (m - n) := by
  obtain ⟨j, hj, rfl, rfl⟩ := H
  obtain ⟨k, hk, rfl, rfl⟩ := H'
  exact ⟨j.binary .sub k, .binary hj hk ⟨trivial, rfl⟩, rfl, rfl⟩

theorem mul (H : s.HasJet x i u m) (H' : t.HasJet x i v n) :
    (s * t).HasJet x i (u * v) (m * v + u * n) := by
  obtain ⟨j, hj, rfl, rfl⟩ := H
  obtain ⟨k, hk, rfl, rfl⟩ := H'
  exact ⟨j.binary .mul k, .binary hj hk ⟨trivial, rfl⟩, rfl, rfl⟩

theorem congr (H : t.HasJet x i u m) (hv : u = v) (hn : m = n) : t.HasJet x i v n :=
  hv ▸ hn ▸ H

end HasJet

/-- A value and slopes at all points with so many coordinates. -/
def HasGradient (dim : ℕ) (t : Term PartialReal) (value : (ℕ → ℝ) → ℝ) (slope : (ℕ → ℝ) → ℕ → ℝ) :
    Prop :=
  ∀ x : Array ℝ, x.size = dim → ∀ i,
    t.HasJet x i (value fun k => x.getD k 0) (slope (fun k => x.getD k 0) i)

end Term

/-! ## Nodes -/

namespace Pool

variable {p : Pool PartialReal} {h : Handle} {x : Array ℝ} {i : ℕ} {j : Jet}

theorem Reads.jet_not_stepped (H : p.Reads (.jet x i) h j) : ¬p.Stepped h := by
  rintro ⟨k, a, hk, hn⟩
  obtain ⟨l, hl⟩ := H.reaches hk
  obtain ⟨_, _, hop, _⟩ := hl.of_unary hn
  exact hop

end Pool

namespace Written

variable {p : Pool PartialReal} {h : Handle} {t : Term PartialReal} {dim : ℕ}
  {value : (ℕ → ℝ) → ℝ} {slope : (ℕ → ℝ) → ℕ → ℝ} {x : Array ℝ} {i : ℕ} {v m : ℝ}

theorem reads_jet (H : Written p (.expression h) t) (ht : t.HasJet x i v m) :
    ∃ j, p.Reads (.jet x i) h j ∧ j.value = v ∧ j.slope = m := by
  obtain ⟨j, hj, rfl, rfl⟩ := ht
  obtain ⟨k, hk, hle⟩ := H.means (Interpretation.lawful_jet x i) hj
  exact ⟨k, hk, hle.value.symm, hle.slope.symm⟩

/-- The compiled function has the values of the term. -/
theorem function_values (H : Written p (.expression h) t) (ht : t.HasGradient dim value slope) :
    ∃ f, (Build.function dim (.expression h)).run p = (.ok f, p) ∧
      ∀ x : Array ℝ, x.size = dim →
        f.call (.ofVector (x.map some)) = .ok (some (value fun k => x.getD k 0)) := by
  have hreads (x : Array ℝ) (hx : x.size = dim) :
      p.Reads (.evaluation (x.map some)) h (some (value fun k => x.getD k 0)) := by
    obtain ⟨j, hj, hv, _⟩ := H.reads_jet (ht x hx 0)
    exact hv ▸ hj.value.evaluates
  obtain ⟨y, rfl⟩ : ∃ y : Array ℝ, y.size = dim := ⟨.replicate dim 0, Array.size_replicate⟩
  obtain ⟨f, hf, _⟩ := Build.run_function (u := .expression h) rfl H.valid.1.wf (hreads y rfl)
  rw [Array.size_map] at hf
  refine ⟨f, hf, fun x hx => ?_⟩
  have hsize : (x.map some).size = y.size := Array.size_map.trans hx
  rw [← hsize] at hf
  exact (if_pos rfl).trans (Build.run_function_apply H.valid.1.wf hf (hreads x hx))

/-- The compiled gradient has the slopes of the term, and its roots are the derivatives. -/
theorem gradient_values (H : Written p (.expression h) t) (ht : t.HasGradient dim value slope) :
    ∃ g q, (Build.compiledGradient dim (.expression h)).run p = (.ok g, q) ∧
      (∀ x : Array ℝ, x.size = dim → g.call (.ofVector (x.map some)) =
        .ok ((List.range dim).map fun i => some (slope (fun k => x.getD k 0) i)).toArray) ∧
      q.Reached ∧ p.Leads q ∧
      List.Forall₂ (fun i d => q.derivative? h i = some d) (List.range dim) g.partials := by
  obtain ⟨hp, hh⟩ := H.valid
  have h0 : 0 ≤ h := (Pool.names_iff.mp hh).1
  obtain ⟨y, rfl⟩ : ∃ y : Array ℝ, y.size = dim := ⟨.replicate dim 0, Array.size_replicate⟩
  obtain ⟨j, hj, _⟩ := H.reads_jet (ht y rfl 0)
  obtain ⟨ds, q, hr, he, hds⟩ := Build.run_gradient hp.wf hh hj.jet_not_stepped y.size
  have hq : q.Reached := Build.run_snd hr ▸ hp.call (.gradient h y.size) h0
  -- each root evaluates to the slope in its direction, wherever there is one
  have hvalues (x : Array ℝ) (hx : x.size = y.size) :
      List.Forall₂ (q.Reads (.evaluation (x.map some))) ds
        ((List.range y.size).map fun i => some (slope (fun k => x.getD k 0) i)) := by
    rw [List.forall₂_map_right_iff]
    refine hds.flip.imp fun d i hd => ?_
    obtain ⟨j, hj, _, hm⟩ := H.reads_jet (ht x hx i)
    exact hm ▸ (hq.sound.slopeAt hd x j (hj.mono (he.le hp.wf))).evaluates
  have hrun (x : Array ℝ) (hx : x.size = y.size) :
      ∃ g, (Build.compiledGradient y.size (.expression h)).run p = (.ok g, q) ∧ g.partials = ds ∧
        g.call (.ofVector (x.map some)) =
          .ok ((List.range y.size).map fun i => some (slope (fun k => x.getD k 0) i)).toArray := by
    have hsize : (x.map some).size = y.size := Array.size_map.trans hx
    have hr' : (Build.gradient h (x.map some).size).run p = (.ok ds, q) := hsize ▸ hr
    obtain ⟨g, hg, hroots, hx'⟩ := Build.run_compiledGradient_apply hq.wf hr' (hvalues x hx)
    exact ⟨g, hsize ▸ hg, hroots, (if_pos rfl).trans hx'⟩
  obtain ⟨g, hg, rfl, _⟩ := hrun y rfl
  refine ⟨g, q, hg, fun x hx => ?_, hq, Build.run_snd hr ▸ .call .rfl (.gradient h y.size) h0, hds⟩
  obtain ⟨g', hg', _, hx'⟩ := hrun x hx
  cases hg.symm.trans hg'
  exact hx'

end Written

/-! ## Building -/

namespace Build

variable {t : Term PartialReal} {dim : ℕ} {value : (ℕ → ℝ) → ℝ} {slope : (ℕ → ℝ) → ℕ → ℝ}

/-- A term that has a value everywhere can be built over fresh variables. -/
theorem run_objective (hdim : 1 ≤ dim) (ht : t.HasGradient dim value slope) :
    ∃ u p, (Build.objective (fun xs => t.build xs) dim).run .empty = (.ok u, p) ∧
      Written p u t := by
  obtain ⟨xs, p, hxs⟩ := run_vars (.empty : Pool PartialReal) (Int.ofNat_le.mpr hdim)
  obtain ⟨hp, hx⟩ := vars_ok hxs
  obtain ⟨_, hvars⟩ := (vars_ensures .empty dim).run_ok hxs
  have hsize : xs.size = dim := by simpa using hvars.length_eq.symm
  obtain ⟨x, hdim⟩ : ∃ x : Array ℝ, x.size = dim := ⟨.replicate dim 0, Array.size_replicate⟩
  obtain ⟨j, hj, _⟩ := ht x hdim 0
  have hvar {k b} (hb : (Interpretation.jet x 0).var k b) : k < xs.size := by
    obtain ⟨u, hu, _⟩ := hb
    rw [hsize, ← hdim]
    exact (Array.getElem?_eq_some_iff.mp hu).1
  obtain ⟨u, q, hu⟩ := t.build_ok (Interpretation.lawful_jet x 0).kept hp hx hvar hj
  exact ⟨u, q, (run_bind_ok hxs).trans hu, (t.build_written hp hx hu).2⟩

end Build

end Downhill
