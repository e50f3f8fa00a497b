import Downhill.Proofs.Decimal.Numeral
import Downhill.Proofs.Meaning.Support

/-!
# Unambiguous texts

In a reached pool of doubles no two nodes have the same text, as long as there is no NaN below them
(`Pool.Reached.unambiguous`): a text determines the term, and a term has one node only.
-/

namespace Downhill

namespace Pool

variable {p q : Pool Float} {h k : Handle} {s t : Term Float}

/-- Every node has a text. It tells the node from all others of the pool, and the term that the node
stands for from all others. NaN is excepted. -/
structure Unambiguous (p : Pool Float) : Prop where
  text : ∀ {h}, p.Names h → ∃ s, p.render numeral h = .ok s
  distinct : ∀ {h k}, p.Names h → p.Names k → p.NaNFree h → p.NaNFree k → h ≠ k →
    p.render numeral h ≠ p.render numeral k
  term : ∀ {q : Pool Float} {h k s t}, q.Reached → p.Unfolds h s → q.Unfolds k t →
    p.NaNFree h → q.NaNFree k → p.render numeral h = q.render numeral k → s = t

theorem Unfolds.eq_of_render (H : p.Unfolds h s) (H' : q.Unfolds k t) (hp : p.WF) (hq : q.WF)
    (hh : p.NaNFree h) (hk : q.NaNFree k) (htext : p.render numeral h = q.render numeral k) :
    s = t := by
  rw [H.render hp, H'.render hq] at htext
  exact H.eq_of_text legible_numeral H' hp hq hh hk (Except.ok.inj htext)

theorem Reached.unambiguous (H : p.Reached) : p.Unambiguous where
  text hh := by
    obtain ⟨t, ht⟩ := H.wf.unfolds hh
    exact ⟨_, ht.render H.wf numeral⟩
  distinct hh hk hnan hnan' hne htext := by
    obtain ⟨s, hs⟩ := H.wf.unfolds hh
    obtain ⟨t, ht⟩ := H.wf.unfolds hk
    obtain rfl := hs.eq_of_render ht H.wf H.wf hnan hnan' htext
    exact hne (hs.eq_of_same H.wf ht (hs.same_self hnan))
  term hq hs ht hnan hnan' htext := hs.eq_of_render ht H.wf hq.wf hnan hnan' htext

/-- No constant of the pool is NaN. -/
def withoutNaN (p : Pool Float) : Bool :=
  p.nodes.all fun
    | .const v => !v.isNaN
    | .var _ | .unary .. | .binary .. => true

theorem nanFree (H : p.withoutNaN = true) (h : Handle) : p.NaNFree h := by
  intro k _ hk
  obtain ⟨v, hv, hnan⟩ := hk
  obtain ⟨j, rfl⟩ := Int.eq_ofNat_of_zero_le hv.nonneg
  have hv : (!v.isNaN) = true :=
    Array.all_eq_true'.mp H _ (Array.mem_of_getElem? (holds_ofNat.mp hv))
  rw [hnan] at hv
  cases hv

/-- One subtracted, and minus one added. -/
theorem unambiguous_shifts :
    let shift (op : BinaryOp) (v : Float) : Call Float := .combine op (.expression 0) (.number v)
    let p := (shift .add (-1)).after ((shift .sub 1).after ((Call.vars 1).after .empty))
    p.Reached ∧ p.Holds 2 (.binary .sub 0 1) ∧ p.Holds 4 (.binary .add 0 3) ∧
      p.render numeral 2 ≠ p.render numeral 4 := by
  intro shift p
  have hvars : ((Call.vars 1).after .empty : Pool Float).Reached := Reached.empty.call _ trivial
  have hp : p.Reached := (hvars.call (shift .sub 1) ⟨Int.natCast_nonneg 0, trivial⟩).call
    (shift .add (-1)) ⟨Int.natCast_nonneg 0, trivial⟩
  have hsub : p.Holds 2 (.binary .sub 0 1) :=
    holds_of_find? (k := 2) hp.wf.indexed (by decide +kernel) nofun
  have hadd : p.Holds 4 (.binary .add 0 3) :=
    holds_of_find? (k := 4) hp.wf.indexed (by decide +kernel) nofun
  have hnan : p.withoutNaN = true := by decide +kernel
  exact ⟨hp, hsub, hadd, hp.unambiguous.distinct hsub.names hadd.names (nanFree hnan 2)
    (nanFree hnan 4) (by decide)⟩

end Pool

end Downhill
