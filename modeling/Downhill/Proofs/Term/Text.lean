import Downhill.Graph.Render
import Downhill.Proofs.Meaning.Execution

/-!
# Texts and values of terms

What can be seen of a node is its text and the values it has at points. Both are those of the term
that the node stands for (`Unfolds.render`, `Unfolds.hasValue_iff`): neither the handles nor what
else is in the pool can be told from them.
-/

namespace Downhill

variable {α : Type}

/-- Infix text, with parentheses around every binary operator. -/
def Term.text (numeral : α → String) : Term α → String
  | num v => numeral v
  | var i => s!"x[{i}]"
  | unary .neg t => "-" ++ t.text numeral
  | unary op t => op.name ++ "(" ++ t.text numeral ++ ")"
  | binary op s t => "(" ++ s.text numeral ++ " " ++ op.symbol ++ " " ++ t.text numeral ++ ")"

namespace Pool

variable {p q : Pool α} {roots pre post : List Handle} {h : Handle} {n : Node Handle α}
  {t : Term α} {numeral : α → String} {texts : Texts}

/-! ## Texts -/

theorem Unfolds.render_node {operand : Handle → Option String} (H : p.Unfolds h t)
    (hn : p.Holds h n)
    (ha : ∀ a ∈ n.args, ∀ s, p.Unfolds a s → operand a = some (s.text numeral)) :
    n.render numeral operand = some (t.text numeral) := by
  cases n with
  | const v =>
    cases H.of_const hn
    rfl
  | var i =>
    cases H.of_var hn
    rfl
  | unary op a =>
    obtain ⟨s, hs, rfl⟩ := H.of_unary hn
    have hs := ha a List.mem_cons_self s hs
    cases op <;> simp [Node.render, Term.text, hs]
  | binary op a b =>
    obtain ⟨s, s', hs, hs', rfl⟩ := H.of_binary hn
    have hs := ha a List.mem_cons_self s hs
    have hs' := ha b (List.mem_cons_of_mem _ List.mem_cons_self) s' hs'
    simp [Node.render, Term.text, hs, hs']

/-- The texts of some nodes have been written. -/
def Covers (p : Pool α) (numeral : α → String) (texts : Texts) (l : List Handle) : Prop :=
  ∀ k ∈ l, ∀ t, p.Unfolds k t → texts[k]? = some (t.text numeral)

variable [Scalar α]

theorem Covers.write (H : p.Covers numeral texts pre) (hp : p.WF) (h0 : ∀ h ∈ roots, 0 ≤ h)
    (horder : p.reachable roots = pre ++ h :: post) (ht : p.Unfolds h t) :
    ∃ texts', p.write? numeral texts h = some texts' ∧ p.Covers numeral texts' (pre ++ [h]) := by
  obtain ⟨n, hn⟩ := ht.names
  have hk : (p.reachable roots)[pre.length]? = some h := by simp [horder]
  have operand : ∀ a ∈ n.args, ∀ s, p.Unfolds a s → texts[a]? = some (s.text numeral) := by
    intro a ha s hs
    obtain ⟨j, hj, hlt⟩ := operand_first hp h0 hk hn ha
    rw [horder, List.getElem?_append_left hlt] at hj
    exact H a (List.mem_of_getElem? hj) s hs
  refine ⟨texts.insert h (t.text numeral), ?_, ?_⟩
  · rw [write?, hn.2]
    simp only [Unfolds.render_node ht hn operand, Option.map_some]
  · intro k hk s hs
    rw [Std.TreeMap.getElem?_insert]
    split
    · rename_i he
      cases Std.compare_eq_iff_eq.mp he
      rw [Unfolds.unique hs ht]
    · rename_i hne
      rcases List.mem_append.mp hk with hk | hk
      · exact H k hk s hs
      · exact absurd (Std.compare_eq_iff_eq.mpr (List.mem_singleton.mp hk).symm) hne

/-- Writing goes through, and no text depends on what was written beside it. -/
theorem Covers.foldlM (H : p.Covers numeral texts pre) (hp : p.WF) (h0 : ∀ h ∈ roots, 0 ≤ h)
    (horder : p.reachable roots = pre ++ post) :
    ∃ texts', post.foldlM (p.write? numeral) texts = some texts' ∧
      p.Covers numeral texts' (p.reachable roots) := by
  induction post generalizing pre texts with
  | nil => exact ⟨texts, rfl, by rwa [horder, List.append_nil]⟩
  | cons h post ih =>
    obtain ⟨_, _, hr, hrh⟩ := (mem_reachable_iff hp h0).mp (horder ▸ List.mem_append_cons_self)
    obtain ⟨t, ht⟩ := hp.unfolds (hrh.names hp hr)
    obtain ⟨texts', he, H'⟩ := H.write hp h0 horder ht
    rw [List.foldlM_cons, he]
    exact ih H' (by simp [horder])

/-- The text of a node is that of the term it stands for. -/
theorem Unfolds.render (H : p.Unfolds h t) (hp : p.WF) (numeral : α → String) :
    p.render numeral h = .ok (t.text numeral) := by
  have h0 : ∀ k ∈ [h], 0 ≤ k := List.forall_mem_singleton.mpr (names_iff.mp H.names).1
  have hstart : p.Covers numeral ∅ [] := fun k hk => nomatch hk
  obtain ⟨texts, he, htexts⟩ := hstart.foldlM hp h0 (List.nil_append _).symm
  have hmem := (mem_reachable_iff hp h0).mpr ⟨h, List.mem_cons_self, H.names, .rfl⟩
  simp [Pool.render, render?, he, htexts h hmem t H]

/-! ## Values -/

/-- A node below which no variable is beyond the dimension has a value. -/
theorem Unfolds.evaluation (H : p.Unfolds h t) {x : Array α}
    (hvars : ∀ {k i}, p.Reaches h k → p.Holds k (.var i) → i < x.size) :
    ∃ v, p.Reads (.evaluation x) h v := by
  induction H with
  | const hn _ => exact ⟨_, .const hn rfl⟩
  | var hn _ => exact ⟨_, .var hn (Array.getElem?_eq_getElem (hvars .rfl hn))⟩
  | unary hn _ _ ih =>
    obtain ⟨v, hv⟩ := ih fun hk => hvars (.step hn List.mem_cons_self hk)
    exact ⟨_, .unary hn hv rfl⟩
  | binary hn _ _ _ ihs iht =>
    obtain ⟨v, hv⟩ := ihs fun hk => hvars (.step hn List.mem_cons_self hk)
    obtain ⟨w, hw⟩ := iht fun hk => hvars (.step hn (by simp [Node.args]) hk)
    exact ⟨_, .binary hn hv hw rfl⟩

/-- What the compiled function of a node gives at a point. -/
def HasValue (p : Pool α) (h : Handle) (x : Array α) (v : α) : Prop :=
  ∃ f q, (Build.function x.size (.expression h)).run p = (.ok f, q) ∧ f.apply x = .ok v

theorem HasValue.reads {x : Array α} {v : α} (H : p.HasValue h x v) (ht : p.Unfolds h t)
    (hp : p.WF) : p.Reads (.evaluation x) h v := by
  obtain ⟨f, q, hf, hv⟩ := H
  have h0 : ∀ k ∈ [h], 0 ≤ k := List.forall_mem_singleton.mpr (names_iff.mp ht.names).1
  have hreads : ∃ w, p.Reads (.evaluation x) h w := by
    refine Unfolds.evaluation ht fun hk hn => ?_
    have hmem := (mem_reachable_iff hp h0).mpr ⟨h, List.mem_cons_self, ht.names, hk⟩
    obtain ⟨_, _, he, hc⟩ := Build.run_bind_eq_ok hf
    cases he
    obtain ⟨g, r, hg, _⟩ := Build.run_bind_eq_ok hc
    exact compile_var (congrArg Prod.fst ((Build.run_compile ..).symm.trans hg)) hmem hn
  obtain ⟨w, hw⟩ := hreads
  obtain ⟨f', hf', hw'⟩ := Build.run_function (u := .expression h) rfl hp hw
  cases hf.symm.trans hf'
  cases hv.symm.trans hw'
  exact hw

/-- The values of a node are those of the term it stands for. -/
theorem Unfolds.hasValue_iff {x : Array α} {v : α} (H : p.Unfolds h t) (hp : p.WF) :
    p.HasValue h x v ↔ t.Reads (.evaluation x) v := by
  constructor
  · intro hv
    exact H.reads_iff.mp (hv.reads H hp)
  · intro hv
    obtain ⟨f, hf, hx⟩ := Build.run_function (u := .expression h) rfl hp (H.reads_iff.mpr hv)
    exact ⟨f, p, hf, hx⟩

end Pool

end Downhill
