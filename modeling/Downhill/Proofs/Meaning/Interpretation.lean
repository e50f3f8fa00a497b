import Downhill.Graph.Term
import Downhill.Proofs.Pool.Reachability

/-!
# Interpretations

An interpretation says what numbers, variables and operators stand for, where they stand for
anything. Terms and nodes of a pool are read alike, from the bottom up; a node that refers to shared
operands is read as if each had its own copy (`Unfolds`). Reading is a relation, so that an operator
may have no result, and results are compared in an order of their own.
-/

namespace Downhill

/-- What is read in a term with numbers of type `α`. -/
structure Interpretation (α β : Type) where
  number : α → β → Prop
  var : Nat → β → Prop
  unary : UnaryOp → β → β → Prop
  binary : BinaryOp → β → β → β → Prop
  /-- The second result may stand for the first. -/
  le : β → β → Prop := Eq

inductive Term.Reads (I : Interpretation α β) : Term α → β → Prop where
  | num : I.number v b → Reads I (.num v) b
  | var : I.var i b → Reads I (.var i) b
  | unary : Reads I s b → I.unary op b c → Reads I (.unary op s) c
  | binary : Reads I s b → Reads I t c → I.binary op b c d → Reads I (.binary op s t) d

inductive Pool.Reads (I : Interpretation α β) (p : Pool α) : Handle → β → Prop where
  | const : p.Holds h (.const v) → I.number v b → Reads I p h b
  | var : p.Holds h (.var i) → I.var i b → Reads I p h b
  | unary : p.Holds h (.unary op k) → Reads I p k b → I.unary op b c → Reads I p h c
  | binary : p.Holds h (.binary op k l) → Reads I p k b → Reads I p l c → I.binary op b c d →
    Reads I p h d

namespace Interpretation

/-- Every term and node is read as itself. -/
def syntactic : Interpretation α (Term α) where
  number v t := t = .num v
  var i t := t = .var i
  unary op s t := t = .unary op s
  binary op s s' t := t = .binary op s s'

structure Total (I : Interpretation α β) : Prop where
  number : ∀ v, ∃ b, I.number v b
  var : ∀ i, ∃ b, I.var i b
  unary : ∀ op a, ∃ b, I.unary op a b
  binary : ∀ op a b, ∃ c, I.binary op a b c

structure Functional (I : Interpretation α β) : Prop where
  number : ∀ {v b c}, I.number v b → I.number v c → b = c
  var : ∀ {i b c}, I.var i b → I.var i c → b = c
  unary : ∀ {op a b c}, I.unary op a b → I.unary op a c → b = c
  binary : ∀ {op a a' b c}, I.binary op a a' b → I.binary op a a' c → b = c

theorem total_syntactic : (syntactic : Interpretation α (Term α)).Total :=
  ⟨fun _ => ⟨_, rfl⟩, fun _ => ⟨_, rfl⟩, fun _ _ => ⟨_, rfl⟩, fun _ _ _ => ⟨_, rfl⟩⟩

theorem functional_syntactic : (syntactic : Interpretation α (Term α)).Functional where
  number hs ht := hs.trans ht.symm
  var hs ht := hs.trans ht.symm
  unary hs ht := hs.trans ht.symm
  binary hs ht := hs.trans ht.symm

end Interpretation

namespace Pool

variable {α β : Type} {p q : Pool α} {h a k l : Handle} {I : Interpretation α β}

namespace Reads

theorem mono (H : p.Reads I h b) (hle : p ≤ q) : q.Reads I h b := by
  induction H with
  | const hn hb => exact .const (hn.mono hle) hb
  | var hn hb => exact .var (hn.mono hle) hb
  | unary hn _ hc ih => exact .unary (hn.mono hle) ih hc
  | binary hn _ _ hd ihb ihc => exact .binary (hn.mono hle) ihb ihc hd

theorem names (H : p.Reads I h b) : p.Names h := by
  cases H with
  | const hn | var hn | unary hn | binary hn => exact hn.names

theorem of_const (H : p.Reads I h b) (hn : p.Holds h (.const v)) : I.number v b := by
  cases H with
  | const hn' hb => cases hn.unique hn'; exact hb
  | var hn' | unary hn' | binary hn' => cases hn.unique hn'

theorem of_var (H : p.Reads I h b) (hn : p.Holds h (.var i)) : I.var i b := by
  cases H with
  | var hn' hb => cases hn.unique hn'; exact hb
  | const hn' | unary hn' | binary hn' => cases hn.unique hn'

theorem of_unary (H : p.Reads I h c) (hn : p.Holds h (.unary op a)) :
    ∃ b, p.Reads I a b ∧ I.unary op b c := by
  cases H with
  | unary hn' hb hc => cases hn.unique hn'; exact ⟨_, hb, hc⟩
  | const hn' | var hn' | binary hn' => cases hn.unique hn'

theorem of_binary (H : p.Reads I h d) (hn : p.Holds h (.binary op k l)) :
    ∃ b c, p.Reads I k b ∧ p.Reads I l c ∧ I.binary op b c d := by
  cases H with
  | binary hn' hb hc hd => cases hn.unique hn'; exact ⟨_, _, hb, hc, hd⟩
  | const hn' | var hn' | unary hn' => cases hn.unique hn'

/-- A node of a pool that grew is read as before. -/
theorem old [Scalar α] (H : q.Reads I h b) (hp : p.WF) (hle : p ≤ q) (hh : p.Names h) :
    p.Reads I h b := by
  induction H with
  | const hn hb => exact .const (hn.old hle hh) hb
  | var hn hb => exact .var (hn.old hle hh) hb
  | unary hn _ hc ih =>
    have hn' := hn.old hle hh
    exact .unary hn' (ih (hp.unary_arg hn')) hc
  | binary hn _ _ hd ihb ihc =>
    have hn' := hn.old hle hh
    obtain ⟨hk, hl⟩ := hp.binary_args hn'
    exact .binary hn' (ihb hk) (ihc hl) hd

theorem functional (hI : I.Functional) (H : p.Reads I h b) (H' : p.Reads I h c) : b = c := by
  induction H generalizing c with
  | const hn hb => exact hI.number hb (H'.of_const hn)
  | var hn hb => exact hI.var hb (H'.of_var hn)
  | unary hn _ hc ih =>
    obtain ⟨b, hb, hc'⟩ := H'.of_unary hn
    cases ih hb
    exact hI.unary hc hc'
  | binary hn _ _ hd ihb ihc =>
    obtain ⟨b, c, hb, hc, hd'⟩ := H'.of_binary hn
    cases ihb hb
    cases ihc hc
    exact hI.binary hd hd'

theorem arg (H : p.Reads I h b) (hn : p.Holds h n) (ha : a ∈ n.args) : ∃ c, p.Reads I a c := by
  cases n with
  | const | var => exact nomatch ha
  | unary op k =>
    obtain ⟨c, hc, _⟩ := H.of_unary hn
    cases List.mem_singleton.mp ha
    exact ⟨c, hc⟩
  | binary op k l =>
    obtain ⟨c, d, hc, hd, _⟩ := H.of_binary hn
    rcases List.mem_cons.mp ha with rfl | ha
    · exact ⟨c, hc⟩
    · cases List.mem_singleton.mp ha
      exact ⟨d, hd⟩

/-- All nodes below a node that is read are read. -/
theorem reaches (H : p.Reads I h b) (hr : p.Reaches h k) : ∃ c, p.Reads I k c := by
  induction hr generalizing b with
  | rfl => exact ⟨b, H⟩
  | step hn ha _ ih =>
    obtain ⟨c, hc⟩ := H.arg hn ha
    exact ih hc

end Reads

/-- A total reading reads every node. -/
theorem WF.reads [Scalar α] (hp : p.WF) (hI : I.Total) (hh : p.Names h) : ∃ b, p.Reads I h b := by
  refine hp.induction (P := fun h => ∃ b, p.Reads I h b) (fun {h n} hn below => ?_) hh
  cases n with
  | const v => exact (hI.number v).imp fun _ => .const hn
  | var i => exact (hI.var i).imp fun _ => .var hn
  | unary op a =>
    obtain ⟨b, hb⟩ := below a List.mem_cons_self
    exact (hI.unary op b).imp fun _ => .unary hn hb
  | binary op a a' =>
    obtain ⟨b, hb⟩ := below a List.mem_cons_self
    obtain ⟨c, hc⟩ := below a' (List.mem_cons_of_mem _ List.mem_cons_self)
    exact (hI.binary op b c).imp fun _ => .binary hn hb hc

/-! ## Terms of nodes -/

/-- The term that a node stands for. -/
abbrev Unfolds (p : Pool α) : Handle → Term α → Prop := p.Reads .syntactic

theorem WF.unfolds [Scalar α] (hp : p.WF) (hh : p.Names h) : ∃ t, p.Unfolds h t :=
  hp.reads Interpretation.total_syntactic hh

theorem Unfolds.unique {s t : Term α} (H : p.Unfolds h s) (H' : p.Unfolds h t) : s = t :=
  Reads.functional Interpretation.functional_syntactic H H'

/-- A node is read as the term it stands for. -/
theorem Unfolds.reads_iff {t : Term α} (H : p.Unfolds h t) : p.Reads I h b ↔ t.Reads I b := by
  induction H generalizing b with
  | const hn ht =>
    cases ht
    constructor
    · intro H
      exact .num (H.of_const hn)
    · intro H
      cases H with | num hb => exact .const hn hb
  | var hn ht =>
    cases ht
    constructor
    · intro H
      exact .var (H.of_var hn)
    · intro H
      cases H with | var hb => exact .var hn hb
  | unary hn _ ht ih =>
    cases ht
    constructor
    · intro H
      obtain ⟨b, hb, hc⟩ := H.of_unary hn
      exact .unary (ih.mp hb) hc
    · intro H
      cases H with | unary hb hc => exact .unary hn (ih.mpr hb) hc
  | binary hn _ _ ht ihs iht =>
    cases ht
    constructor
    · intro H
      obtain ⟨b, c, hb, hc, hd⟩ := H.of_binary hn
      exact .binary (ihs.mp hb) (iht.mp hc) hd
    · intro H
      cases H with | binary hb hc hd => exact .binary hn (ihs.mpr hb) (iht.mpr hc) hd

end Pool

end Downhill
