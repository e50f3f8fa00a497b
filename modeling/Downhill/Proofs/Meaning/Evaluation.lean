import Downhill.Proofs.Meaning.Execution
import Downhill.Proofs.Meaning.Writing

/-!
# Evaluation of what was written

In an arithmetic where operators may have no defined result, a written term is evaluated operator by
operator (`Term.Evaluates`). As long as the identities that simplification makes use of hold for
defined values (`Scalar.Identities`), the compiled expression has the same value, whatever else is
in the pool (`compiled_evaluates`).
-/

namespace Downhill

open scoped Scalar

/-- The value of a term at a point, with every value on the way defined. -/
inductive Term.Evaluates [Scalar α] (D : α → Prop) (x : Array α) : Term α → α → Prop where
  | num : D v → Evaluates D x (.num v) v
  | var : x[i]? = some v → D v → Evaluates D x (.var i) v
  | unary : Evaluates D x s u → D (Scalar.unary op u) →
    Evaluates D x (.unary op s) (Scalar.unary op u)
  | binary : Evaluates D x s u → Evaluates D x t v → D (Scalar.binary op u v) →
    Evaluates D x (.binary op s t) (Scalar.binary op u v)

/-- The identities of an arithmetic whose defined values are those in `D`. -/
structure Scalar.Identities [Scalar α] (D : α → Prop) : Prop where
  eq_sound : ∀ {a b : α}, D a → Scalar.eq a b = true → a = b
  add_zero : ∀ {a : α}, D a → a + Scalar.nat 0 = a
  zero_add : ∀ {a : α}, D a → Scalar.nat 0 + a = a
  sub_zero : ∀ {a : α}, D a → a - Scalar.nat 0 = a
  zero_sub : ∀ {a : α}, D a → Scalar.nat 0 - a = -a
  neg_neg : ∀ {a : α}, D a → -(-a) = a
  mul_one : ∀ {a : α}, D a → a * Scalar.nat 1 = a
  one_mul : ∀ {a : α}, D a → Scalar.nat 1 * a = a
  mul_zero : ∀ {a : α}, D a → a * Scalar.nat 0 = Scalar.nat 0
  zero_mul : ∀ {a : α}, D a → Scalar.nat 0 * a = Scalar.nat 0
  div_one : ∀ {a : α}, D a → a / Scalar.nat 1 = a
  /-- Zero over zero has no other value. -/
  zero_div : ∀ {a : α}, D a → D (Scalar.nat 0 / a) → Scalar.nat 0 / a = Scalar.nat 0
  pow_one : ∀ {a : α}, D a → Scalar.binary .pow a (Scalar.nat 1) = a
  pow_zero : ∀ {a : α}, D a → Scalar.binary .pow a (Scalar.nat 0) = Scalar.nat 1

variable {α : Type} [Scalar α] {D : α → Prop} {x : Array α}

/-! ## Defined values as a reading -/

def Interpretation.defined (D : α → Prop) (x : Array α) : Interpretation α (Subtype D) where
  number v b := b.val = v
  var i b := x[i]? = some b.val
  unary op a b := b.val = Scalar.unary op a.val
  binary op a b c := c.val = Scalar.binary op a.val b.val

theorem Term.Evaluates.reads {t : Term α} (H : t.Evaluates D x v) :
    ∃ hv, t.Reads (.defined D x) ⟨v, hv⟩ := by
  induction H with
  | num hv => exact ⟨hv, .num rfl⟩
  | var hi hv => exact ⟨hv, .var hi⟩
  | unary _ hv ih =>
    obtain ⟨_, hs⟩ := ih
    exact ⟨hv, .unary hs rfl⟩
  | binary _ _ hv ihs iht =>
    obtain ⟨_, hs⟩ := ihs
    obtain ⟨_, ht⟩ := iht
    exact ⟨hv, .binary hs ht rfl⟩

namespace Interpretation

variable {a b c z : Subtype D} {n : Nat}

theorem literal_defined (A : Scalar.Identities D) (H : (defined D x).Literal n z) :
    z.val = Scalar.nat n := by
  obtain ⟨v, hv, hz⟩ := H
  exact A.eq_sound z.property (hz ▸ hv)

theorem literal_left (A : Scalar.Identities D) (hz : (defined D x).Literal n z)
    (hc : (defined D x).binary op z a c) : c.val = Scalar.binary op (Scalar.nat n) a.val :=
  hc.trans (congrArg (Scalar.binary op · a.val) (literal_defined A hz))

theorem literal_right (A : Scalar.Identities D) (hz : (defined D x).Literal n z)
    (hc : (defined D x).binary op a z c) : c.val = Scalar.binary op a.val (Scalar.nat n) :=
  hc.trans (congrArg (Scalar.binary op a.val ·) (literal_defined A hz))

theorem lawful_defined (A : Scalar.Identities D) (x : Array α) : (defined D x).Lawful where
  refl := rfl
  trans h h' := h.trans h'
  unary_mono := by
    intro op a b c hc hle
    cases hle
    exact ⟨c, hc, rfl⟩
  binary_mono := by
    intro op a a' b b' c hc hle hle'
    cases hle
    cases hle'
    exact ⟨c, hc, rfl⟩
  equal {v w b} hb he := ⟨b, hb.trans (A.eq_sound (hb ▸ b.property) he), rfl⟩
  unary_number {op v b c} hb hc := ⟨c, hc.trans (congrArg (Scalar.unary op) hb), rfl⟩
  binary_number {op v w a b c} ha hb hc :=
    ⟨c, hc.trans (congrArg₂ (Scalar.binary op) ha hb), rfl⟩
  neg_neg {a b c} hb hc :=
    Subtype.ext ((hc.trans (congrArg (Scalar.unary .neg) hb)).trans (A.neg_neg a.property))
  zero_add {z a c} hz hc := Subtype.ext ((literal_left A hz hc).trans (A.zero_add a.property))
  add_zero {z a c} hz hc := Subtype.ext ((literal_right A hz hc).trans (A.add_zero a.property))
  sub_zero {z a c} hz hc := Subtype.ext ((literal_right A hz hc).trans (A.sub_zero a.property))
  zero_sub {z a c} hz hc := ⟨c, (literal_left A hz hc).trans (A.zero_sub a.property), rfl⟩
  zero_mul {z a c} hz hc := ⟨c, (literal_left A hz hc).trans (A.zero_mul a.property), rfl⟩
  mul_zero {z a c} hz hc := ⟨c, (literal_right A hz hc).trans (A.mul_zero a.property), rfl⟩
  one_mul {z a c} hz hc := Subtype.ext ((literal_left A hz hc).trans (A.one_mul a.property))
  mul_one {z a c} hz hc := Subtype.ext ((literal_right A hz hc).trans (A.mul_one a.property))
  div_one {z a c} hz hc := Subtype.ext ((literal_right A hz hc).trans (A.div_one a.property))
  zero_div {z a c} hz hc := by
    have he := literal_left A hz hc
    have hd : D (Scalar.nat 0 / a.val) := by
      rw [show Scalar.nat 0 / a.val = c.val from he.symm]
      exact c.property
    exact ⟨c, he.trans (A.zero_div a.property hd), rfl⟩
  pow_one {z a c} hz hc := Subtype.ext ((literal_right A hz hc).trans (A.pow_one a.property))
  pow_zero {z a c} hz hc := ⟨c, (literal_right A hz hc).trans (A.pow_zero a.property), rfl⟩

end Interpretation

/-- A node that means a defined value evaluates to it. -/
theorem Pool.Reads.evaluates {p : Pool α} {v : Subtype D} (H : p.Reads (.defined D x) h v) :
    p.Reads (.evaluation x) h v.val := by
  induction H with
  | const hn hb => exact .const hn hb
  | var hn hb => exact .var hn hb
  | unary hn _ hc ih => exact .unary hn ih hc
  | binary hn _ _ hd ihb ihc => exact .binary hn ihb ihc hd

theorem Pool.Means.evaluates {p : Pool α} {v : Subtype D} (H : p.Means (.defined D x) h v) :
    p.Reads (.evaluation x) h v.val := by
  obtain ⟨w, hw, rfl⟩ := H
  exact hw.evaluates

/-! ## Compiled expressions -/

variable {p q : Pool α} {u : Operand α} {t : Term α} {v : α}

/-- An operand evaluates to the value of the term it was written as. -/
theorem Written.evaluates (A : Scalar.Identities D) (H : Written p u t) (ht : t.Evaluates D x v) :
    ∃ h q, (Build.expression u).run p = (.ok h, q) ∧ q.WF ∧ q.Reads (.evaluation x) h v := by
  obtain ⟨hv, ht⟩ := ht.reads
  have L := Interpretation.lawful_defined A x
  obtain ⟨h, q, hr, hh⟩ := (H.means L ht).expression L.kept H.valid.1.wf
  have he := ((Build.expression_ensures H.valid.1.wf H.nonneg).run_ok hr).1
  exact ⟨h, q, hr, he.wf H.valid.1.wf, hh.evaluates⟩

theorem written_roots (A : Scalar.Identities D) {hs : List Handle} {ts : List (Term α)}
    {vs : List α} (H : List.Forall₂ (fun h t => Written p (.expression h) t) hs ts)
    (ht : List.Forall₂ (Term.Evaluates D x) ts vs) :
    List.Forall₂ (p.Reads (.evaluation x)) hs vs := by
  induction H generalizing vs with
  | nil => cases ht; exact .nil
  | cons hw _ ih =>
    cases ht with
    | cons hv hvs =>
      obtain ⟨_, _, hr, _, hh⟩ := hw.evaluates A hv
      cases hr
      exact .cons hh (ih hvs)

/-- Compiled functions, programs with several roots and compiled gradients all give the values of
the terms that their roots were written as. -/
theorem compiled_evaluates (A : Scalar.Identities D) (x : Array α) :
    (∀ {p u t v}, Written p u t → t.Evaluates D x v →
      ∃ f q, (Build.function x.size u).run p = (.ok f, q) ∧ f.apply x = .ok v) ∧
    (∀ {p hs ts vs}, p.Reached → List.Forall₂ (fun h t => Written p (.expression h) t) hs ts →
      List.Forall₂ (Term.Evaluates D x) ts vs →
      ∃ g, (Build.compile hs x.size).run p = (.ok g, p) ∧ g.admits x.size = .ok () ∧
        g.run .point x = vs) ∧
    ∀ {p u t h r ds q ts vs}, Written p u t → (Build.expression u).run p = (.ok h, r) →
      (Build.gradient h x.size).run r = (.ok ds, q) → List.Forall₂ q.Unfolds ds ts →
      List.Forall₂ (Term.Evaluates D x) ts vs →
      ∃ g, (Build.compiledGradient x.size u).run p = (.ok g, q) ∧ g.apply x = .ok vs.toArray := by
  refine ⟨?_, ?_, ?_⟩
  · intro p u t v H ht
    obtain ⟨h, q, hr, hq, hh⟩ := H.evaluates A ht
    obtain ⟨f, hf, hx⟩ := Build.run_function hr hq hh
    exact ⟨f, q, hf, hx⟩
  · intro p hs ts vs hp H ht
    obtain ⟨g, hg, hadmits, hrun⟩ := Pool.compile_run hp.wf (written_roots A H ht)
    exact ⟨g, by rw [Build.run_compile, hg], hadmits, hrun⟩
  · intro p u t h r ds q ts vs H he hg hts hvs
    have hr := H.expression he
    have hq : q.Reached := Build.run_snd hg ▸ hr.valid.1.call (.gradient h x.size) hr.nonneg
    have hroots := written_roots A (hts.imp fun _ _ => .node hq) hvs
    obtain ⟨g, hc, hadmits, hrun⟩ := Pool.compile_run hq.wf hroots
    refine ⟨⟨h, ds, g⟩, ?_, (CompiledGradient.apply_eq hadmits).trans (by rw [hrun])⟩
    rw [Build.compiledGradient, Build.run_bind_ok he, Build.run_bind_ok hg]
    exact Build.run_bind_ok ((Build.run_compile ..).trans (by rw [hc]))

end Downhill
