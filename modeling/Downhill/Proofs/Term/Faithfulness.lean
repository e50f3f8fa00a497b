import Mathlib
import Downhill.Proofs.Real.PartialReal
import Downhill.Proofs.Term.Reading

/-!
# What texts mean

The text of a node means the node, whatever the arithmetic, as long as a minus makes the negative
numbers of it and no base of a power begins with a minus (`Pool.Reached.text_means`). With a minus
before its base a power is read as the negative of a power (`Pool.negated_square`).
-/

namespace Downhill

open Decoded (ofDouble)

variable {β : Type} {E : Interpretation Decoded β} {b : β}

namespace Interpretation

/-- Numerals stand for numbers. -/
def numerals (E : Interpretation Decoded β) : Interpretation Numeral β where
  number l b := ∃ d, l.Denotes d ∧ E.number d b
  var := E.var
  unary := E.unary
  binary := E.binary

/-- Doubles stand for the numbers that they are. -/
def doubles (E : Interpretation Decoded β) : Interpretation Float β where
  number v := E.number (ofDouble v)
  var := E.var
  unary := E.unary
  binary := E.binary

/-- A minus before a number makes the number with the other sign. -/
def Signed (E : Interpretation Decoded β) : Prop :=
  ∀ d b, E.number d.neg b ↔ ∃ c, E.number d c ∧ E.unary .neg c b

/-- Exact arithmetic at a point. -/
def exact (x : Array ℝ) : Interpretation Decoded ℝ where
  number d b := ∃ f, d = .finite f ∧ b = if f.negative then -(f.value : ℝ) else f.value
  var i b := x[i]? = some b
  unary op a b := op.Domain a ∧ op.real a = b
  binary op a b c := op.Domain a b ∧ op.real a b = c

theorem signed_exact (x : Array ℝ) : (exact x).Signed := by
  intro d b
  constructor
  · rintro ⟨f, hf, rfl⟩
    cases d with
    | nan | infinite => cases hf
    | finite g =>
      cases hf
      refine ⟨_, ⟨g, rfl, rfl⟩, trivial, ?_⟩
      have hvalue : Binary.value { g with negative := !g.negative } = g.value := rfl
      rw [hvalue]
      cases g.negative <;> simp [UnaryOp.real]
  · rintro ⟨c, ⟨f, rfl, rfl⟩, _, rfl⟩
    refine ⟨_, rfl, ?_⟩
    have hvalue : Binary.value { f with negative := !f.negative } = f.value := rfl
    rw [hvalue]
    cases f.negative <;> simp [UnaryOp.real]

end Interpretation

namespace Term

variable {t : Term Float}

theorem reads_num {I : Interpretation α β} : (num v).Reads I b ↔ I.number v b := by
  constructor
  · rintro (H | _)
    exact H
  · exact .num

theorem reads_unary {I : Interpretation α β} {t : Term α} :
    (unary op t).Reads I b ↔ ∃ c, t.Reads I c ∧ I.unary op c b := by
  constructor
  · intro H
    cases H with | unary hc hb => exact ⟨_, hc, hb⟩
  · rintro ⟨c, hc, hb⟩
    exact .unary hc hb

theorem reads_binary {I : Interpretation α β} {s t : Term α} :
    (binary op s t).Reads I b ↔ ∃ c d, s.Reads I c ∧ t.Reads I d ∧ I.binary op c d b := by
  constructor
  · intro H
    cases H with | binary hc hd hb => exact ⟨_, _, hc, hd, hb⟩
  · rintro ⟨c, d, hc, hd, hb⟩
    exact .binary hc hd hb

/-- No base of a power begins with a minus, nor is it a negative number. -/
def Plain : Term Float → Prop
  | num _ | var _ => True
  | unary _ t => t.Plain
  | binary op s t => (op = .pow → s.minuses = 0) ∧ s.Plain ∧ t.Plain

theorem reads_asRead_num (hE : E.Signed) {v : Float} (hv : v.isNaN = false) :
    (num v).asRead.Reads E.numerals b ↔ E.number (ofDouble v) b := by
  have hnumeral (b : β) :
      (num (ofDouble v).magnitude).Reads E.numerals b ↔ E.number (ofDouble v).abs b := by
    rw [reads_num]
    constructor
    · rintro ⟨d, hd, hb⟩
      rwa [← (Decoded.magnitude_denotes_iff hv).mp hd]
    · intro hb
      exact ⟨_, (Decoded.magnitude_denotes_iff hv).mpr rfl, hb⟩
  rw [asRead_num]
  cases hn : (ofDouble v).negative with
  | false => rw [if_neg Bool.false_ne_true, hnumeral, Decoded.abs_of_positive hn]
  | true =>
    have hsigned := hE (ofDouble v).abs b
    rw [Decoded.neg_abs_of_negative hn] at hsigned
    rw [if_pos rfl, reads_unary, hsigned]
    simp only [hnumeral]
    rfl

/-- A term is read as what it means. -/
theorem Plain.reads_asRead (H : t.Plain) (ht : t.Tidy) (hE : E.Signed) :
    t.asRead.Reads E.numerals b ↔ t.Reads E.doubles b := by
  induction t generalizing b with
  | num v => rw [reads_asRead_num hE ht, reads_num]; rfl
  | var i =>
    constructor
    · rintro (_ | H)
      exact .var H
    · rintro (_ | H)
      exact .var H
  | unary op t ih =>
    have hread : (unary op t).asRead = unary op t.asRead := by
      by_cases hop : op = .neg
      · subst hop
        exact asRead_neg t
      · exact asRead_unary hop
    rw [hread, reads_unary, reads_unary]
    simp only [ih H ht.1]
    rfl
  | binary op s t ihs iht =>
    obtain ⟨hbase, hs, ht'⟩ := H
    have hread : (binary op s t).asRead = binary op s.asRead t.asRead := by
      by_cases hop : op = .pow
      · subst hop
        have hcore : s.asRead = s.core := by
          rw [asRead, hbase rfl]
          rfl
        rw [asRead_pow, hbase rfl, hcore]
        rfl
      · exact asRead_binary hop
    rw [hread, reads_binary, reads_binary]
    simp only [ihs hs ht.1, iht ht' ht.2]
    rfl

end Term

namespace Pool

variable {p : Pool Float} {h : Handle}

/-- The text of a node is read as the term that the node stands for, but for minuses before powers.
Without these it means in any arithmetic what the node means. -/
theorem Reached.text_means (H : p.Reached) (hh : p.Names h) (hnan : p.NaNFree h) :
    ∃ s t, p.render numeral h = .ok s ∧ p.Unfolds h t ∧ readText? s = some t.asRead ∧
      (t.Plain → ∀ {β : Type} (E : Interpretation Decoded β), E.Signed →
        ∀ b, t.asRead.Reads E.numerals b ↔ p.Reads E.doubles h b) := by
  obtain ⟨t, ht⟩ := H.wf.unfolds hh
  have htidy := ht.tidy H.wf hnan
  refine ⟨t.text numeral, t, ht.render H.wf numeral, ht, Term.readText?_text htidy, ?_⟩
  intro hplain β E hE b
  rw [hplain.reads_asRead htidy hE, ht.reads_iff]

/-- A power with a minus before its exponent. -/
theorem text_means_reciprocal :
    let p := (Call.combine .pow (.expression 0) (.expression 1) : Call Float).after
      ((Call.apply .neg (.expression 0)).after ((Call.vars 1).after .empty))
    let E := Interpretation.exact #[2]
    p.Reached ∧ p.NaNFree 2 ∧ p.render numeral 2 = .ok "(x[0] ** -x[0])" ∧
      ∃ e, readText? "(x[0] ** -x[0])" = some e ∧ e.Reads E.numerals (1 / 4) := by
  intro p E
  have hvars : ((Call.vars 1).after .empty : Pool Float).Reached := Reached.empty.call _ trivial
  have hneg := hvars.call (.apply .neg (.expression 0)) (Int.natCast_nonneg 0)
  have hp : p.Reached := hneg.call (.combine .pow (.expression 0) (.expression 1))
    ⟨Int.natCast_nonneg 0, Int.natCast_nonneg 1⟩
  have hnan : p.NaNFree 2 := nanFree (by decide +kernel) 2
  have hx : p.Holds 0 (.var 0) :=
    holds_of_find? (k := 0) hp.wf.indexed (by decide +kernel) nofun
  have hn : p.Holds 1 (.unary .neg 0) :=
    holds_of_find? (k := 1) hp.wf.indexed (by decide +kernel) nofun
  have hpow : p.Holds 2 (.binary .pow 0 1) :=
    holds_of_find? (k := 2) hp.wf.indexed (by decide +kernel) nofun
  have hunfolds : p.Unfolds 2 (.binary .pow (.var 0) (.unary .neg (.var 0))) :=
    .binary hpow (.var hx rfl) (.unary hn (.var hx rfl) rfl) rfl
  have htext : p.render numeral 2 = .ok "(x[0] ** -x[0])" :=
    (hunfolds.render hp.wf numeral).trans (congrArg _ (by decide +kernel))
  obtain ⟨s, t, hs, ht, hread, hmeans⟩ := hp.text_means hpow.names hnan
  obtain rfl := ht.unique hunfolds
  cases hs.symm.trans htext
  have htwo : E.doubles.var 0 2 := rfl
  have hpower : E.doubles.binary .pow 2 (-2) (1 / 4) := by
    refine ⟨.inl two_pos, ?_⟩
    norm_num [BinaryOp.real, Real.rpow_neg]
  have hvalue : p.Reads E.doubles 2 (1 / 4) :=
    .binary hpow (.var hx htwo) (.unary hn (.var hx htwo) ⟨trivial, rfl⟩) hpower
  have hplain : Term.Plain (.binary .pow (.var 0) (.unary .neg (.var 0))) :=
    ⟨fun _ => rfl, trivial, trivial⟩
  exact ⟨hp, hnan, htext, _, hread,
    (hmeans hplain E (Interpretation.signed_exact _) _).mpr hvalue⟩

/-- The negative of a number, squared, is read as the negative of its square. -/
theorem negated_square :
    let p := (Call.combine .pow (.expression 1) (.number 2) : Call Float).after
      ((Call.apply .neg (.expression 0)).after ((Call.vars 1).after .empty))
    let E := Interpretation.exact #[3]
    p.Reached ∧ p.NaNFree 3 ∧ p.render numeral 3 = .ok "(-x[0] ** 2.0)" ∧ p.Reads E.doubles 3 9 ∧
      ∃ e, readText? "(-x[0] ** 2.0)" = some e ∧ e.Reads E.numerals (-9) ∧
        ¬e.Reads E.numerals 9 := by
  intro p E
  have hvars : ((Call.vars 1).after .empty : Pool Float).Reached := Reached.empty.call _ trivial
  have hneg := hvars.call (.apply .neg (.expression 0)) (Int.natCast_nonneg 0)
  have hp : p.Reached := hneg.call (.combine .pow (.expression 1) (.number 2))
    ⟨Int.natCast_nonneg 1, trivial⟩
  have hnan : p.NaNFree 3 := nanFree (by decide +kernel) 3
  have hx : p.Holds 0 (.var 0) :=
    holds_of_find? (k := 0) hp.wf.indexed (by decide +kernel) nofun
  have hn : p.Holds 1 (.unary .neg 0) :=
    holds_of_find? (k := 1) hp.wf.indexed (by decide +kernel) nofun
  have hpow : p.Holds 3 (.binary .pow 1 2) :=
    holds_of_find? (k := 3) hp.wf.indexed (by decide +kernel) nofun
  have hc : p.Holds 2 (.const 2) :=
    holds_of_constant? (hp.wf.binary_args hpow).2 (by decide +kernel)
  have hunfolds : p.Unfolds 3 (.binary .pow (.unary .neg (.var 0)) (.num 2)) :=
    .binary hpow (.unary hn (.var hx rfl) rfl) (.const hc rfl) rfl
  have htext : Term.text numeral (.binary .pow (.unary .neg (.var 0)) (.num 2)) =
      "(-x[0] ** 2.0)" := by decide +kernel
  have hthree : E.var 0 3 := rfl
  have hdecoded : ofDouble 2 = .finite ⟨false, 2 ^ 52, -51, true⟩ := by decide +kernel
  have htwo : E.number (ofDouble 2) 2 := by
    refine ⟨_, hdecoded, ?_⟩
    norm_num [Binary.value]
  have hvalue : p.Reads E.doubles 3 9 := by
    refine .binary hpow (.unary hn (.var hx hthree) ⟨trivial, rfl⟩) (.const hc htwo) ⟨?_, ?_⟩
    · exact .inr (.inr ⟨by norm_num [UnaryOp.real], 2, by norm_num⟩)
    · norm_num [BinaryOp.real, UnaryOp.real]
  have hdenotes : (ofDouble 2).magnitude.Denotes (ofDouble 2) := by
    rw [Decoded.magnitude_denotes_iff (by decide +kernel), hdecoded]
    rfl
  have hread := Term.readText?_text (hunfolds.tidy hp.wf hnan)
  rw [htext, Term.asRead_pow, Term.asRead_num, hdecoded, ← hdecoded] at hread
  refine ⟨hp, hnan, ?_, hvalue, _, hread, ?_, ?_⟩
  · rw [hunfolds.render hp.wf numeral, htext]
  · refine .unary (.binary (.var hthree) (.num ⟨_, hdenotes, htwo⟩) ⟨.inl three_pos, rfl⟩)
      ⟨trivial, ?_⟩
    norm_num [BinaryOp.real, UnaryOp.real]
  · intro H
    obtain ⟨c, hc, _, hneg⟩ := Term.reads_unary.mp H
    obtain ⟨a, d, ha, _, _, hpower⟩ := Term.reads_binary.mp hc
    cases ha with
    | var ha =>
      cases hthree.symm.trans ha
      have hpos : (0 : ℝ) < 3 ^ d := Real.rpow_pos_of_pos three_pos d
      have hc : (3 : ℝ) ^ d = c := hpower
      have hneg : -c = 9 := hneg
      linarith

end Pool

end Downhill
