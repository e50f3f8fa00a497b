import Downhill.Proofs.Meaning.Sharing
import Downhill.Proofs.Term.Simplified
import Downhill.Proofs.Term.Text

/-!
# Texts that can be read back

The text of a term determines the term, as long as numerals can be told apart (`Legible`) and there
is no minus before a number, which simplification sees to (`Term.readable`). The first characters of
a text tell what kind of term it is (`lead_chars`); what follows is read from left to right, each
operand up to the mark behind it.
-/

namespace Downhill

/-! ## Tokens -/

/-- What ends a numeral, a name or an index. -/
def isMark (c : Char) : Bool := c == ' ' || c == '(' || c == ')' || c == '[' || c == ']'

def NoMarks (l : List Char) : Prop := ∀ c ∈ l, isMark c = false

/-- Nothing follows, or a mark does. -/
def Marked (l : List Char) : Prop := ∀ c ∈ l.head?, isMark c = true

theorem Marked.nil : Marked [] := by
  intro c hc
  cases hc

theorem Marked.cons {c : Char} (hc : isMark c = true) (l : List Char) : Marked (c :: l) := by
  intro d hd
  cases hd
  exact hc

/-- A token is read up to the mark behind it. -/
theorem NoMarks.unique {a b r r' : List Char} (ha : NoMarks a) (hb : NoMarks b) (hr : Marked r)
    (hr' : Marked r') (h : a ++ r = b ++ r') : a = b ∧ r = r' := by
  induction a generalizing b with
  | nil =>
    cases b with
    | nil => exact ⟨rfl, h⟩
    | cons c b =>
      have hmark : isMark c = true := hr c (by rw [List.nil_append] at h; simp [h])
      rw [hb c List.mem_cons_self] at hmark
      cases hmark
  | cons c a ih =>
    cases b with
    | nil =>
      have hmark : isMark c = true := hr' c (by rw [List.nil_append] at h; simp [← h])
      rw [ha c List.mem_cons_self] at hmark
      cases hmark
    | cons d b =>
      obtain ⟨hcd, htail⟩ := List.cons.inj h
      obtain ⟨hab, hr⟩ := ih (fun c hc => ha c (List.mem_cons_of_mem _ hc))
        (fun c hc => hb c (List.mem_cons_of_mem _ hc)) htail
      exact ⟨by rw [hcd, hab], hr⟩

/-- A numeral begins so, but for its sign. -/
def opens (c : Char) : Bool := c.isDigit || c == 'i'

/-- Numerals that can be told apart from each other and from everything else in a text. -/
structure Legible (numeral : Float → String) : Prop where
  injective : ∀ {v w : Float}, v.isNaN = false → w.isNaN = false → numeral v = numeral w → v = w
  noMarks : ∀ {v : Float}, v.isNaN = false → NoMarks (numeral v).toList
  opening : ∀ {v : Float}, v.isNaN = false → ∃ c rest, opens c = true ∧
    ((numeral v).toList = c :: rest ∨ (numeral v).toList = '-' :: c :: rest)

theorem isMark_of_isDigit {c : Char} (hc : c.isDigit = true) : isMark c = false := by
  refine Bool.eq_false_iff.mpr fun hmark => ?_
  simp only [isMark, Bool.or_eq_true, beq_iff_eq] at hmark
  rcases hmark with (((rfl | rfl) | rfl) | rfl) | rfl <;> cases hc

theorem noMarks_toDigits (n : Nat) : NoMarks (toString n).toList := by
  intro c hc
  have hdigit : c ∈ Nat.toDigits 10 n := by simpa using hc
  exact isMark_of_isDigit (Nat.isDigit_of_mem_toDigits (by decide) (by decide) hdigit)

/-! ## Operators -/

namespace UnaryOp

theorem noMarks_name (op : UnaryOp) : NoMarks op.name.toList := by
  cases op <;> simp [NoMarks, isMark, name]

theorem name_injective {op op' : UnaryOp} (h : op.name = op'.name) : op = op' := by
  have hop := Operator.ofName?_name (.unary op)
  have hop' := Operator.ofName?_name (.unary op')
  rw [show Operator.name (.unary op) = Operator.name (.unary op') from h] at hop
  cases hop.symm.trans hop'
  rfl

end UnaryOp

namespace BinaryOp

theorem noMarks_symbol (op : BinaryOp) : NoMarks op.symbol.toList := by
  cases op <;> simp [NoMarks, isMark, symbol]

theorem symbol_injective {op op' : BinaryOp} (h : op.symbol = op'.symbol) : op = op' := by
  cases op <;> cases op' <;> first | rfl | exact absurd h (by decide)

end BinaryOp

/-! ## Texts -/

/-- How a term is written. -/
inductive Lead where
  | number | variable | negation | function | operation
  deriving DecidableEq

/-- What the first characters of a text tell. -/
def lead : List Char → Lead
  | '(' :: _ => .operation
  | 'x' :: _ => .variable
  | '-' :: l => if l.head?.any opens then .number else .negation
  | l => if l.head?.any opens then .number else .function

theorem lead_of_opens {l : List Char} (h : l.head?.any opens = true) : lead l = .number := by
  unfold lead
  split
  · cases h
  · cases h
  · cases h
  · exact if_pos h

theorem lead_minus {l : List Char} (h : lead l ≠ .number) : lead ('-' :: l) = .negation :=
  if_neg (mt lead_of_opens h)

theorem UnaryOp.lead_name (op : UnaryOp) (r : List Char) :
    lead (op.name.toList ++ r) = .function := by
  cases op <;> rfl

namespace Term

variable {s t : Term Float} {numeral : Float → String} {r r' : List Char}

/-- No NaN, and no minus before a number. -/
def Tidy : Term Float → Prop
  | num v => v.isNaN = false
  | var _ => True
  | unary op t => t.Tidy ∧ (op = .neg → t.number? = none)
  | binary _ s t => s.Tidy ∧ t.Tidy

def lead : Term Float → Lead
  | num _ => .number
  | var _ => .variable
  | unary .neg _ => .negation
  | unary _ _ => .function
  | binary .. => .operation

/-- The characters of the text of a term. -/
def chars (numeral : Float → String) (t : Term Float) : List Char := (t.text numeral).toList

theorem chars_var (i : Nat) :
    (var i).chars numeral = 'x' :: '[' :: ((toString i).toList ++ [']']) := by
  have hopening : (toString "x[").toList = ['x', '['] := rfl
  have hclosing : (toString "]").toList = [']'] := rfl
  simp [chars, text, hopening, hclosing]

theorem chars_neg (t : Term Float) : (unary .neg t).chars numeral = '-' :: t.chars numeral := by
  simp [chars, text]

theorem chars_unary (hop : op ≠ .neg) :
    (unary op t).chars numeral = op.name.toList ++ '(' :: (t.chars numeral ++ [')']) := by
  have htext : (unary op t).text numeral = op.name ++ "(" ++ t.text numeral ++ ")" := by
    cases op <;> first | rfl | exact absurd rfl hop
  simp [chars, htext]

theorem chars_binary : (binary op s t).chars numeral =
    '(' :: (s.chars numeral ++ ' ' :: (op.symbol.toList ++ ' ' :: (t.chars numeral ++ [')']))) := by
  simp [chars, text]

/-! ## Kinds -/

theorem lead_unary (hop : op ≠ .neg) : (unary op t).lead = .function := by
  cases op <;> first | rfl | exact absurd rfl hop

theorem eq_neg_of_lead (h : (unary op t).lead = .negation) : op = .neg :=
  Decidable.byContradiction fun hop => nomatch (lead_unary hop).symm.trans h

theorem ne_neg_of_lead (h : (unary op t).lead = .function) : op ≠ .neg := by
  rintro rfl
  cases h

theorem lead_ne_number (h : t.number? = none) : t.lead ≠ .number := by
  cases t with
  | num v => cases h
  | var | binary => nofun
  | unary op t => cases op <;> nofun

/-- A text begins as its kind of term does. -/
theorem lead_chars (L : Legible numeral) (ht : t.Tidy) (r : List Char) :
    Downhill.lead (t.chars numeral ++ r) = t.lead := by
  induction t generalizing r with
  | num v =>
    obtain ⟨c, rest, hc, htext | htext⟩ := L.opening ht
    · rw [chars, text, htext]
      exact lead_of_opens hc
    · rw [chars, text, htext]
      exact if_pos hc
  | var i => rw [chars_var]; rfl
  | unary op t ih =>
    obtain ⟨ht, hnumber⟩ := ht
    by_cases hop : op = .neg
    · subst hop
      rw [chars_neg]
      refine lead_minus ?_
      exact (ih ht r).trans_ne (lead_ne_number (hnumber rfl))
    · rw [chars_unary hop, List.append_assoc, UnaryOp.lead_name, lead_unary hop]
  | binary op s t => rw [chars_binary]; rfl

theorem lead_eq (L : Legible numeral) (hs : s.Tidy) (ht : t.Tidy)
    (h : s.chars numeral ++ r = t.chars numeral ++ r') : s.lead = t.lead := by
  rw [← lead_chars L hs r, ← lead_chars L ht r', h]

/-! ## Reading -/

/-- Of two terms with the same text before a mark, every part is the same. -/
theorem readable (L : Legible numeral) (hs : s.Tidy) (ht : t.Tidy) (hr : Marked r)
    (hr' : Marked r') (h : s.chars numeral ++ r = t.chars numeral ++ r') : s = t ∧ r = r' := by
  induction s generalizing t r r' with
  | num v =>
    have hlead := lead_eq L hs ht h
    cases t with
    | num w =>
      obtain ⟨htext, hrest⟩ := (L.noMarks hs).unique (L.noMarks ht) hr hr' h
      exact ⟨congrArg _ (L.injective hs ht (String.toList_injective htext)), hrest⟩
    | var | binary => cases hlead
    | unary op => cases op <;> cases hlead
  | var i =>
    have hlead := lead_eq L hs ht h
    cases t with
    | var j =>
      rw [chars_var, chars_var] at h
      simp only [List.cons_append, List.append_assoc, List.nil_append, List.cons.injEq,
        true_and] at h
      obtain ⟨hindex, hrest⟩ :=
        (noMarks_toDigits i).unique (noMarks_toDigits j) (.cons rfl r) (.cons rfl r') h
      cases Nat.repr_injective (String.toList_injective hindex)
      exact ⟨rfl, (List.cons.inj hrest).2⟩
    | num | binary => cases hlead
    | unary op => cases op <;> cases hlead
  | unary op s ih =>
    have hlead := lead_eq L hs ht h
    obtain ⟨hs, hnumber⟩ := hs
    by_cases hop : op = .neg
    · subst hop
      cases t with
      | unary op' t =>
        obtain rfl := eq_neg_of_lead hlead.symm
        rw [chars_neg, chars_neg] at h
        obtain ⟨rfl, hrest⟩ := ih hs ht.1 hr hr' (List.cons.inj h).2
        exact ⟨rfl, hrest⟩
      | num | var | binary => cases hlead
    · rw [lead_unary hop] at hlead
      cases t with
      | unary op' t =>
        rw [chars_unary hop, chars_unary (ne_neg_of_lead hlead.symm)] at h
        simp only [List.cons_append, List.append_assoc, List.nil_append] at h
        obtain ⟨hname, hbehind⟩ :=
          op.noMarks_name.unique op'.noMarks_name (.cons rfl _) (.cons rfl _) h
        cases UnaryOp.name_injective (String.toList_injective hname)
        obtain ⟨rfl, hrest⟩ := ih hs ht.1 (.cons rfl r) (.cons rfl r') (List.cons.inj hbehind).2
        exact ⟨rfl, (List.cons.inj hrest).2⟩
      | num | var | binary => cases hlead
  | binary op s s' ihs ihs' =>
    have hlead := lead_eq L hs ht h
    obtain ⟨hs, hs'⟩ := hs
    cases t with
    | binary op' t t' =>
      obtain ⟨ht, ht'⟩ := ht
      rw [chars_binary, chars_binary] at h
      simp only [List.cons_append, List.append_assoc, List.nil_append, List.cons.injEq,
        true_and] at h
      obtain ⟨rfl, hbehind⟩ := ihs hs ht (.cons rfl _) (.cons rfl _) h
      obtain ⟨hsymbol, hoperand⟩ := op.noMarks_symbol.unique op'.noMarks_symbol (.cons rfl _)
        (.cons rfl _) (List.cons.inj hbehind).2
      cases BinaryOp.symbol_injective (String.toList_injective hsymbol)
      obtain ⟨rfl, hrest⟩ := ihs' hs' ht' (.cons rfl r) (.cons rfl r') (List.cons.inj hoperand).2
      exact ⟨rfl, (List.cons.inj hrest).2⟩
    | num | var => cases hlead
    | unary op => cases op <;> cases hlead

end Term

/-! ## Nodes -/

namespace Pool

variable {p q : Pool Float} {h k : Handle} {s t : Term Float} {numeral : Float → String}

/-- Simplification leaves no minus before a number. -/
theorem Unfolds.tidy (H : p.Unfolds h t) (hp : p.WF) (hnan : p.NaNFree h) : t.Tidy := by
  induction H with
  | const hn ht =>
    cases ht
    exact Bool.eq_false_iff.mpr fun hv => hnan _ .rfl ⟨_, hn, hv⟩
  | var _ ht =>
    cases ht
    trivial
  | @unary _ op a s _ hn hs ht ih =>
    cases ht
    refine ⟨ih (hnan.arg hn List.mem_cons_self), fun _ => ?_⟩
    rw [Unfolds.number? hs]
    exact Option.not_isSome_iff_eq_none.mp (Bool.eq_false_iff.mp (hp.normal hn).1)
  | binary hn _ _ ht ihs iht =>
    cases ht
    exact ⟨ihs (hnan.arg hn List.mem_cons_self),
      iht (hnan.arg hn (List.mem_cons_of_mem _ List.mem_cons_self))⟩

/-- Nodes with the same text stand for the same term, also in different pools. -/
theorem Unfolds.eq_of_text (L : Legible numeral) (H : p.Unfolds h s) (H' : q.Unfolds k t)
    (hp : p.WF) (hq : q.WF) (hh : p.NaNFree h) (hk : q.NaNFree k)
    (htext : s.text numeral = t.text numeral) : s = t := by
  have hchars : s.chars numeral ++ [] = t.chars numeral ++ [] := by
    rw [Term.chars, Term.chars, htext]
  exact (Term.readable L (H.tidy hp hh) (H'.tidy hq hk) .nil .nil hchars).1

end Pool

end Downhill
