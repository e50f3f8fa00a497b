import Downhill.Proofs.Term.Grammar
import Downhill.Proofs.Term.Unambiguity

/-!
# Texts as they are read

Every text of a term is read, and as the term it was written for, except where a minus stands before
the base of a power: there the power is read first (`Term.readText?_text`). The text is cut into the
tokens of the term, and reading these leaves what stands behind its first minuses as an operand,
with the minuses waiting (`Term.foldlM_tokens`).
-/

namespace Downhill

section FoldlM

variable {α β : Type} {f : β → α → Option β} {a : α} {b c : β} {l m : List α}

theorem foldlM_cons_of_some (H : f b a = some c) : (a :: l).foldlM f b = l.foldlM f c := by
  rw [List.foldlM_cons, H]
  rfl

theorem foldlM_append_of_some (H : l.foldlM f b = some c) : (l ++ m).foldlM f b = m.foldlM f c := by
  rw [List.foldlM_append, H]
  rfl

end FoldlM

/-! ## Tokens of a text -/

namespace Pending

variable {pending : Pending} {tokens : List Token} {c : Char} {l m r : List Char} {part : Part}

theorem tokens?_cons {pending' : Pending} (H : pending.step? c = some (tokens, pending')) :
    pending.tokens? (c :: l) = (pending'.tokens? l).map (tokens ++ ·) := by
  rw [tokens?, H, Option.bind_some]

theorem tokens?_of_step? {pending' : Pending} (H : pending.step? c = some ([], pending')) :
    pending.tokens? (c :: l) = pending'.tokens? l := by
  rw [tokens?_cons H]
  exact Option.map_id'

theorem step?_of_next? {pending' : Pending} (H : pending.next? c = some (tokens, pending')) :
    pending.step? c = some (tokens, pending') := by
  rw [step?, H, Option.some_or]

/-- What cannot go on has ended. -/
theorem tokens?_of_done (hdone : pending.done? = some tokens)
    (hnext : ∀ c ∈ l.head?, pending.next? c = none) :
    pending.tokens? l = (nothing.tokens? l).map (tokens ++ ·) := by
  cases l with
  | nil => rw [tokens?, hdone, tokens?, done?, Option.map_some, List.append_nil]
  | cons c l =>
    rw [tokens?, tokens?, step?, step?, hnext c rfl, hdone]
    cases first? c with
    | none => rfl
    | some r => cases h : r.2.tokens? l <;> simp [next?, done?, h]

theorem tokens?_number (H : m.foldlM Part.next? part = some part') :
    (number part l).tokens? (m ++ r) = (number part' (l ++ m)).tokens? r := by
  induction m generalizing part l with
  | nil =>
    cases H
    rw [List.append_nil, List.nil_append]
  | cons c m ih =>
    rw [List.foldlM_cons] at H
    cases hc : part.next? c with
    | none => rw [hc] at H; cases H
    | some q =>
      rw [hc] at H
      have hstep : (number part l).step? c = some ([], number q (l ++ [c])) :=
        step?_of_next? (by rw [next?, hc]; rfl)
      rw [List.cons_append, tokens?_of_step? hstep, ih H, List.append_assoc, List.singleton_append]

theorem tokens?_name (H : ∀ c ∈ m, isWordChar c = true) :
    (name l).tokens? (m ++ r) = (name (l ++ m)).tokens? r := by
  induction m generalizing l with
  | nil => rw [List.append_nil, List.nil_append]
  | cons c m ih =>
    rw [List.forall_mem_cons] at H
    have hstep : (name l).step? c = some ([], name (l ++ [c])) :=
      step?_of_next? (by rw [next?, if_pos H.1])
    rw [List.cons_append, tokens?_of_step? hstep, ih H.2, List.append_assoc, List.singleton_append]

/-! ### Marks -/

theorem next?_mark (hc : isMark c = true) : pending.next? c = none := by
  have hcases : c = ' ' ∨ c = '(' ∨ c = ')' ∨ c = '[' ∨ c = ']' := by
    simpa [isMark, or_assoc] using hc
  cases pending with
  | nothing => rfl
  | star | name => rcases hcases with rfl | rfl | rfl | rfl | rfl <;> rfl
  | number part =>
    cases part <;> rcases hcases with rfl | rfl | rfl | rfl | rfl <;> rfl

theorem tokens?_of_marked (hdone : pending.done? = some tokens) (hl : Marked l) :
    pending.tokens? l = (nothing.tokens? l).map (tokens ++ ·) :=
  tokens?_of_done hdone fun c hc => next?_mark (hl c hc)

theorem tokens?_single {token : Token} (H : pending.step? c = some ([token], nothing)) :
    pending.tokens? (c :: l) = (nothing.tokens? l).map (token :: ·) :=
  tokens?_cons H

/-- A number up to the mark behind it. -/
theorem tokens?_whole_number (hc : c.isDigit = true)
    (hpart : m.foldlM Part.next? .whole = some part) (hends : part.ends = true) (hr : Marked r) :
    nothing.tokens? (c :: m ++ r) = (nothing.tokens? r).map (.number (c :: m) :: ·) := by
  have hstep : nothing.step? c = some ([], number .whole [c]) := by
    rw [step?, next?, done?, first?, if_pos hc]
    rfl
  have hdone : (number part (c :: m)).done? = some [.number (c :: m)] := by
    rw [done?, if_pos hends]
  rw [List.cons_append, tokens?_of_step? hstep, tokens?_number hpart, List.singleton_append,
    tokens?_of_marked hdone hr]
  rfl

/-- A name up to the mark behind it. -/
theorem tokens?_whole_name (hc : c.isDigit = false) (H : ∀ d ∈ c :: m, isWordChar d = true)
    (hr : Marked r) :
    nothing.tokens? (c :: m ++ r) = (nothing.tokens? r).map (.name (c :: m) :: ·) := by
  rw [List.forall_mem_cons] at H
  have hstep : nothing.step? c = some ([], name [c]) := by
    rw [step?, next?, done?, first?, if_neg (by simp [hc]), if_pos H.1]
    rfl
  rw [List.cons_append, tokens?_of_step? hstep, tokens?_name H.2, List.singleton_append,
    tokens?_of_marked rfl hr]
  rfl

end Pending

/-! ### Numerals -/

namespace Part

variable {l : List Char} {part : Part}

theorem foldlM_digits (hpart : ∀ c, c.isDigit = true → part.next? c = some part)
    (hl : Digits l) : l.foldlM next? part = some part := by
  induction l with
  | nil => rfl
  | cons c l ih =>
    rw [foldlM_cons_of_some (hpart c (hl c List.mem_cons_self))]
    exact ih fun d hd => hl d (List.mem_cons_of_mem _ hd)

theorem foldlM_whole (hl : Digits l) : l.foldlM next? whole = some whole :=
  foldlM_digits (fun c hc => by rw [next?, if_pos hc]) hl

theorem foldlM_fraction (hl : Digits l) : l.foldlM next? fraction = some fraction :=
  foldlM_digits (fun c hc => by rw [next?, if_pos hc]) hl

theorem foldlM_exponent (hl : Digits l) : l.foldlM next? exponent = some exponent :=
  foldlM_digits (fun c hc => by rw [next?, if_pos hc]) hl

theorem foldlM_pointed (hl : Digits l) : ∃ part,
    (Spelling.pointed l).foldlM next? whole = some part ∧ (part = whole ∨ part = fraction) := by
  cases l with
  | nil => exact ⟨whole, rfl, .inl rfl⟩
  | cons c l => exact ⟨fraction, foldlM_fraction hl, .inr rfl⟩

/-- Digits end a number that has an exponent. -/
theorem foldlM_sign (hl : Digits l) (hne : l ≠ []) : l.foldlM next? sign = some exponent := by
  obtain ⟨c, l, rfl⟩ := List.exists_cons_of_ne_nil hne
  rw [foldlM_cons_of_some (if_pos (hl c List.mem_cons_self))]
  exact foldlM_exponent fun d hd => hl d (List.mem_cons_of_mem _ hd)

theorem foldlM_ending (hpart : part = whole ∨ part = fraction) (layout : NumeralLayout)
    (e : Option ℤ) :
    ∃ part', (Spelling.ending layout e).foldlM next? part = some part' ∧ part'.ends = true := by
  cases e with
  | none => exact ⟨part, rfl, by rcases hpart with rfl | rfl <;> rfl⟩
  | some e =>
    have hmark : part.next? 'e' = some mark := by rcases hpart with rfl | rfl <;> rfl
    have hsign : mark.next? (if e < 0 then '-' else '+') = some sign := by split <;> rfl
    refine ⟨exponent, ?_, rfl⟩
    rw [Spelling.ending, NumeralLayout.toList_exponentText, foldlM_cons_of_some hmark,
      foldlM_cons_of_some hsign]
    exact foldlM_sign ((Digits.zeros _).append (.toDigits _))
      (List.append_ne_nil_of_right_ne_nil _ Nat.toDigits_ne_nil)

end Part

/-- A numeral is read to its end. -/
theorem Spelling.Legal.tokens? {s : Spelling} (H : s.Legal) (l : NumeralLayout) {r : List Char}
    (hr : Marked r) : Pending.nothing.tokens? (s.chars l ++ r) =
      (Pending.nothing.tokens? r).map (.number (s.chars l) :: ·) := by
  obtain ⟨c, w, hw⟩ := List.exists_cons_of_ne_nil H.ne_nil
  have hwhole := H.whole
  rw [hw] at hwhole
  obtain ⟨part, hpointed, hpart⟩ := Part.foldlM_pointed H.fraction
  obtain ⟨part', hending, hends⟩ := Part.foldlM_ending hpart l s.exponent
  have hchars : s.chars l = c :: (w ++ pointed s.fraction ++ ending l s.exponent) := by
    rw [chars, hw]
    rfl
  rw [hchars]
  refine Pending.tokens?_whole_number (hwhole c List.mem_cons_self) ?_ hends hr
  have hdigits := Part.foldlM_whole fun d hd => hwhole d (List.mem_cons_of_mem _ hd)
  rw [List.append_assoc, foldlM_append_of_some hdigits, foldlM_append_of_some hpointed, hending]

/-! ### Texts -/

/-- The number that is left of a double without its sign. -/
def Decoded.token : Decoded → Token
  | finite b => .number (plainLayout.write b.decimal).toList
  | nan | infinite _ => .name ['i', 'n', 'f']

theorem Decoded.tokens? {d : Decoded} (hd : d ≠ .nan) {r : List Char} (hr : Marked r) :
    Pending.nothing.tokens? (d.unsigned.toList ++ r) =
      (Pending.nothing.tokens? r).map (d.token :: ·) := by
  cases d with
  | nan => exact absurd rfl hd
  | infinite negative =>
    have hlist : (infinite negative).unsigned.toList = ['i', 'n', 'f'] := by simp [unsigned]
    rw [hlist]
    exact Pending.tokens?_whole_name rfl (by simp [isWordChar]) hr
  | finite b =>
    obtain ⟨s, H, htext, _⟩ := plainLayout.spells_write b.decimal
    rw [unsigned, token, htext]
    exact H.tokens? plainLayout hr

theorem UnaryOp.isWordChar_name (op : UnaryOp) :
    ∀ c ∈ op.name.toList, isWordChar c = true ∧ c.isDigit = false := by
  cases op <;> simp [isWordChar, name]

theorem UnaryOp.tokens?_name (op : UnaryOp) {r : List Char} (hr : Marked r) :
    Pending.nothing.tokens? (op.name.toList ++ r) =
      (Pending.nothing.tokens? r).map (.name op.name.toList :: ·) := by
  have hchars := op.isWordChar_name
  cases hname : op.name.toList with
  | nil => cases op <;> simp [name] at hname
  | cons c m =>
    rw [hname] at hchars
    exact Pending.tokens?_whole_name (hchars c List.mem_cons_self).2
      (fun d hd => (hchars d hd).1) hr

theorem tokens?_index (i : Nat) {r : List Char} (hr : Marked r) :
    Pending.nothing.tokens? ((toString i).toList ++ r) =
      (Pending.nothing.tokens? r).map (.number (toString i).toList :: ·) := by
  have hdigits := Digits.toDigits i
  rw [NumeralLayout.toList_toString]
  obtain ⟨c, m, hm⟩ := List.exists_cons_of_ne_nil (Nat.toDigits_ne_nil (n := i) (b := 10))
  rw [hm] at hdigits ⊢
  exact Pending.tokens?_whole_number (hdigits c List.mem_cons_self)
    (Part.foldlM_whole fun d hd => hdigits d (List.mem_cons_of_mem _ hd)) rfl hr

/-- An operator up to the blank behind it. -/
theorem BinaryOp.tokens?_symbol (op : BinaryOp) (r : List Char) :
    Pending.nothing.tokens? (op.symbol.toList ++ ' ' :: r) =
      (Pending.nothing.tokens? r).map (.operator op :: ·) := by
  have hblank : Pending.nothing.tokens? (' ' :: r) = Pending.nothing.tokens? r :=
    Pending.tokens?_of_step? rfl
  have hstar (l : List Char) :
      Pending.nothing.tokens? ('*' :: l) = Pending.star.tokens? l := Pending.tokens?_of_step? rfl
  cases op with
  | add | sub | div => exact (Pending.tokens?_single rfl).trans (congrArg _ hblank)
  | mul => exact (hstar _).trans (Pending.tokens?_single rfl)
  | pow => exact (hstar _).trans ((Pending.tokens?_single rfl).trans (congrArg _ hblank))

namespace Term

/-- The tokens of the text of a term. -/
def tokens : Term Float → List Token
  | num v =>
    (if (Decoded.ofDouble v).negative then [.operator .sub] else []) ++ [(Decoded.ofDouble v).token]
  | var i => [.name ['x'], .openingBracket, .number (toString i).toList, .closingBracket]
  | unary .neg t => .operator .sub :: t.tokens
  | unary op t => .name op.name.toList :: .opening :: (t.tokens ++ [.closing])
  | binary op s t => .opening :: (s.tokens ++ .operator op :: (t.tokens ++ [.closing]))

theorem tokens_unary {op : UnaryOp} {t : Term Float} (hop : op ≠ .neg) : (unary op t).tokens =
    Token.name op.name.toList :: Token.opening :: (t.tokens ++ [Token.closing]) := by
  cases op <;> first | rfl | exact absurd rfl hop

theorem tokens?_chars {t : Term Float} (ht : t.Tidy) {r : List Char} (hr : Marked r) :
    Pending.nothing.tokens? (t.chars numeral ++ r) =
      (Pending.nothing.tokens? r).map (t.tokens ++ ·) := by
  have hclosing (r : List Char) : Pending.nothing.tokens? (')' :: r) =
      (Pending.nothing.tokens? r).map (.closing :: ·) := Pending.tokens?_single rfl
  have hopening (r : List Char) : Pending.nothing.tokens? ('(' :: r) =
      (Pending.nothing.tokens? r).map (.opening :: ·) := Pending.tokens?_single rfl
  have hminus (r : List Char) : Pending.nothing.tokens? ('-' :: r) =
      (Pending.nothing.tokens? r).map (.operator .sub :: ·) := Pending.tokens?_single rfl
  induction t generalizing r with
  | num v =>
    rw [chars, text, toList_numeral, tokens]
    have hunsigned := Decoded.tokens? (ofDouble_ne_nan ht) hr
    cases (Decoded.ofDouble v).negative with
    | false => exact hunsigned
    | true =>
      rw [if_pos rfl, if_pos rfl, List.append_assoc, List.singleton_append, hminus, hunsigned,
        Option.map_map]
      rfl
  | var i =>
    have hopening (r : List Char) : Pending.nothing.tokens? ('[' :: r) =
        (Pending.nothing.tokens? r).map (.openingBracket :: ·) := Pending.tokens?_single rfl
    have hclosing (r : List Char) : Pending.nothing.tokens? (']' :: r) =
        (Pending.nothing.tokens? r).map (.closingBracket :: ·) := Pending.tokens?_single rfl
    have hname (r : List Char) : Pending.nothing.tokens? ('x' :: '[' :: r) =
        (Pending.nothing.tokens? ('[' :: r)).map (.name ['x'] :: ·) :=
      Pending.tokens?_whole_name (c := 'x') (m := []) rfl (by simp [isWordChar]) (.cons rfl r)
    rw [chars_var, List.cons_append, List.cons_append, List.append_assoc, List.singleton_append,
      hname, hopening, tokens?_index i (.cons rfl r), hclosing]
    simp only [Option.map_map]
    rfl
  | unary op t ih =>
    by_cases hop : op = .neg
    · subst hop
      rw [chars_neg, List.cons_append, hminus, ih ht.1 hr, Option.map_map]
      rfl
    · rw [chars_unary hop, tokens_unary hop, List.append_assoc, List.cons_append,
        List.append_assoc, List.singleton_append, op.tokens?_name (.cons rfl _), hopening,
        ih ht.1 (.cons rfl r), hclosing]
      simp [Function.comp_def]
  | binary op s t ihs iht =>
    rw [chars_binary]
    simp only [List.cons_append, List.append_assoc, List.nil_append]
    rw [hopening, ihs ht.1 (.cons rfl _), Pending.tokens?_of_step? rfl, op.tokens?_symbol,
      iht ht.2 (.cons rfl r), hclosing]
    simp [tokens, Function.comp_def]

/-! ## Terms as they are read -/

/-- The minuses at the beginning of a text. -/
def minuses : Term Float → Nat
  | num v => (Decoded.ofDouble v).negative.toNat
  | unary .neg t => t.minuses + 1
  | var _ | unary _ _ | binary .. => 0

/-- What is read behind the minuses at the beginning. A power takes its base without them. -/
def core : Term Float → Term Numeral
  | num v => num (Decoded.ofDouble v).magnitude
  | var i => var i
  | unary .neg t => t.core
  | unary op t => unary op ((unary .neg)^[t.minuses] t.core)
  | binary .pow s t =>
    (unary .neg)^[s.minuses] (binary .pow s.core ((unary .neg)^[t.minuses] t.core))
  | binary op s t =>
    binary op ((unary .neg)^[s.minuses] s.core) ((unary .neg)^[t.minuses] t.core)

/-- What the text of a term is read as. -/
def asRead (t : Term Float) : Term Numeral := (unary .neg)^[t.minuses] t.core

theorem asRead_num (v : Float) : (num v).asRead =
    if (Decoded.ofDouble v).negative then unary .neg (num (Decoded.ofDouble v).magnitude)
      else num (Decoded.ofDouble v).magnitude := by
  rw [asRead, minuses, core]
  cases (Decoded.ofDouble v).negative <;> rfl

theorem asRead_neg (t : Term Float) : (unary .neg t).asRead = unary .neg t.asRead := by
  rw [asRead, minuses, core, Function.iterate_succ_apply']
  rfl

theorem asRead_unary {t : Term Float} (hop : op ≠ .neg) :
    (unary op t).asRead = unary op t.asRead := by
  cases op <;> first | rfl | exact absurd rfl hop

theorem asRead_binary {s t : Term Float} (hop : op ≠ .pow) :
    (binary op s t).asRead = binary op s.asRead t.asRead := by
  cases op <;> first | rfl | exact absurd rfl hop

theorem asRead_pow (s t : Term Float) : (binary .pow s t).asRead =
    (unary .neg)^[s.minuses] (binary .pow s.core t.asRead) :=
  rfl

end Term

namespace Waiting

variable {gets : Waiting → Bool} {w : Waiting} {ws : List Waiting} {t : Term Numeral}

theorem settle_of_gets (H : gets w = true) :
    settle gets (w :: ws) t = settle gets ws (w.apply t) := by
  rw [settle, if_pos H]

theorem settle_of_not_gets (H : gets w = false) : settle gets (w :: ws) t = (w :: ws, t) := by
  rw [settle, if_neg (Bool.eq_false_iff.mp H)]

theorem settle_minuses (H : gets .minus = true) (n : Nat) :
    settle gets (List.replicate n Waiting.minus ++ ws) t =
      settle gets ws ((Term.unary .neg)^[n] t) := by
  induction n generalizing t with
  | zero => rfl
  | succ n ih =>
    rw [List.replicate_succ, List.cons_append, settle_of_gets H, ih]
    rfl

/-- The base of a power is taken from the minuses before it. -/
theorem settle_before_pow (n : Nat) :
    settle (before .pow) (List.replicate n Waiting.minus ++ Waiting.parenthesis :: ws) t =
      (List.replicate n Waiting.minus ++ Waiting.parenthesis :: ws, t) := by
  cases n with
  | zero => exact settle_of_not_gets rfl
  | succ n => exact settle_of_not_gets rfl

end Waiting

namespace Reader

variable {ws ws' : List Waiting} {t t' : Term Numeral} {w : Waiting}

theorem step?_token (d : Decoded) :
    step? ⟨ws, .operand⟩ d.token = some ⟨ws, .behind (.num d.magnitude)⟩ := by
  cases d <;> rfl

theorem step?_name {op : UnaryOp} (hop : op ≠ .neg) :
    step? ⟨ws, .operand⟩ (.name op.name.toList) = some ⟨ws, .argument op⟩ := by
  cases op <;> first | rfl | exact absurd rfl hop

theorem step?_index (i : Nat) :
    step? ⟨ws, .index⟩ (.number (toString i).toList) = some ⟨ws, .closingBracket i⟩ := by
  have hdigits : (Nat.toDigits 10 i).all Char.isDigit = true :=
    List.all_eq_true.mpr (Digits.toDigits i)
  rw [NumeralLayout.toList_toString]
  simp only [step?, hdigits, if_true, Nat.ofDigitChars_ten_toDigits]

theorem step?_operator {op : BinaryOp} (H : Waiting.settle (Waiting.before op) ws t = (ws', t')) :
    step? ⟨ws, .behind t⟩ (.operator op) = some ⟨.operator op t' :: ws', .operand⟩ := by
  simp only [step?, H]

theorem step?_closing (H : Waiting.settle Waiting.isOperation ws t = (w :: ws', t')) :
    step? ⟨ws, .behind t⟩ .closing = some ⟨ws', .behind (w.apply t')⟩ := by
  simp only [step?, H]

end Reader

namespace Term

/-- Reading the tokens of a term leaves its minuses waiting. -/
theorem foldlM_tokens (t : Term Float) (ws : List Waiting) :
    t.tokens.foldlM Reader.step? ⟨ws, .operand⟩ =
      some ⟨List.replicate t.minuses Waiting.minus ++ ws, .behind t.core⟩ := by
  induction t generalizing ws with
  | num v =>
    rw [tokens, minuses, core]
    cases (Decoded.ofDouble v).negative with
    | false => exact foldlM_cons_of_some (Reader.step?_token _)
    | true => exact (foldlM_cons_of_some rfl).trans (foldlM_cons_of_some (Reader.step?_token _))
  | var i =>
    rw [tokens, foldlM_cons_of_some rfl, foldlM_cons_of_some rfl,
      foldlM_cons_of_some (Reader.step?_index i)]
    rfl
  | unary op t ih =>
    by_cases hop : op = .neg
    · subst hop
      rw [tokens, foldlM_cons_of_some rfl, ih, minuses, core, List.replicate_succ',
        List.append_assoc]
      rfl
    · have hclosing : Waiting.settle Waiting.isOperation
          (List.replicate t.minuses Waiting.minus ++ .function op :: ws) t.core =
            (.function op :: ws, t.asRead) := by
        rw [Waiting.settle_minuses rfl, Waiting.settle_of_not_gets rfl, asRead]
      rw [tokens_unary hop, foldlM_cons_of_some (Reader.step?_name hop), foldlM_cons_of_some rfl,
        foldlM_append_of_some (ih _), foldlM_cons_of_some (Reader.step?_closing hclosing)]
      cases op <;> first | rfl | exact absurd rfl hop
  | binary op s t ihs iht =>
    rw [tokens, foldlM_cons_of_some rfl, foldlM_append_of_some (ihs _)]
    by_cases hop : op = .pow
    · subst hop
      have hclosing : Waiting.settle Waiting.isOperation (List.replicate t.minuses Waiting.minus ++
          .operator .pow s.core ::
            (List.replicate s.minuses Waiting.minus ++ .parenthesis :: ws)) t.core =
              (.parenthesis :: ws, (binary .pow s t).asRead) := by
        rw [Waiting.settle_minuses rfl, Waiting.settle_of_gets rfl, Waiting.settle_minuses rfl,
          Waiting.settle_of_not_gets rfl]
        rfl
      rw [foldlM_cons_of_some (Reader.step?_operator (Waiting.settle_before_pow _)),
        foldlM_append_of_some (iht _), foldlM_cons_of_some (Reader.step?_closing hclosing)]
      rfl
    · have hminus : Waiting.before op .minus = true := by
        cases op <;> first | rfl | exact absurd rfl hop
      have hoperator : Waiting.settle (Waiting.before op)
          (List.replicate s.minuses Waiting.minus ++ .parenthesis :: ws) s.core =
            (.parenthesis :: ws, s.asRead) := by
        rw [Waiting.settle_minuses hminus, Waiting.settle_of_not_gets rfl, asRead]
      have hclosing : Waiting.settle Waiting.isOperation (List.replicate t.minuses Waiting.minus ++
          .operator op s.asRead :: .parenthesis :: ws) t.core =
            (.parenthesis :: ws, (binary op s t).asRead) := by
        rw [Waiting.settle_minuses rfl, Waiting.settle_of_gets rfl, Waiting.settle_of_not_gets rfl,
          asRead_binary hop]
        rfl
      rw [foldlM_cons_of_some (Reader.step?_operator hoperator), foldlM_append_of_some (iht _),
        foldlM_cons_of_some (Reader.step?_closing hclosing)]
      rfl

/-- The text of a term is read, and as the term but for minuses before powers. -/
theorem readText?_text {t : Term Float} (ht : t.Tidy) :
    readText? (t.text numeral) = some t.asRead := by
  have htokens : Pending.nothing.tokens? (t.text numeral).toList = some t.tokens := by
    have H := tokens?_chars ht .nil
    rw [List.append_nil] at H
    exact H.trans (congrArg some (List.append_nil _))
  have hsettle : Waiting.settle Waiting.isOperation
      (List.replicate t.minuses Waiting.minus ++ []) t.core = ([], t.asRead) := by
    rw [Waiting.settle_minuses rfl]
    rfl
  rw [readText?, htokens, Option.bind_some, t.foldlM_tokens [], Option.bind_some]
  simp only [Reader.expression?, hsettle]

end Term

end Downhill
