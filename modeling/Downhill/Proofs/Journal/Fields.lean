import Mathlib.Data.List.TakeWhile
import Downhill.Journal.Template

/-!
# How fields are spelled

A text is a template if it contains a percent sign, a name in parentheses, flags, a least width, a
greatest width after a point and a conversion, of which flags and widths may be missing
(`Template.isSome_parse?_iff`). The search takes as many characters for each part as it can. It
misses nothing by that: a zero counts as a flag wherever it could begin a width, but what is left of
the width is one again, or nothing (`IsWidth.dropWhile`).
-/

namespace Downhill

namespace FieldPattern

/-- A width is a star or digits. -/
def IsWidth (cs : List Char) : Prop :=
  cs = ['*'] ∨ cs ≠ [] ∧ ∀ c ∈ cs, Character.isDigit c = true

/-- The parts of a field after its percent sign. -/
structure Parts where
  name : List Char
  flags : List Char
  width : List Char
  limit : List Char
  conversion : Char
  name_ne_nil : name ≠ []
  isWord_of_mem : ∀ c ∈ name, Character.isWord c = true
  isFlag_of_mem : ∀ c ∈ flags, isFlag c = true
  width_cases : width = [] ∨ IsWidth width
  limit_cases : limit = [] ∨ ∃ cs, limit = '.' :: cs ∧ IsWidth cs
  isConversion_conversion : isConversion conversion = true

def Parts.text (p : Parts) : List Char :=
  '(' :: (p.name ++ ')' :: (p.flags ++ (p.width ++ (p.limit ++ [p.conversion]))))

variable {c : Char} {cs rest w : List Char}

/-! ## Characters -/

/-- A character that is part of no width and no flag. -/
def Ends (c : Char) : Prop := c ≠ '*' ∧ Character.isDigit c = false ∧ isFlag c = false

theorem ends_point : Ends '.' := by
  refine ⟨by decide, by decide +kernel, by decide⟩

theorem ends_of_isConversion (H : isConversion c = true) : Ends c ∧ c ≠ '.' := by
  have hall : "diouxefgcrsaDIOUXEFGCRSAİıſ%".toList.all (fun c =>
      c != '*' && !Character.isDigit c && !isFlag c && c != '.') = true := by decide +kernel
  have hc := List.all_eq_true.mp hall c (List.contains_iff_mem.mp H)
  simp only [Bool.and_eq_true, bne_iff_ne, Bool.not_eq_true'] at hc
  obtain ⟨⟨⟨hstar, hdigit⟩, hflag⟩, hpoint⟩ := hc
  exact ⟨⟨hstar, hdigit, hflag⟩, hpoint⟩

/-! ## Widths -/

theorem IsWidth.dropWhile (H : IsWidth w) :
    w.dropWhile isFlag = [] ∨ IsWidth (w.dropWhile isFlag) := by
  rcases H with rfl | ⟨_, hdigit⟩
  · exact .inr (.inl rfl)
  · refine or_iff_not_imp_left.mpr fun hne => .inr ⟨hne, fun c hc => ?_⟩
    exact hdigit c ((List.dropWhile_sublist _).subset hc)

theorem afterWidth?_append (H : IsWidth w) (hc : Ends c) :
    afterWidth? (w ++ c :: rest) = some (c :: rest) := by
  rcases H with rfl | ⟨hne, hdigit⟩
  · rfl
  · obtain ⟨d, ds, rfl⟩ := List.exists_cons_of_ne_nil hne
    have hd := hdigit d List.mem_cons_self
    have hstar : d ≠ '*' := by
      rintro rfl
      exact absurd hd (by decide +kernel)
    rw [List.cons_append, afterWidth?, if_pos hd, List.dropWhile_append_of_pos fun e he =>
      hdigit e (List.mem_cons_of_mem _ he), List.dropWhile_cons_of_neg (by simp [hc.2.1])]
    exact hstar

theorem afterWidth?_of_ends (hc : Ends c) : afterWidth? (c :: rest) = none := by
  rw [afterWidth?, if_neg (by simp [hc.2.1])]
  exact hc.1

theorem exists_width (H : afterWidth? cs = some rest) : ∃ w, IsWidth w ∧ cs = w ++ rest := by
  unfold afterWidth? at H
  split at H
  · cases H
    exact ⟨['*'], .inl rfl, rfl⟩
  · rename_i d ds _
    split at H
    · rename_i hd
      cases H
      refine ⟨d :: ds.takeWhile Character.isDigit, .inr ⟨List.cons_ne_nil _ _, ?_⟩, ?_⟩
      · exact List.forall_mem_cons.mpr ⟨hd, fun c hc => List.mem_takeWhile_imp hc⟩
      · rw [List.cons_append, List.takeWhile_append_dropWhile]
    · cases H
  · cases H

theorem skipWidth_append (H : w = [] ∨ IsWidth w) (hc : Ends c) :
    skipWidth (w ++ c :: rest) = c :: rest := by
  rcases H with rfl | H
  · rw [List.nil_append, skipWidth, afterWidth?_of_ends hc, Option.getD_none]
  · rw [skipWidth, afterWidth?_append H hc, Option.getD_some]

theorem exists_skipWidth (cs : List Char) :
    ∃ w, (w = [] ∨ IsWidth w) ∧ cs = w ++ skipWidth cs := by
  cases h : afterWidth? cs with
  | none => exact ⟨[], .inl rfl, by rw [skipWidth, h]; rfl⟩
  | some rest =>
    obtain ⟨w, hw, hcs⟩ := exists_width h
    exact ⟨w, .inr hw, by rw [skipWidth, h]; exact hcs⟩

theorem skipLimit_append (H : w = [] ∨ ∃ cs, w = '.' :: cs ∧ IsWidth cs) (hc : Ends c)
    (hpoint : c ≠ '.') : skipLimit (w ++ c :: rest) = c :: rest := by
  rcases H with rfl | ⟨cs, rfl, hcs⟩
  · rw [List.nil_append, skipLimit]
    exact fun _ h => hpoint (List.cons.inj h).1
  · rw [List.cons_append, skipLimit, afterWidth?_append hcs hc, Option.getD_some]

theorem exists_skipLimit (cs : List Char) :
    ∃ w, (w = [] ∨ ∃ cs, w = '.' :: cs ∧ IsWidth cs) ∧ cs = w ++ skipLimit cs := by
  unfold skipLimit
  split
  · rename_i ds
    cases h : afterWidth? ds with
    | none => exact ⟨[], .inl rfl, rfl⟩
    | some rest =>
      obtain ⟨w, hw, rfl⟩ := exists_width h
      exact ⟨'.' :: w, .inr ⟨w, rfl, hw⟩, rfl⟩
  · exact ⟨[], .inl rfl, rfl⟩

/-! ## Fields -/

theorem followsPercent_text (p : Parts) (rest : List Char) :
    followsPercent (p.text ++ rest) = true := by
  have hparenthesis : ¬Character.isWord ')' = true := by decide +kernel
  obtain ⟨hconversion, hpoint⟩ := ends_of_isConversion p.isConversion_conversion
  -- a greatest width begins with its point, and without one the conversion is next
  obtain ⟨c, cs, hlimit, hc⟩ :
      ∃ c cs, p.limit ++ p.conversion :: rest = c :: cs ∧ Ends c := by
    rcases p.limit_cases with h | ⟨cs, h, _⟩
    · exact ⟨_, _, by rw [h]; rfl, hconversion⟩
    · exact ⟨_, _, by rw [h]; rfl, ends_point⟩
  have hflags : (p.flags ++ (p.width ++ c :: cs)).dropWhile isFlag =
      p.width.dropWhile isFlag ++ c :: cs := by
    rw [List.dropWhile_append_of_pos p.isFlag_of_mem, List.dropWhile_append,
      List.dropWhile_cons_of_neg (by simp [hc.2.2])]
    split
    · rename_i h
      rw [List.isEmpty_iff.mp h, List.nil_append]
    · rfl
  have hwidth : p.width.dropWhile isFlag = [] ∨ IsWidth (p.width.dropWhile isFlag) := by
    rcases p.width_cases with h | h
    · exact .inl (by rw [h]; rfl)
    · exact h.dropWhile
  have htext : p.text ++ rest =
      '(' :: (p.name ++ ')' :: (p.flags ++ (p.width ++ c :: cs))) := by
    rw [← hlimit]
    simp [Parts.text]
  rw [htext, followsPercent, List.takeWhile_append_of_pos p.isWord_of_mem,
    List.takeWhile_cons_of_neg hparenthesis, List.append_nil,
    List.dropWhile_append_of_pos p.isWord_of_mem, List.dropWhile_cons_of_neg hparenthesis]
  obtain ⟨d, ds, hname⟩ := List.exists_cons_of_ne_nil p.name_ne_nil
  rw [hname]
  change (skipLimit (skipWidth _)).head?.any isConversion = true
  rw [hflags, skipWidth_append hwidth hc, ← hlimit,
    skipLimit_append p.limit_cases hconversion hpoint]
  exact p.isConversion_conversion

theorem exists_text (H : followsPercent cs = true) : ∃ p : Parts, p.text <+: cs := by
  unfold followsPercent at H
  split at H
  · rename_i cs
    split at H
    · rename_i d ds after hname hafter
      obtain ⟨w, hw, hwidth⟩ := exists_skipWidth (after.dropWhile isFlag)
      obtain ⟨l, hl, hlimit⟩ := exists_skipLimit (skipWidth (after.dropWhile isFlag))
      obtain ⟨c, hc, hconversion⟩ := (Option.any_eq_true _ _).mp H
      obtain ⟨rest, hrest⟩ := List.head?_eq_some_iff.mp hc
      refine ⟨⟨cs.takeWhile Character.isWord, after.takeWhile isFlag, w, l, c, ?_, ?_, ?_, hw, hl,
        hconversion⟩, rest, ?_⟩
      · rw [hname]
        exact List.cons_ne_nil _ _
      · exact fun c hc => List.mem_takeWhile_imp hc
      · exact fun c hc => List.mem_takeWhile_imp hc
      · have hcs : cs = cs.takeWhile Character.isWord ++ ')' :: after := by
          rw [← hafter, List.takeWhile_append_dropWhile]
        have hflags : after = after.takeWhile isFlag ++ (w ++ (l ++ c :: rest)) := by
          rw [← hrest, ← hlimit, ← hwidth, List.takeWhile_append_dropWhile]
        simp only [Parts.text, List.cons_append, List.append_assoc, List.nil_append]
        rw [← hflags, ← hcs]
    · cases H
  · cases H

theorem followsPercent_iff : followsPercent cs = true ↔ ∃ p : Parts, p.text <+: cs := by
  refine ⟨exists_text, ?_⟩
  rintro ⟨p, rest, rfl⟩
  exact followsPercent_text p rest

theorem hasField_iff : hasField cs = true ↔ ∃ p : Parts, '%' :: p.text <:+: cs := by
  induction cs with
  | nil => simp [hasField]
  | cons c cs ih =>
    have hhead : (c == '%' && followsPercent cs) = true ↔
        ∃ p : Parts, '%' :: p.text <+: c :: cs := by
      simp only [Bool.and_eq_true, beq_iff_eq, followsPercent_iff, List.cons_prefix_cons,
        exists_and_left, @eq_comm _ c]
    simp only [hasField, Bool.or_eq_true, hhead, ih, List.infix_cons_iff, exists_or]

end FieldPattern

/-- A text is a template if there is a field in it. -/
theorem Template.isSome_parse?_iff {s : String} :
    (parse? s).isSome = true ↔ ∃ p : FieldPattern.Parts, '%' :: p.text <:+: s.toList := by
  rw [parse?, ← FieldPattern.hasField_iff]
  split
  · rename_i h
    simp [h]
  · rename_i h
    simp [h]

end Downhill
