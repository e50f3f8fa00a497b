/-!
# Association lists

Lists of keys and values in the order in which the keys came up.
-/

namespace Downhill

/-- Puts a value under a key: in the place of an earlier one, or else last. -/
def assign [BEq κ] (key : κ) (value : β) : List (κ × β) → List (κ × β)
  | [] => [(key, value)]
  | (k, v) :: rest => if key == k then (k, value) :: rest else (k, v) :: assign key value rest

theorem assign_of_lookup_eq_none [BEq κ] {key : κ} {entries : List (κ × β)}
    (H : entries.lookup key = none) (value : β) :
    assign key value entries = entries ++ [(key, value)] := by
  induction entries with
  | nil => rfl
  | cons entry rest ih =>
    obtain ⟨k, v⟩ := entry
    rw [List.lookup_cons] at H
    rw [assign]
    cases hk : key == k with
    | false =>
      rw [hk] at H
      exact congrArg ((k, v) :: ·) (ih H)
    | true =>
      rw [hk] at H
      cases H

/-- The last value under each key. -/
def latest [BEq κ] (entries : List (κ × β)) : List (κ × β) :=
  entries.foldl (fun kept (key, value) => assign key value kept) []

section Assign

variable [BEq κ] [LawfulBEq κ] (key : κ) (value : β)

theorem lookup_assign (k : κ) (entries : List (κ × β)) :
    (assign key value entries).lookup k = if k == key then some value else entries.lookup k := by
  induction entries with
  | nil => cases h : k == key <;> simp [assign, List.lookup_cons, h]
  | cons entry rest ih =>
    obtain ⟨k', v⟩ := entry
    by_cases h : key = k'
    · subst h
      cases hk : k == key <;> simp [assign, List.lookup_cons, hk]
    · by_cases hk : k = k'
      · subst hk
        simp [assign, h, Ne.symm h]
      · have hk' : (k == k') = false := by simpa using hk
        simp [assign, List.lookup_cons, h, hk', ih]

theorem assign_assign (value' : β) (entries : List (κ × β)) :
    assign key value (assign key value' entries) = assign key value entries := by
  induction entries with
  | nil => simp [assign]
  | cons entry rest ih =>
    obtain ⟨k, v⟩ := entry
    by_cases h : key = k
    · simp [assign, h]
    · simp [assign, h, ih]

/-- A key that is there keeps its place, and a new one comes last. -/
theorem keys_assign [DecidableEq κ] (entries : List (κ × β)) :
    (assign key value entries).map Prod.fst
      = if key ∈ entries.map Prod.fst then entries.map Prod.fst
        else entries.map Prod.fst ++ [key] := by
  induction entries with
  | nil => simp [assign]
  | cons entry rest ih =>
    obtain ⟨k', v⟩ := entry
    by_cases h : key = k'
    · simp [assign, h]
    · simp only [assign, beq_iff_eq, h, if_false, List.map_cons, ih, List.mem_cons, false_or]
      split <;> rfl

end Assign

end Downhill
