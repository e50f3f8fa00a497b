/-!
# Places counted from either end

A number that is not negative names a place of a list from the front, and a negative one from the
end, where `-1` is the last place.
-/

namespace Downhill

/-- The place that a number names in a list of a given length, if the list reaches that far. -/
def place? (length : Nat) : Int → Option Nat
  | .ofNat n => if n < length then some n else none
  | .negSucc k => if k < length then some (length - 1 - k) else none

theorem place?_ofNat (length n : Nat) :
    place? length (n : Int) = if n < length then some n else none := rfl

theorem lt_of_place?_eq_some {length k : Nat} {i : Int} (h : place? length i = some k) :
    k < length := by
  cases i <;> simp only [place?] at h <;> split at h <;> cases h <;> omega

end Downhill
