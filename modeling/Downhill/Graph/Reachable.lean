import Downhill.Graph.Pool
import Std.Data.TreeSet.Lemmas

/-!
# Reachable nodes

The handles of the nodes that some roots are built from, the roots included, in ascending order.
They are found with a stack of handles that are still to be looked at. One that has been seen before
is dropped; any other makes room for the operands of its node. No node is looked at twice, so the
stack runs empty, whatever handles the nodes refer to.
-/

namespace Downhill.Pool

variable {α : Type u}

/-- The handles seen so far, and those still to be looked at, the next first. -/
structure Exploration where
  seen : Std.TreeSet Handle := ∅
  stack : List Handle

/-- Looks at the next handle. The last operand of its node comes to lie on top. A handle that leads
nowhere is passed over. -/
def Exploration.next (p : Pool α) : Exploration → Exploration
  | ⟨seen, []⟩ => ⟨seen, []⟩
  | ⟨seen, h :: stack⟩ =>
    if seen.contains h then ⟨seen, stack⟩
    else
      match p.node? h with
      | some n => ⟨seen.insert h, n.args.reverse ++ stack⟩
      | none => ⟨seen, stack⟩

/-! ## The stack runs empty -/

/-- The handles that can be followed, from either end. -/
def handles (p : Pool α) : List Handle :=
  (List.range p.size).map Int.ofNat ++ (List.range p.size).map Int.negSucc

theorem mem_handles {p : Pool α} {h : Int} {n : Node Handle α} (hn : p.node? h = some n) :
    h ∈ p.handles := by
  obtain ⟨k, hk, _⟩ := Option.bind_eq_some_iff.mp hn
  cases h with
  | ofNat j =>
    rw [place?] at hk
    split at hk
    · exact List.mem_append_left _ (List.mem_map_of_mem (List.mem_range.mpr ‹_›))
    · cases hk
  | negSucc j =>
    rw [place?] at hk
    split at hk
    · exact List.mem_append_right _ (List.mem_map_of_mem (List.mem_range.mpr ‹_›))
    · cases hk

def unseen (hs : List Handle) (seen : Std.TreeSet Handle) : Nat :=
  hs.countP fun h => !seen.contains h

theorem unseen_insert_le (hs : List Handle) (seen : Std.TreeSet Handle) (h : Handle) :
    unseen hs (seen.insert h) ≤ unseen hs seen := by
  refine List.countP_mono_left fun k _ hk => ?_
  rw [Std.TreeSet.contains_insert, Bool.not_or, Bool.and_eq_true] at hk
  exact hk.2

theorem unseen_insert_lt {hs : List Handle} {seen : Std.TreeSet Handle} {h : Handle} (hh : h ∈ hs)
    (hnew : seen.contains h = false) : unseen hs (seen.insert h) < unseen hs seen := by
  induction hs with
  | nil => cases hh
  | cons k hs ih =>
    have hle := unseen_insert_le hs seen h
    rw [unseen, unseen, List.countP_cons, List.countP_cons]
    rcases List.mem_cons.mp hh with rfl | hh
    · rw [if_neg (by simp), if_pos (by simp [hnew])]
      exact Nat.lt_succ_of_le hle
    · have hk : (!(seen.insert h).contains k) = true → (!seen.contains k) = true := by
        rw [Std.TreeSet.contains_insert, Bool.not_or, Bool.and_eq_true]
        exact And.right
      have hlt := ih hh
      split
      · rw [if_pos (hk ‹_›)]
        exact Nat.add_lt_add_right hlt 1
      · exact Nat.lt_of_lt_of_le hlt (Nat.le_add_right _ _)

namespace Exploration

variable {p : Pool α} {e : Exploration}

/-- What is left to do: a node has two operands at most. -/
def work (p : Pool α) (e : Exploration) : Nat := 2 * unseen p.handles e.seen + e.stack.length

theorem work_next (he : e.stack.isEmpty = false) : (e.next p).work p < e.work p := by
  obtain ⟨seen, _ | ⟨h, stack⟩⟩ := e
  · cases he
  rw [next]
  split
  · exact Nat.lt_succ_self _
  rename_i hnew
  split
  · rename_i n hn
    have hlt := unseen_insert_lt (mem_handles hn) (Bool.eq_false_iff.mpr hnew)
    have hargs := n.length_args_le
    simp only [work, List.length_append, List.length_reverse, List.length_cons]
    omega
  · exact Nat.lt_succ_self _

end Exploration

/-- Everything seen once the stack is empty. -/
def explore (p : Pool α) (e : Exploration) : Std.TreeSet Handle :=
  if e.stack.isEmpty then e.seen else explore p (e.next p)
termination_by e.work p
decreasing_by exact Exploration.work_next (Bool.eq_false_iff.mpr ‹_›)

def reachable (p : Pool α) (roots : List Handle) : List Handle :=
  (p.explore { stack := roots.reverse }).toList

end Downhill.Pool
