import Mathlib.Data.List.Perm.Basic
import Downhill.Proofs.Pool.History
import Downhill.Scalar.Double

/-!
# Listings of what is reachable

Whatever its roots, the exploration of a reached pool comes to an end, and what it has seen then are
the nodes that the roots are built from, operands first (`Reached.explored`). A round takes one
handle off the stack and puts operands there for a node that is new only, so there are as many rounds
as roots and operands of listed nodes (`Exploration.ends_explore`).
-/

namespace Downhill.Pool

variable {α : Type} {p : Pool α}

/-! ## Rounds -/

/-- The stack is empty after so many rounds, when these handles have been seen. -/
inductive Exploration.Ends (p : Pool α) : Exploration → Nat → Std.TreeSet Handle → Prop where
  | done {s : Std.TreeSet Handle} : Ends p ⟨s, []⟩ 0 s
  | round {s : Std.TreeSet Handle} : e.stack ≠ [] → Ends p (e.next p) n s → Ends p e (n + 1) s

def operandsOf (p : Pool α) (h : Handle) : List Handle := ((p.node? h).map Node.args).getD []

/-- The operands of all nodes of a list. -/
def operands (p : Pool α) (hs : List Handle) : List Handle := hs.flatMap p.operandsOf

theorem length_operands_insert {seen : Std.TreeSet Handle} {n : Node Handle α} (hnew : h ∉ seen)
    (hn : p.node? h = some n) :
    (p.operands (seen.insert h).toList).length =
      (p.operands seen.toList).length + n.args.length := by
  have nodup (s : Std.TreeSet Handle) : s.toList.Nodup :=
    Std.TreeSet.distinct_toList.imp fun hne he => hne (Std.compare_eq_iff_eq.mpr he)
  have hperm : (seen.insert h).toList.Perm (h :: seen.toList) := by
    refine (List.perm_ext_iff_of_nodup (nodup _) ?_).mpr fun k => ?_
    · exact List.nodup_cons.mpr ⟨mt Std.TreeSet.mem_toList.mp hnew, nodup seen⟩
    · rw [Std.TreeSet.mem_toList, mem_insert, List.mem_cons, Std.TreeSet.mem_toList]
  rw [operands, (hperm.flatMap_right _).length_eq, List.flatMap_cons, List.length_append,
    operandsOf, hn, Nat.add_comm]
  rfl

namespace Exploration

variable {e : Exploration}

/-- Each round takes one handle away, and adds the operands of a node that is new. -/
theorem length_next (he : e.stack ≠ []) :
    1 + (e.next p).stack.length + (p.operands e.seen.toList).length =
      e.stack.length + (p.operands (e.next p).seen.toList).length := by
  obtain ⟨seen, _ | ⟨h, stack⟩⟩ := e
  · exact absurd rfl he
  rcases next_cases p seen h stack with ⟨_, he⟩ | ⟨n, hnew, hn, he⟩
  · rw [he, List.length_cons, Nat.add_comm 1]
  · rw [he, length_operands_insert hnew hn, List.length_append, List.length_reverse]
    dsimp only [List.length_cons]
    omega

theorem ends_explore (p : Pool α) (e : Exploration) :
    ∃ n, e.Ends p n (p.explore e) ∧ n + (p.operands e.seen.toList).length =
      e.stack.length + (p.operands (p.explore e).toList).length := by
  fun_induction p.explore e with
  | case1 e he =>
    obtain ⟨seen, stack⟩ := e
    cases List.isEmpty_iff.mp he
    exact ⟨0, .done, rfl⟩
  | case2 e he ih =>
    obtain ⟨n, hends, hn⟩ := ih
    have hne : e.stack ≠ [] := mt List.isEmpty_iff.mpr he
    have hlength := length_next (p := p) hne
    exact ⟨n + 1, .round hne hends, by omega⟩

end Exploration

/-! ## Listings -/

/-- The nodes that some roots are built from, the roots included, each of them once and after its
operands. -/
structure Lists (p : Pool α) (roots l : List Handle) : Prop where
  ascending : l.Pairwise (· < ·)
  nodup : l.Nodup
  mem : ∀ {k}, k ∈ l ↔ ∃ h ∈ roots, p.Reaches h k
  operand_first : ∀ {h n a}, h ∈ l → p.Holds h n → a ∈ n.args →
    ∃ pre post, l = pre ++ h :: post ∧ a ∈ pre

theorem lists_reachable [Scalar α] (hp : p.WF) {roots : List Handle}
    (hroots : ∀ h ∈ roots, p.Names h) : p.Lists roots (p.reachable roots) := by
  have hmem {k : Handle} : k ∈ p.reachable roots ↔ ∃ h ∈ roots, p.Reaches h k := by
    rw [mem_reachable_iff hp fun h hh => (names_iff.mp (hroots h hh)).1]
    exact exists_congr fun h => and_congr_right fun hh => and_iff_right (hroots h hh)
  refine ⟨pairwise_reachable p roots, (pairwise_reachable p roots).imp Int.ne_of_lt, hmem, ?_⟩
  intro h n a hh hn ha
  obtain ⟨r, hr, hrh⟩ := hmem.mp hh
  have ha' : a ∈ p.reachable roots := hmem.mpr ⟨r, hr, hrh.arg hn ha⟩
  obtain ⟨pre, post, hl⟩ := List.mem_iff_append.mp hh
  refine ⟨pre, post, hl, ?_⟩
  have hlt := (hp.args_lt hn a ha).2
  have hsorted := pairwise_reachable p roots
  rw [hl] at ha' hsorted
  rcases List.mem_append.mp ha' with hpre | hpost
  · exact hpre
  rcases List.mem_cons.mp hpost with rfl | hpost
  · exact absurd hlt (Int.lt_irrefl _)
  · have hgt := List.rel_of_pairwise_cons (List.pairwise_append.mp hsorted).2.1 hpost
    exact absurd hlt (Int.lt_asymm hgt)

/-- The stack runs empty after as many rounds as there are roots and operands of listed nodes. -/
theorem Reached.explored [Scalar α] (H : p.Reached) {roots : List Handle}
    (hroots : ∀ h ∈ roots, p.Names h) :
    p.Lists roots (p.reachable roots) ∧
      ∃ seen, Exploration.Ends p { stack := roots.reverse }
          (roots.length + (p.operands (p.reachable roots)).length) seen ∧
        p.reachable roots = seen.toList := by
  refine ⟨lists_reachable H.wf hroots, p.explore { stack := roots.reverse }, ?_, rfl⟩
  obtain ⟨n, hends, hn⟩ := Exploration.ends_explore p { stack := roots.reverse }
  have hnone : p.operands (∅ : Std.TreeSet Handle).toList = [] := rfl
  rw [hnone, List.length_nil, Nat.add_zero, List.length_reverse] at hn
  exact hn ▸ hends

/-- The square of a sum, asked for twice and the sum besides. -/
theorem explored_square :
    let sum : Call Float := .combine .add (.expression 0) (.expression 1)
    let square : Call Float := .combine .mul (.expression 2) (.expression 2)
    let p := square.after (sum.after ((Call.vars 2).after .empty))
    p.Reached ∧ p.Holds 3 (.binary .mul 2 2) ∧ p.Lists [3, 2, 3] [0, 1, 2, 3] ∧
      ∃ seen, Exploration.Ends p ⟨∅, [3, 2, 3]⟩ 7 seen ∧ [0, 1, 2, 3] = seen.toList := by
  intro sum square p
  have hvars : ((Call.vars 2).after .empty : Pool Float).Reached := Reached.empty.call _ trivial
  have hsum := hvars.call sum ⟨Int.natCast_nonneg 0, Int.natCast_nonneg 1⟩
  have hp : p.Reached := hsum.call square ⟨Int.natCast_nonneg 2, Int.natCast_nonneg 2⟩
  have hroot : p.Holds 3 (.binary .mul 2 2) :=
    holds_of_find? (k := 3) hp.wf.indexed (by decide +kernel) nofun
  have hroots : ∀ h ∈ [3, 2, 3], p.Names h := by
    have hoperand : p.Names 2 := hp.wf.args hroot 2 List.mem_cons_self
    simpa using ⟨hroot.names, hoperand, hroot.names⟩
  have hlist : p.reachable [3, 2, 3] = [0, 1, 2, 3] := by decide +kernel
  have hcount : (p.operands [0, 1, 2, 3]).length = 4 := by decide +kernel
  have H := hp.explored hroots
  rw [hlist, hcount] at H
  exact ⟨hp, hroot, H⟩

end Downhill.Pool
