import Downhill.Graph.Reachable
import Downhill.Proofs.Pool.Growth

/-!
# Reachable nodes

`Pool.Reaches` is the relation of following operands. An operand of a node that has been seen has
been seen too or is still on the stack (`Exploration.Consistent`), so a round changes nothing about
what will have been seen in the end. The stack runs empty with what is reached from the roots and
nothing else (`mem_reachable_iff`), which is listed in ascending order (`pairwise_reachable`).
-/

namespace Downhill.Pool

variable {α : Type}

/-! ## Following operands -/

inductive Reaches (p : Pool α) : Handle → Handle → Prop where
  | rfl : Reaches p h h
  | step : p.Holds h n → a ∈ n.args → Reaches p a k → Reaches p h k

variable {p q : Pool α} {h k a : Handle}

namespace Reaches

theorem trans (H : p.Reaches h a) (H' : p.Reaches a k) : p.Reaches h k := by
  induction H with
  | rfl => exact H'
  | step hn ha _ ih => exact .step hn ha (ih H')

theorem arg (H : p.Reaches h k) (hn : p.Holds k n) (ha : a ∈ n.args) : p.Reaches h a :=
  H.trans (.step hn ha .rfl)

theorem names [Scalar α] (hp : p.WF) (H : p.Reaches h k) (hh : p.Names h) : p.Names k := by
  induction H with
  | rfl => exact hh
  | step hn ha _ ih => exact ih (hp.args hn _ ha)

theorem mono (H : p.Reaches h k) (hle : p ≤ q) : q.Reaches h k := by
  induction H with
  | rfl => exact .rfl
  | step hn ha _ ih => exact .step (hn.mono hle) ha ih

theorem old [Scalar α] (H : q.Reaches h k) (hp : p.WF) (hle : p ≤ q) (hh : p.Names h) :
    p.Reaches h k := by
  induction H with
  | rfl => exact .rfl
  | step hn ha _ ih =>
    have hn := hn.old hle hh
    exact .step hn ha (ih (hp.args hn _ ha))

/-- Nothing is reached from a node without operands but the node itself. -/
theorem of_leaf (H : p.Reaches h k) (hn : p.Holds h n) (hargs : n.args = []) : k = h := by
  cases H with
  | rfl => exact Eq.refl h
  | step hm ha =>
    cases hn.unique hm
    exact absurd (hargs ▸ ha) List.not_mem_nil

theorem of_leaves (H : p.Reaches h k) (hn : p.Holds h n)
    (hargs : ∀ a ∈ n.args, ∃ m, p.Holds a m ∧ m.args = []) : k = h ∨ k ∈ n.args := by
  cases H with
  | rfl => exact .inl (Eq.refl h)
  | step hm ha hk =>
    cases hn.unique hm
    obtain ⟨m, hm, hleaf⟩ := hargs _ ha
    exact .inr (hk.of_leaf hm hleaf ▸ ha)

end Reaches

/-! ## Steps below a node -/

/-- Some node that is reached is a step. -/
def Stepped (p : Pool α) (h : Handle) : Prop :=
  ∃ k a, p.Reaches h k ∧ p.Holds k (.unary .unitStep a)

/-- Whether there is a step below a node does not change. -/
theorem Names.stepped_iff [Scalar α] (hh : p.Names h) (hp : p.WF) (hle : p ≤ q) :
    q.Stepped h ↔ p.Stepped h := by
  constructor
  · rintro ⟨k, a, hk, hn⟩
    have hk := hk.old hp hle hh
    exact ⟨k, a, hk, hn.old hle (hk.names hp hh)⟩
  · rintro ⟨k, a, hk, hn⟩
    exact ⟨k, a, hk.mono hle, hn.mono hle⟩

/-! ## The stack -/

theorem mem_insert {seen : Std.TreeSet Handle} : k ∈ seen.insert h ↔ k = h ∨ k ∈ seen := by
  rw [Std.TreeSet.mem_insert, Std.compare_eq_iff_eq, eq_comm]

namespace Exploration

variable {seen : Std.TreeSet Handle} {stack : List Handle} {e : Exploration}

/-- What happens to the next handle. -/
theorem next_cases (p : Pool α) (seen : Std.TreeSet Handle) (h : Handle) (stack : List Handle) :
    (h ∈ seen ∨ p.node? h = none) ∧ next p ⟨seen, h :: stack⟩ = ⟨seen, stack⟩ ∨
      ∃ n, h ∉ seen ∧ p.node? h = some n ∧
        next p ⟨seen, h :: stack⟩ = ⟨seen.insert h, n.args.reverse ++ stack⟩ := by
  by_cases hseen : h ∈ seen
  · exact .inl ⟨.inl hseen, if_pos hseen⟩
  · have hnew : ¬seen.contains h = true := hseen
    rw [next, if_neg hnew]
    cases hn : p.node? h with
    | some n => exact .inr ⟨n, hseen, rfl, rfl⟩
    | none => exact .inl ⟨.inr rfl, rfl⟩

/-- A handle that has been seen, or will be. -/
def Finds (p : Pool α) (e : Exploration) (k : Handle) : Prop :=
  k ∈ e.seen ∨ ∃ h ∈ e.stack, p.Names h ∧ p.Reaches h k

/-- An operand of a node that has been seen has been seen itself, or is still on the stack. -/
structure Consistent (p : Pool α) (e : Exploration) : Prop where
  nonneg : ∀ h ∈ e.stack, 0 ≤ h
  closed : ∀ {h n a}, h ∈ e.seen → p.Holds h n → a ∈ n.args → a ∈ e.seen ∨ a ∈ e.stack

theorem Consistent.start (h0 : ∀ h ∈ stack, 0 ≤ h) : Consistent p { stack } where
  nonneg := h0
  closed hh := absurd hh Std.TreeSet.not_mem_emptyc

variable [Scalar α]

theorem Consistent.drop (hp : p.WF) (H : Consistent p ⟨seen, h :: stack⟩)
    (hh : p.Names h → h ∈ seen) : Consistent p ⟨seen, stack⟩ where
  nonneg k hk := H.nonneg k (List.mem_cons_of_mem h hk)
  closed hk hn ha := by
    rcases H.closed hk hn ha with hseen | hstack
    · exact .inl hseen
    rcases List.mem_cons.mp hstack with rfl | hstack
    · exact .inl (hh (hp.args hn _ ha))
    · exact .inr hstack

theorem Consistent.visit (hp : p.WF) (H : Consistent p ⟨seen, h :: stack⟩) (hn : p.Holds h n) :
    Consistent p ⟨seen.insert h, n.args.reverse ++ stack⟩ where
  nonneg k hk := by
    rcases List.mem_append.mp hk with hk | hk
    · exact (hp.args_lt hn k (List.mem_reverse.mp hk)).1
    · exact H.nonneg k (List.mem_cons_of_mem h hk)
  closed {k m a} hk hm ha := by
    rcases mem_insert.mp hk with rfl | hk
    · cases hn.unique hm
      exact .inr (List.mem_append_left _ (List.mem_reverse.mpr ha))
    · rcases H.closed hk hm ha with hseen | hstack
      · exact .inl (mem_insert.mpr (.inr hseen))
      rcases List.mem_cons.mp hstack with rfl | hstack
      · exact .inl (mem_insert.mpr (.inl rfl))
      · exact .inr (List.mem_append_right _ hstack)

/-- Whatever is below a node that has been seen will be seen. -/
theorem Consistent.finds (hp : p.WF) (H : e.Consistent p) (hh : h ∈ e.seen)
    (hr : p.Reaches h k) : e.Finds p k := by
  induction hr with
  | rfl => exact .inl hh
  | step hn ha hr ih =>
    rcases H.closed hh hn ha with hseen | hstack
    · exact ih hseen
    · exact .inr ⟨_, hstack, hp.args hn _ ha, hr⟩

theorem finds_drop (hp : p.WF) (H : Consistent p ⟨seen, stack⟩) (hh : p.Names h → h ∈ seen) :
    Finds p ⟨seen, stack⟩ k ↔ Finds p ⟨seen, h :: stack⟩ k := by
  constructor
  · rintro (hk | ⟨s, hs, hr⟩)
    · exact .inl hk
    · exact .inr ⟨s, List.mem_cons_of_mem h hs, hr⟩
  · rintro (hk | ⟨s, hs, hn, hr⟩)
    · exact .inl hk
    rcases List.mem_cons.mp hs with rfl | hs
    · exact H.finds hp (hh hn) hr
    · exact .inr ⟨s, hs, hn, hr⟩

theorem finds_visit (hp : p.WF) (hn : p.Holds h n) :
    Finds p ⟨seen.insert h, n.args.reverse ++ stack⟩ k ↔ Finds p ⟨seen, h :: stack⟩ k := by
  constructor
  · rintro (hk | ⟨s, hs, hnames, hr⟩)
    · rcases mem_insert.mp hk with rfl | hk
      · exact .inr ⟨_, List.mem_cons_self, hn.names, .rfl⟩
      · exact .inl hk
    · rcases List.mem_append.mp hs with hs | hs
      · exact .inr ⟨h, List.mem_cons_self, hn.names, .step hn (List.mem_reverse.mp hs) hr⟩
      · exact .inr ⟨s, List.mem_cons_of_mem h hs, hnames, hr⟩
  · rintro (hk | ⟨s, hs, hnames, hr⟩)
    · exact .inl (mem_insert.mpr (.inr hk))
    rcases List.mem_cons.mp hs with rfl | hs
    · cases hr with
      | rfl => exact .inl (mem_insert.mpr (.inl rfl))
      | step hm ha hr =>
        cases hn.unique hm
        exact .inr ⟨_, List.mem_append_left _ (List.mem_reverse.mpr ha), hp.args hn _ ha, hr⟩
    · exact .inr ⟨s, List.mem_append_right _ hs, hnames, hr⟩

/-- A round changes nothing about what will have been seen in the end. -/
theorem Consistent.next (hp : p.WF) (H : e.Consistent p) :
    (e.next p).Consistent p ∧ ((e.next p).Finds p k ↔ e.Finds p k) := by
  obtain ⟨seen, _ | ⟨h, stack⟩⟩ := e
  · exact ⟨H, Iff.rfl⟩
  rcases next_cases p seen h stack with ⟨hold, he⟩ | ⟨n, _, hn, he⟩
  · have hh : p.Names h → h ∈ seen := by
      rintro ⟨m, hm⟩
      exact hold.resolve_right fun hnone => nomatch hnone.symm.trans hm.2
    have H' := H.drop hp hh
    exact ⟨he ▸ H', he ▸ finds_drop hp H' hh⟩
  · have hn : p.Holds h n := ⟨H.nonneg h List.mem_cons_self, hn⟩
    exact ⟨he ▸ H.visit hp hn, he ▸ finds_visit hp hn⟩

theorem mem_explore (hp : p.WF) (H : e.Consistent p) : k ∈ p.explore e ↔ e.Finds p k := by
  fun_induction p.explore e with
  | case1 e he => simp [Finds, List.isEmpty_iff.mp he]
  | case2 e _ ih => rw [ih (H.next (k := k) hp).1, (H.next hp).2]

end Exploration

/-! ## Listing -/

theorem mem_reachable_iff [Scalar α] (hp : p.WF) {roots : List Handle} (h0 : ∀ h ∈ roots, 0 ≤ h) :
    k ∈ p.reachable roots ↔ ∃ h ∈ roots, p.Names h ∧ p.Reaches h k := by
  have H : Exploration.Consistent p { stack := roots.reverse } :=
    .start fun h hh => h0 h (List.mem_reverse.mp hh)
  rw [reachable, Std.TreeSet.mem_toList, Exploration.mem_explore hp H]
  simp [Exploration.Finds]

theorem mem_reachable_singleton [Scalar α] (hp : p.WF) (hh : p.Names h) :
    k ∈ p.reachable [h] ↔ p.Reaches h k := by
  have h0 : ∀ k ∈ [h], 0 ≤ k := by simpa using (names_iff.mp hh).1
  simp [mem_reachable_iff hp h0, hh]

theorem pairwise_reachable (p : Pool α) (roots : List Handle) :
    (p.reachable roots).Pairwise (· < ·) := by
  have H : (p.reachable roots).Pairwise fun h k => compare h k = .lt := Std.TreeSet.ordered_toList
  exact H.imp Int.compare_eq_lt.mp

end Downhill.Pool
