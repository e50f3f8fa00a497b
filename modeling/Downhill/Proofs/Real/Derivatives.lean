import Downhill.Proofs.Real.Rules

/-!
# Remembered derivatives

Every derivative that a pool remembers is right (`Pool.Sound`): wherever its node is read as a jet,
it evaluates to the slope. A derivative inherits this from those it is built from, so it holds in
every reached pool, whatever was built, differentiated or refused in it before.
-/

namespace Downhill

open PartialReal

namespace Pool

variable {p q : Pool PartialReal} {h a b d : Handle} {i : Nat} {x : Array ℝ} {j k : Jet}

/-! ## Values and variables of jets -/

/-- What is read as a jet has its value. -/
theorem Reads.value (H : p.Reads (.jet x i) h j) :
    p.Reads (.defined Defined (x.map some)) h (just j.value) := by
  induction H with
  | const hn hj =>
    obtain ⟨u, rfl, rfl⟩ := hj
    exact .const hn rfl
  | var hn hj =>
    obtain ⟨u, hu, rfl⟩ := hj
    exact .var hn ((Array.getElem?_map ..).trans (congrArg (Option.map some) hu))
  | unary hn _ hk ih =>
    obtain ⟨hs, rfl⟩ := hk
    exact .unary hn ih (unary_some hs.domain).symm
  | binary hn _ _ hl ihj ihk =>
    obtain ⟨hs, rfl⟩ := hl
    exact .binary hn ihj ihk (binary_some hs.domain).symm

/-- Only constants are fixed: everything else that has no variables was computed. -/
theorem Reads.fixed_eq (hp : p.WF) (H : p.Reads (.jet x i) h j) :
    j.fixed = p.isConstant h := by
  induction H with
  | const hn hj =>
    obtain ⟨u, rfl, rfl⟩ := hj
    exact (isConstant_iff.mpr ⟨_, hn.constant?⟩).symm
  | var hn hj =>
    obtain ⟨u, _, rfl⟩ := hj
    exact (isConstant_eq_false_iff.mpr (hn.constant?_eq_none nofun)).symm
  | unary hn _ hk ih =>
    obtain ⟨_, rfl⟩ := hk
    rw [isConstant_eq_false_iff.mpr (hn.constant?_eq_none nofun), ← (hp.normal hn).1, ← ih]
    rfl
  | binary hn _ _ hl ihj ihk =>
    obtain ⟨_, rfl⟩ := hl
    rw [isConstant_eq_false_iff.mpr (hn.constant?_eq_none nofun), Jet.fixed_binary, ihj, ihk]
    exact Bool.eq_false_iff.mpr fun hc => (hp.normal hn).1 (Bool.and_eq_true_iff.mp hc)

/-! ## Soundness -/

/-- A node that evaluates to the slope of another one by `x[i]`. -/
def SlopeAt (p : Pool PartialReal) (h : Handle) (i : Nat) (d : Handle) : Prop :=
  ∀ x j, p.Reads (.jet x i) h j → p.Means (.defined Defined (x.map some)) d (just j.slope)

structure Sound (p : Pool PartialReal) : Prop where
  slopeAt : ∀ {h i d}, p.derivative? h i = some d → p.SlopeAt h i d

theorem SlopeAt.mono (H : p.SlopeAt h i d) (hp : p.WF) (hle : p ≤ q) (hh : p.Names h) :
    q.SlopeAt h i d := fun x j hj => (H x j (hj.old hp hle hh)).mono hle

theorem nat_just (n : Nat) {u : ℝ} (hu : (n : ℝ) = u) : (just u).val = Scalar.nat n :=
  ((nat_eq n).trans (congrArg some hu)).symm

/-- A derivative built by a rule has the slope that the rule gives. -/
theorem Derives.slopeAt (hp : p.WF) (hs : p.Sound) (hn : p.Holds h n) (H : p.Derives i n r)
    (hj : p.Reads (.jet x i) h j) :
    r.2.Means (.defined Defined (x.map some)) r.1 (just j.slope) := by
  have L := Interpretation.lawful_defined identities (x.map some)
  cases H with
  | const =>
    obtain ⟨u, rfl, rfl⟩ := hj.of_const hn
    exact means_constant L hp (nat_just 0 Nat.cast_zero)
  | @var k =>
    obtain ⟨u, _, rfl⟩ := hj.of_var hn
    refine means_constant L hp (nat_just _ ?_)
    by_cases hk : k = i <;> simp [Jet.coordinate, hk]
  | @unary a da op rule hda hrule =>
    obtain ⟨k, hk, hsm, rfl⟩ := hj.of_unary hn
    obtain ⟨rule', hrule', heval⟩ := UnaryOp.rule_eval hsm k.slope
    cases hrule.symm.trans hrule'
    exact Formula.kept L.kept hp (fun _ => hk.value.means L) (fun _ => hs.slopeAt hda _ _ hk)
      (Formula.reads_of_eval heval)
  | @binary a da b db op hda hdb =>
    obtain ⟨k, l, hk, hl, hsm, rfl⟩ := hj.of_binary hn
    have heval := BinaryOp.rule_eval hsm
    rw [hl.fixed_eq hp] at heval
    have hvalue : ∀ s, p.Means (.defined Defined (x.map some)) (Side.select a b s)
        (just (s.select k.value l.value)) :=
      Side.forall.mpr ⟨hk.value.means L, hl.value.means L⟩
    have hslope : ∀ s, p.Means (.defined Defined (x.map some)) (Side.select da db s)
        (just (s.select k.slope l.slope)) :=
      Side.forall.mpr ⟨hs.slopeAt hda _ _ hk, hs.slopeAt hdb _ _ hl⟩
    exact Formula.kept L.kept hp hvalue hslope (Formula.reads_of_eval heval)

theorem inherited_slopeAt : Inherited SlopeAt where
  mono H hp hle hh := H.mono hp hle hh
  derives {p h i n r} hp hs hn hd := by
    intro x j hj
    have hle := (hd.yields hp hn).grows.le
    exact hd.slopeAt hp ⟨hs⟩ hn (hj.old hp hle hn.names)

theorem Evolves.sound (H : p.Evolves q) (hp : p.WF) (hs : p.Sound) : q.Sound :=
  ⟨inherited_slopeAt.evolves H hp hs.slopeAt⟩

theorem Reached.sound {p : Pool PartialReal} (H : p.Reached) : p.Sound :=
  ⟨fun hd => H.inherits inherited_slopeAt hd⟩

end Pool

end Downhill
