import Mathlib
import Downhill.Search.Fields
import Downhill.Proofs.Scalar.Order
import Downhill.Proofs.Search.Evaluation

/-!
# Settings that are accepted

Settings are accepted exactly if their numbers are in range
(`LineSearchSettings.validate_eq_ok_iff`). A range of which only the outside is tested lets NaN pass,
which is the case of the step factor and of the bound on norms. Settings by name depend on nothing
but the values that were stored last under the names of their fields
(`LineSearchSettings.accepted`).
-/

namespace Downhill

/-! ## Comparisons with zero -/

namespace Double

open Float.Model Float.Model.UnpackedFloat

variable {v : Float}

/-- Of the doubles that are not at most zero, all but NaN are positive. -/
theorem le_zero_eq_false_iff : Scalar.le v (Scalar.nat 0) = false ↔
    Scalar.lt (Scalar.nat 0) v = true ∨ v.isNaN = true := by
  have hnan : v.isNaN = v.toModel.unpack.isNaN := rfl
  rw [← Bool.not_eq_true, le_iff, lt_iff, unpack_zero, hnan]
  generalize v.toModel.unpack = a
  rcases a with (_ | _) | _ | _ | (_ | _) <;>
    simp [UnpackedFloat.isNaN, UnpackedFloat.lt, UnpackedFloat.le, UnpackedFloat.compare]

/-- Of the doubles that are not below zero, all but NaN are at least zero. -/
theorem lt_zero_eq_false_iff : Scalar.lt v (Scalar.nat 0) = false ↔
    Scalar.le (Scalar.nat 0) v = true ∨ v.isNaN = true := by
  have hnan : v.isNaN = v.toModel.unpack.isNaN := rfl
  rw [← Bool.not_eq_true, le_iff, lt_iff, unpack_zero, hnan]
  generalize v.toModel.unpack = a
  rcases a with (_ | _) | _ | _ | (_ | _) <;>
    simp [UnpackedFloat.isNaN, UnpackedFloat.lt, UnpackedFloat.le, UnpackedFloat.compare]

end Double

/-! ## Ranges -/

structure DescentSettings.InRange (s : DescentSettings Float) : Prop where
  maxSteps : 0 ≤ s.maxSteps
  stepFactor : Scalar.lt (Scalar.nat 0) s.stepFactor = true ∨ s.stepFactor.isNaN = true
  patience : 1 ≤ s.patience

structure LineSearchSettings.InRange (s : LineSearchSettings Float) : Prop
    extends s.toDescentSettings.InRange where
  alpha : Scalar.lt (Scalar.nat 0) s.alpha = true ∧ Scalar.lt s.alpha (Scalar.nat 1) = true
  beta : Scalar.lt (Scalar.nat 0) s.beta = true ∧ Scalar.lt s.beta (Scalar.nat 1) = true
  maxTrials : 1 ≤ s.maxTrials
  normBound : Scalar.le (Scalar.nat 0) s.normBound = true ∨ s.normBound.isNaN = true

theorem DescentSettings.validate_eq_ok_iff {s t : DescentSettings Float} :
    s.validate = .ok t ↔ t = s ∧ s.InRange := by
  rw [validate_iff, Bool.not_eq_true, Double.le_zero_eq_false_iff]
  constructor
  · rintro ⟨hsteps, hfactor, hpatience, rfl⟩
    exact ⟨rfl, hsteps, hfactor, hpatience⟩
  · rintro ⟨rfl, H⟩
    exact ⟨H.maxSteps, H.stepFactor, H.patience, rfl⟩

theorem Scalar.isFraction_iff {v : Float} : Scalar.isFraction v = true ↔
    Scalar.lt (Scalar.nat 0) v = true ∧ Scalar.lt v (Scalar.nat 1) = true := by
  rw [isFraction, Bool.and_eq_true]

namespace LineSearchSettings

theorem validate_eq_ok_iff {s t : LineSearchSettings Float} :
    s.validate = .ok t ↔ t = s ∧ s.InRange := by
  rw [validate_iff, DescentSettings.validate_eq_ok_iff, Scalar.isFraction_iff,
    Scalar.isFraction_iff, Bool.not_eq_true, Double.lt_zero_eq_false_iff]
  constructor
  · rintro ⟨⟨_, hdescent⟩, halpha, hbeta, htrials, hbound, rfl⟩
    exact ⟨rfl, hdescent, halpha, hbeta, htrials, hbound⟩
  · rintro ⟨rfl, H⟩
    exact ⟨⟨rfl, H.toInRange⟩, H.alpha, H.beta, H.maxTrials, H.normBound, rfl⟩

/-- Accepted are those of the settings under the given names that are in range. -/
theorem ofParameters_eq_ok_iff {p : Parameters} {s : LineSearchSettings Float} :
    ofParameters (some p) = .ok s ↔ resolve p = .ok s ∧ s.InRange := by
  rw [ofParameters, Option.getD_some]
  cases hr : resolve p with
  | error e => exact iff_of_false nofun nofun
  | ok t =>
    rw [ok_bind rfl, validate_eq_ok_iff, Except.ok.injEq]
    constructor
    · rintro ⟨rfl, H⟩
      exact ⟨rfl, H⟩
    · rintro ⟨rfl, H⟩
      exact ⟨rfl, H⟩

/-- The names under which fields are given. -/
def names : List String := (fields {}).map Prod.fst

theorem resolve_congr {p q : Parameters} (H : ∀ name ∈ names, p.get? name = q.get? name) :
    resolve p = resolve q := by
  simp only [names, fields, DescentSettings.fields, List.map_cons, List.map_nil, List.cons_append,
    List.nil_append, List.forall_mem_cons] at H
  obtain ⟨h1, h2, h3, h4, h5, h6, h7, h8, h9, h10, _⟩ := H
  simp only [resolve, DescentSettings.resolve, Parameters.getInteger, Parameters.getDouble, h1, h2,
    h3, h4, h5, h6, h7, h8, h9, h10]

end LineSearchSettings

/-! ## Stored values -/

/-- What is stored for a datum, if it is a number that has a double. -/
def Datum.stored? (d : Datum) : Option Float :=
  if d.isReal then d.toDouble?.toOption else Option.none

namespace Parameters

/-- The parameters after a value was handed in, which are the same if it was refused. -/
def after (p : Parameters) (name : String) (value : Datum) : Parameters :=
  match p.set name value with
  | .ok q => q
  | .error _ => p

/-- The parameters after a sequence of values under names, whether or not they were refused. -/
def ofCalls (calls : List (String × Datum)) : Parameters :=
  calls.foldl (fun p call => p.after call.1 call.2) {}

/-- The value that was stored last under a name. -/
def lastStored (calls : List (String × Datum)) (name : String) : Option Float :=
  calls.reverse.findSome? fun call => if call.1 = name then call.2.stored? else none

theorem get?_after (p : Parameters) (name : String) (value : Datum) (k : String) :
    (p.after name value).get? k = (if name = k then value.stored? else none).or (p.get? k) := by
  rw [after, set, Datum.stored?]
  by_cases hreal : value.isReal = true
  · rw [if_pos hreal, if_pos hreal]
    cases value.toDouble? with
    | error e => simp [Except.toOption]
    | ok v =>
      dsimp only
      rw [get?, lookup_assign]
      by_cases hk : k = name
      · simp [hk, Except.toOption]
      · have hk' : ¬name = k := fun h => hk h.symm
        simp [hk, hk', get?]
  · rw [if_neg hreal, if_neg hreal]
    simp

theorem get?_ofCalls (calls : List (String × Datum)) (name : String) :
    (ofCalls calls).get? name = lastStored calls name := by
  induction calls using List.reverseRecOn with
  | nil => rfl
  | append_singleton calls call ih =>
    obtain ⟨k, value⟩ := call
    rw [ofCalls, List.foldl_append, List.foldl_cons, List.foldl_nil, get?_after]
    refine (congrArg _ ih).trans ?_
    rw [lastStored, lastStored, List.reverse_append, List.reverse_singleton, List.singleton_append,
      List.findSome?_cons]
    cases if k = name then value.stored? else none with
    | none => rfl
    | some v => rfl

end Parameters

namespace LineSearchSettings

open Parameters (ofCalls lastStored)

/-- Settings from named values are in range, or refused. They are the same for any other values, in
any order, of which the same were stored last under the names of the fields. -/
theorem accepted (calls : List (String × Datum)) :
    (∀ s, ofParameters (some (ofCalls calls)) = .ok s ↔
      resolve (ofCalls calls) = .ok s ∧ s.InRange) ∧
    ∀ calls', (∀ name ∈ names, lastStored calls name = lastStored calls' name) →
      ofParameters (some (ofCalls calls)) = ofParameters (some (ofCalls calls')) := by
  refine ⟨fun s => ofParameters_eq_ok_iff, fun calls' H => ?_⟩
  have hget : ∀ name ∈ names, (ofCalls calls).get? name = (ofCalls calls').get? name := by
    intro name hname
    rw [Parameters.get?_ofCalls, Parameters.get?_ofCalls, H name hname]
  rw [ofParameters, ofParameters, Option.getD_some, Option.getD_some, resolve_congr hget]

/-- Values that were overwritten and other names do not matter, and NaN passes for a step factor. -/
theorem accepted_reordered :
    let calls : List (String × Datum) := [("bt_alpha", .double 2), ("color", .integer 7),
      ("bt_alpha", .double 0.25), ("step_factor", .double (0 / 0)), ("max_steps", .double 10.7)]
    let calls' : List (String × Datum) := [("max_steps", .double 10.7),
      ("step_factor", .double (0 / 0)), ("bt_alpha", .double 0.25)]
    (∀ name ∈ names, lastStored calls name = lastStored calls' name) ∧
      ofParameters (some (ofCalls calls)) = ofParameters (some (ofCalls calls')) ∧
      ∃ s, ofParameters (some (ofCalls calls)) = .ok s ∧ s.InRange ∧ s.maxSteps = 10 := by
  intro calls calls'
  have H := accepted calls
  have hlast : ∀ name ∈ names, lastStored calls name = lastStored calls' name := by decide +kernel
  have hsteps : (ofParameters (some (ofCalls calls))).toOption.map
      (fun s : LineSearchSettings Float => s.maxSteps) = some 10 := by decide +kernel
  refine ⟨hlast, H.2 calls' hlast, ?_⟩
  cases hs : ofParameters (some (ofCalls calls)) with
  | error e => rw [hs] at hsteps; cases hsteps
  | ok s =>
    rw [hs] at hsteps
    exact ⟨s, rfl, ((H.1 s).mp hs).2, Option.some.inj hsteps⟩

/-- NaN is accepted for a step factor and for a bound on norms, but it is not positive, nor is it at
least zero. -/
theorem accepted_nan :
    ∃ s, ofParameters (some (ofCalls
        [("step_factor", .double (0 / 0)), ("grad_eps", .double (0 / 0))])) = .ok s ∧
      Scalar.lt (Scalar.nat 0) s.stepFactor = false ∧
      Scalar.le (Scalar.nat 0) s.normBound = false := by
  have hranges : (ofParameters (some (ofCalls
      [("step_factor", .double (0 / 0)), ("grad_eps", .double (0 / 0))]))).toOption.map
      (fun s : LineSearchSettings Float => (Scalar.lt (Scalar.nat 0) s.stepFactor,
        Scalar.le (Scalar.nat 0) s.normBound)) = some (false, false) := by decide +kernel
  revert hranges
  cases ofParameters (some (ofCalls
      [("step_factor", .double (0 / 0)), ("grad_eps", .double (0 / 0))])) with
  | error e => nofun
  | ok s =>
    intro hranges
    obtain ⟨hfactor, hbound⟩ := Prod.mk.inj (Option.some.inj hranges)
    exact ⟨s, rfl, hfactor, hbound⟩

end LineSearchSettings

end Downhill
