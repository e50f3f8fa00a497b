import Mathlib.Data.List.Induction
import Mathlib.Data.List.Infix
import Downhill.Journal.Registry

/-!
# Uniform loggers

Whatever the order in which loggers are asked for, levels are set and handlers are replaced, all
loggers made so far have the level set last and one handler at that level (`Fresh.loggers_agree`).
What is given as a level and is none changes nothing once there are loggers. Before there are any it
is kept, and then no logger can be made until a level is set. A logger never leaves its place in the
registry, by which it is told from others.
-/

namespace Downhill

/-! ## Levels -/

/-- A level as it is handed in. -/
inductive GivenLevel where
  | number (level : Level)
  /-- A name in any case. -/
  | name (s : String)
  deriving DecidableEq, Repr

def GivenLevel.resolve : GivenLevel → Except LevelError Level
  | number level => .ok level
  | name s => Level.ofName s

/-! ## Calls -/

namespace Registry

inductive Call where
  | get (name : Option String)
  | setLevel (level : GivenLevel)
  | configure (level : GivenLevel) (format stream : Option String)
  deriving DecidableEq, Repr

namespace Call

/-- What a call does in a registry. -/
def change (r : Registry) : Call → Change
  | get name => register (r.fullName name)
  | setLevel level => settingLevel level.resolve
  | configure level format stream => configuring level.resolve format stream

def run (call : Call) (r : Registry) : Change.Result := (call.change r).run r

/-- Whether a call asks for a template by a text that is none. The empty text asks for the standard
one. -/
def misformatted : Call → Bool
  | configure _ (some format) _ => format != "" && (Template.parse? format).isNone
  | _ => false

/-- What a call gives as a level, if it gets as far as that. -/
def gives? : Call → Option (Except LevelError Level)
  | get _ => none
  | setLevel level => some level.resolve
  | call@(configure level _ _) => if call.misformatted then none else some level.resolve

/-- The level that a call sets. -/
def sets? (call : Call) : Option Level := call.gives?.bind Except.toOption

end Call

/-- The registry after a call, whether or not it failed. -/
def after (r : Registry) (call : Call) : Registry := (call.change r).after r

def afterAll (r : Registry) (calls : List Call) : Registry := calls.foldl after r

/-- The level that was set last. -/
def lastLevel (calls : List Call) : Level :=
  ((calls.filterMap Call.sets?).getLast?).getD .warning

/-- What was given last, level or not. -/
def lastGiven (calls : List Call) : Except LevelError Level :=
  ((calls.filterMap Call.gives?).getLast?).getD (.ok .warning)

/-- The place of the logger that is handed out for a name. -/
def handedOut? (r : Registry) (name : Option String) : Option Nat :=
  match (Call.get name).run r with
  | .ok _ s => s.place? (r.fullName name)
  | .error _ _ => none

/-- A registry before the first call. Loggers may be there by their names, but without handlers. -/
structure Fresh (r : Registry) : Prop where
  registered : r.registered = []
  level : r.level = .ok .warning
  bare : ∀ entry ∈ r.loggers, entry.2.handlers = []

/-! ## Names and places -/

variable {r s : Registry} {call : Call}

/-- The names under which there are loggers, in the order in which these were made. -/
def names (r : Registry) : List String := r.loggers.map Prod.fst

theorem place?_eq (r : Registry) (name : String) :
    r.place? name = r.names.findIdx? (· == name) := by
  rw [place?, names, List.findIdx?_map]
  rfl

theorem isSome_place?_iff {name : String} : (r.place? name).isSome = true ↔ name ∈ r.names := by
  rw [place?_eq, List.findIdx?_isSome, List.any_eq_true]
  simp

theorem eq_of_place?_eq {a b : String} {i : Nat} (ha : r.place? a = some i)
    (hb : r.place? b = some i) : a = b := by
  rw [place?_eq] at ha hb
  obtain ⟨h, ha, _⟩ := List.findIdx?_eq_some_iff_getElem.mp ha
  obtain ⟨_, hb, _⟩ := List.findIdx?_eq_some_iff_getElem.mp hb
  exact (beq_iff_eq.mp ha).symm.trans (beq_iff_eq.mp hb)

theorem place?_mono {name : String} {i : Nat} (hnames : r.names <+: s.names)
    (H : r.place? name = some i) : s.place? name = some i := by
  rw [place?_eq] at H ⊢
  exact hnames.findIdx?_eq_some H

theorem mem_names_of_logger? {name : String} {l : Logger} (H : r.logger? name = some l) :
    name ∈ r.names := by
  obtain ⟨front, back, hloggers, _⟩ := List.lookup_eq_some_iff.mp H
  simp [names, hloggers]

section Changed

variable (r) (name : String) (l : Logger) (f : Logger → Logger)

theorem names_put : r.names <+: (r.put name l).names := by
  rw [names, names, put, keys_assign]
  split
  · exact List.prefix_rfl
  · exact List.prefix_append _ _

theorem put_put (l' : Logger) : (r.put name l).put name l' = r.put name l' :=
  congrArg (fun loggers => { r with loggers }) (assign_assign name l' l r.loggers)

theorem logger?_put (k : String) :
    (r.put name l).logger? k = if k == name then some l else r.logger? k :=
  lookup_assign name l k r.loggers

theorem names_update : (r.update f).names = r.names := by
  rw [names, update, List.map_map]
  rfl

theorem logger?_update : (r.update f).logger? name =
    (r.logger? name).map fun l => if r.registered.contains name then f l else l := by
  rw [logger?, update, logger?]
  dsimp only
  induction r.loggers with
  | nil => rfl
  | cons entry rest ih =>
    rw [List.map_cons, List.lookup_cons, List.lookup_cons, ih]
    cases h : name == entry.1 with
    | false => rfl
    | true => rw [beq_iff_eq.mp h]; rfl

end Changed

/-! ## Templates -/

theorem templateOf_of_misformatted {level : GivenLevel} {format stream : Option String}
    (H : (Call.configure level format stream).misformatted = true) :
    templateOf format = .error .template := by
  cases format with
  | none => cases H
  | some s =>
    rw [Call.misformatted, Bool.and_eq_true, bne_iff_ne, Option.isNone_iff_eq_none] at H
    rw [templateOf.eq_3 _ H.1, H.2]

theorem exists_templateOf {level : GivenLevel} {format stream : Option String}
    (H : (Call.configure level format stream).misformatted = false) :
    ∃ template, templateOf format = .ok template := by
  cases format with
  | none => exact ⟨_, rfl⟩
  | some s =>
    by_cases hs : s = ""
    · subst hs
      exact ⟨_, rfl⟩
    · rw [Call.misformatted, Bool.and_eq_false_iff, bne_eq_false_iff_eq] at H
      obtain ⟨template, ht⟩ := Option.isSome_iff_exists.mp
        (Option.isNone_eq_false_iff.mp (H.resolve_left hs))
      rw [templateOf.eq_3 _ hs, ht]
      exact ⟨template, rfl⟩

/-- Nothing is done before the template is looked at. -/
theorem run_misformatted (H : call.misformatted = true) :
    call.run r = .error .template r := by
  cases call with
  | get | setLevel => cases H
  | configure level format stream =>
    rw [Call.run, Call.change, configuring, templateOf_of_misformatted H]
    rfl

theorem gives?_of_misformatted (H : call.misformatted = true) : call.gives? = none := by
  cases call with
  | get | setLevel => cases H
  | configure => exact if_pos H

end Registry

/-- A logger at a level, with one handler at the same level, that keeps its records to itself. -/
structure Logger.IsAt (l : Logger) (level : Level) : Prop where
  own : l.level = level
  handlers : ∃ h, l.handlers = [h] ∧ h.level = level
  propagates : l.propagates = false

theorem Registry.isAt_newLogger (level : Level) : (newLogger level).IsAt level :=
  ⟨rfl, ⟨_, rfl, rfl⟩, rfl⟩

namespace Registry

variable {r s : Registry} {call : Call}

/-! ## What calls do -/

/-- What comes of a call. A logger is found or made, or none can be made; a level is kept while
there are no loggers, all loggers are brought to it, or they refuse it; or the template is
refused. -/
inductive Step (r : Registry) : Call → Change.Result → Prop
  | finds {name : Option String} (H : r.fullName name ∈ r.registered) :
      Step r (.get name) (.ok () r)
  | makes {name : Option String} {level : Level} {l : Logger} (H : r.fullName name ∉ r.registered)
      (hlevel : r.level = .ok level) (hl : l.IsAt level) :
      Step r (.get name) (.ok ()
        { r.put (r.fullName name) l with registered := r.registered ++ [r.fullName name] })
  | makesNone {name : Option String} {e : LevelError} {l : Logger}
      (H : r.fullName name ∉ r.registered) (hlevel : r.level = .error e) (hl : l.handlers = []) :
      Step r (.get name) (.error (.level e) (r.put (r.fullName name) l))
  | keeps {call : Call} {given : Except LevelError Level} (H : call.gives? = some given)
      (hempty : r.registered = []) : Step r call (.ok () { r with level := given })
  | sets {call : Call} {level : Level} {f : Logger → Logger} (H : call.gives? = some (.ok level))
      (hne : r.registered ≠ []) (hf : ∀ l old, l.IsAt old → (f l).IsAt level) :
      Step r call (.ok () { r.update f with level := .ok level })
  | refuses {call : Call} {e : LevelError} (H : call.gives? = some (.error e))
      (hne : r.registered ≠ []) : Step r call (.error (.level e) r)
  | misformatted {call : Call} (H : call.misformatted = true) :
      Step r call (.error .template r)

/-- Only registered loggers have handlers. -/
def Bare (r : Registry) : Prop := ∀ k ∉ r.registered, ∀ l, r.logger? k = some l → l.handlers = []

theorem Bare.found (H : r.Bare) {name : String} (hname : name ∉ r.registered) :
    ((r.logger? name).getD {}).handlers = [] := by
  cases hl : r.logger? name with
  | none => rfl
  | some l => exact H name hname l hl

section Run

variable {name : String} {level : Level} {e : LevelError} {given : Except LevelError Level}
  {f : Level → Logger → Logger}

theorem run_register_known (H : name ∈ r.registered) : (register name).run r = .ok () r := by
  have hknown : r.registered.contains name = true := List.contains_iff_mem.mpr H
  change EStateM.run (unless r.registered.contains name do _) r = _
  rw [hknown]
  rfl

/-- A logger that is not registered gets its handler, if a level can be set. -/
theorem run_register_new (H : name ∉ r.registered)
    (hbare : ((r.logger? name).getD {}).handlers = []) :
    (register name).run r = EStateM.run (do
      set (r.put name ((r.logger? name).getD {}))
      let logger ← newLogger <$> ofExcept (r.level.mapError .level)
      modify fun r => { r.put name logger with registered := r.registered ++ [name] }) r := by
  have hnew : r.registered.contains name = false := by simpa using H
  change EStateM.run (unless r.registered.contains name do _) r = _
  rw [hnew, hbare]
  rfl

theorem run_register_ok (H : name ∉ r.registered)
    (hbare : ((r.logger? name).getD {}).handlers = []) (hlevel : r.level = .ok level) :
    (register name).run r =
      .ok () { r.put name (newLogger level) with registered := r.registered ++ [name] } := by
  have hput := put_put r name ((r.logger? name).getD {}) (newLogger level)
  rw [run_register_new H hbare, hlevel, ← hput]
  rfl

theorem run_register_error (H : name ∉ r.registered)
    (hbare : ((r.logger? name).getD {}).handlers = []) (hlevel : r.level = .error e) :
    (register name).run r = .error (.level e) (r.put name ((r.logger? name).getD {})) := by
  rw [run_register_new H hbare, hlevel]
  rfl

theorem run_updating_empty (H : r.registered = []) :
    (updating given f).run r = .ok () { r with level := given } := by
  obtain ⟨package, loggers, registered, level⟩ := r
  cases H
  rfl

theorem run_updating (H : r.registered ≠ []) :
    (updating given f).run r = match given with
      | .ok level => .ok () { r.update (f level) with level := .ok level }
      | .error e => .error (.level e) r := by
  obtain ⟨package, loggers, registered, level⟩ := r
  cases registered with
  | nil => exact absurd rfl H
  | cons => cases given <;> rfl

theorem step_updating (H : call.gives? = some given)
    (hf : ∀ level l old, l.IsAt old → (f level l).IsAt level) :
    Step r call ((updating given f).run r) := by
  by_cases hempty : r.registered = []
  · rw [run_updating_empty hempty]
    exact .keeps H hempty
  · rw [run_updating hempty]
    cases given with
    | ok level => exact .sets H hempty (hf level)
    | error e => exact .refuses H hempty

/-- Calls that give a level have the loggers follow it. -/
theorem exists_updating (H : call.gives? = some given) :
    ∃ f, (∀ level l old, l.IsAt old → (f level l).IsAt level) ∧
      ∀ r, call.run r = (updating given f).run r := by
  cases call with
  | get => cases H
  | setLevel =>
    cases H
    refine ⟨_, fun level l old hl => ?_, fun r => rfl⟩
    obtain ⟨h, hhandlers, _⟩ := hl.handlers
    exact ⟨rfl, ⟨{ h with level }, by rw [hhandlers]; rfl, rfl⟩, hl.propagates⟩
  | configure level format stream =>
    cases hformat : (Call.configure level format stream).misformatted with
    | true => cases (gives?_of_misformatted hformat).symm.trans H
    | false =>
      obtain ⟨template, htemplate⟩ := exists_templateOf hformat
      rw [Call.gives?, hformat] at H
      cases H
      let handler (level : Level) : Handler := ⟨level, template, some (stream.getD errorStream)⟩
      refine ⟨fun level l => { l with level, handlers := [handler level] },
        fun level l old hl => ⟨rfl, ⟨_, rfl, rfl⟩, hl.propagates⟩, fun r => ?_⟩
      rw [Call.run, Call.change, configuring, htemplate]
      rfl

end Run

theorem Bare.step (H : r.Bare) (call : Call) : Step r call (call.run r) := by
  have hgives {given : Except LevelError Level} (hcall : call.gives? = some given) :
      Step r call (call.run r) := by
    obtain ⟨f, hf, hrun⟩ := exists_updating hcall
    rw [hrun]
    exact step_updating hcall hf
  cases call with
  | get name =>
    change Step r (.get name) ((register (r.fullName name)).run r)
    by_cases hname : r.fullName name ∈ r.registered
    · rw [run_register_known hname]
      exact .finds hname
    · have hbare := H.found hname
      cases hlevel : r.level with
      | ok level =>
        rw [run_register_ok hname hbare hlevel]
        exact .makes hname hlevel (isAt_newLogger level)
      | error e =>
        rw [run_register_error hname hbare hlevel]
        exact .makesNone hname hlevel hbare
  | setLevel => exact hgives rfl
  | configure level format stream =>
    cases hformat : (Call.configure level format stream).misformatted with
    | true =>
      rw [run_misformatted hformat]
      exact .misformatted hformat
    | false => exact hgives (by rw [Call.gives?, hformat]; rfl)

section Step

variable {result : Change.Result}

theorem Step.package (H : Step r call result) : result.registry.package = r.package := by
  cases H <;> rfl

theorem Step.fullName (H : Step r call result) (name : Option String) :
    result.registry.fullName name = r.fullName name := by
  cases name <;> simp only [Registry.fullName, H.package]

theorem Step.names (H : Step r call result) : r.names <+: result.registry.names := by
  cases H with
  | finds | keeps | refuses | misformatted => exact List.prefix_rfl
  | makes | makesNone => exact names_put r _ _
  | sets => exact names_update r _ ▸ List.prefix_rfl

/-- Loggers are registered when they are handed out. -/
theorem Step.mem_registered (H : Step r call result) {k : String} :
    k ∈ result.registry.registered ↔ k ∈ r.registered ∨
      ∃ name, call = .get name ∧ r.fullName name = k ∧ ∃ s, result = .ok () s := by
  cases H with
  | @finds name hname =>
    refine ⟨.inl, fun h => h.elim id ?_⟩
    rintro ⟨_, hget, rfl, _⟩
    cases hget
    exact hname
  | @makes name _ _ _ _ _ =>
    simp only [Change.Result.registry, List.mem_append, List.mem_singleton]
    refine or_congr_right ⟨fun h => ⟨name, rfl, h.symm, _, rfl⟩, ?_⟩
    rintro ⟨_, hget, rfl, _⟩
    cases hget
    rfl
  | makesNone | refuses | misformatted =>
    refine ⟨.inl, fun h => h.elim id ?_⟩
    rintro ⟨_, _, _, _, hok⟩
    cases hok
  | keeps hgives | sets hgives =>
    refine ⟨.inl, fun h => h.elim id ?_⟩
    rintro ⟨_, rfl, _⟩
    cases hgives

end Step

/-! ## Levels given and set -/

theorem lastGiven_concat (calls : List Call) (call : Call) :
    lastGiven (calls ++ [call]) = call.gives?.getD (lastGiven calls) := by
  rw [lastGiven, lastGiven, List.filterMap_append]
  cases h : call.gives? <;> simp [h]

theorem lastLevel_concat (calls : List Call) (call : Call) :
    lastLevel (calls ++ [call]) = call.sets?.getD (lastLevel calls) := by
  rw [lastLevel, lastLevel, List.filterMap_append]
  cases h : call.sets? <;> simp [h]

/-- What was given last was set, if it is a level. -/
theorem lastLevel_eq {calls : List Call} {level : Level} (H : lastGiven calls = .ok level) :
    lastLevel calls = level := by
  induction calls using List.reverseRecOn generalizing level with
  | nil => cases H; rfl
  | append_singleton calls call ih =>
    rw [lastGiven_concat] at H
    rw [lastLevel_concat, Call.sets?]
    cases hgives : call.gives? with
    | none =>
      rw [hgives] at H
      exact ih H
    | some given =>
      rw [hgives] at H
      cases H
      rfl

/-! ## The invariant -/

/-- All loggers made so far are at the level set last, which is also that of loggers yet to be made;
before the first of these, whatever was given last is kept. -/
structure Uniform (r : Registry) (calls : List Call) : Prop where
  given : r.registered = [] → r.level = lastGiven calls
  level : r.registered ≠ [] → r.level = .ok (lastLevel calls)
  made : ∀ k ∈ r.registered, ∃ l, r.logger? k = some l ∧ l.IsAt (lastLevel calls)
  bare : r.Bare

variable {calls : List Call}

theorem Fresh.uniform (H : r.Fresh) : r.Uniform [] where
  given _ := H.level
  level hne := absurd H.registered hne
  made k hk := by rw [H.registered] at hk; cases hk
  bare k _ l hl := by
    obtain ⟨front, back, hloggers, _⟩ := List.lookup_eq_some_iff.mp hl
    exact H.bare (k, l) (by simp [hloggers])

/-- The level that a new logger is given is the one set last. -/
theorem Uniform.lastLevel_eq (H : r.Uniform calls) {level : Level} (hlevel : r.level = .ok level) :
    lastLevel calls = level := by
  by_cases hempty : r.registered = []
  · exact Registry.lastLevel_eq ((H.given hempty).symm.trans hlevel)
  · cases (H.level hempty).symm.trans hlevel
    rfl

theorem Uniform.registered_eq_nil (H : r.Uniform calls) {e : LevelError}
    (hlevel : r.level = .error e) : r.registered = [] := by
  by_contra hne
  cases (H.level hne).symm.trans hlevel

theorem Uniform.make (H : r.Uniform calls) {name : String} {l : Logger}
    (hlevel : r.level = .ok (lastLevel calls)) (hl : l.IsAt (lastLevel calls)) :
    Uniform { r.put name l with registered := r.registered ++ [name] } calls where
  given hempty := absurd hempty (by simp)
  level _ := hlevel
  made k hk := by
    change ∃ l', (r.put name l).logger? k = some l' ∧ l'.IsAt (lastLevel calls)
    rw [logger?_put]
    by_cases hkn : k = name
    · rw [if_pos (beq_iff_eq.mpr hkn)]
      exact ⟨l, rfl, hl⟩
    · rw [if_neg (by simpa using hkn)]
      rcases List.mem_append.mp hk with hk | hk
      · exact H.made k hk
      · exact absurd (List.mem_singleton.mp hk) hkn
  bare k hk l' hl' := by
    change (r.put name l).logger? k = some l' at hl'
    simp only [List.mem_append, List.mem_singleton, not_or] at hk
    rw [logger?_put, if_neg (by simpa using hk.2)] at hl'
    exact H.bare k hk.1 l' hl'

theorem Uniform.update (H : r.Uniform calls) {f : Logger → Logger} {level : Level}
    (hcall : call.gives? = some (.ok level)) (hf : ∀ l old, l.IsAt old → (f l).IsAt level) :
    Uniform { r.update f with level := .ok level } (calls ++ [call]) := by
  have hlast : lastLevel (calls ++ [call]) = level := by
    rw [lastLevel_concat, Call.sets?, hcall]
    rfl
  have hlogger (k : String) : logger? { r.update f with level := .ok level } k =
      (r.logger? k).map fun l => if r.registered.contains k then f l else l :=
    logger?_update r k f
  refine ⟨fun _ => ?_, fun _ => by rw [hlast], fun k hk => ?_, fun k hk l hl => ?_⟩
  · rw [lastGiven_concat, hcall]
    rfl
  · obtain ⟨l, hl, hat⟩ := H.made k hk
    have hmade : r.registered.contains k = true := List.contains_iff_mem.mpr hk
    rw [hlogger, hl, Option.map_some, if_pos hmade, hlast]
    exact ⟨f l, rfl, hf l _ hat⟩
  · have hmade : ¬r.registered.contains k = true := fun h => hk (List.contains_iff_mem.mp h)
    rw [hlogger] at hl
    obtain ⟨found, hfound, rfl⟩ := Option.map_eq_some_iff.mp hl
    rw [if_neg hmade]
    exact H.bare k hk found hfound

/-- Calls that give no level change nothing about levels. -/
theorem Uniform.concat (H : r.Uniform calls) (hcall : call.gives? = none) :
    r.Uniform (calls ++ [call]) where
  given hempty := by rw [lastGiven_concat, hcall]; exact H.given hempty
  level hne := by rw [lastLevel_concat, Call.sets?, hcall]; exact H.level hne
  made := by rw [lastLevel_concat, Call.sets?, hcall]; exact H.made
  bare := H.bare

theorem Uniform.step (H : r.Uniform calls) {result : Change.Result} (hstep : Step r call result) :
    result.registry.Uniform (calls ++ [call]) := by
  cases hstep with
  | finds => exact H.concat rfl
  | @makes name level l _ hlevel hl =>
    cases H.lastLevel_eq hlevel
    exact (H.make hlevel hl).concat rfl
  | @makesNone name e l _ hlevel hl =>
    have hempty := H.registered_eq_nil hlevel
    refine Uniform.concat ⟨H.given, H.level, fun k hk => ?_, fun k hk l' hl' => ?_⟩ rfl
    · exact absurd (hempty ▸ hk) List.not_mem_nil
    · change (r.put _ l).logger? k = some l' at hl'
      rw [logger?_put] at hl'
      split at hl'
      · cases hl'
        exact hl
      · exact H.bare k hk l' hl'
  | keeps hcall hempty =>
    refine ⟨fun _ => ?_, fun hne => absurd hempty hne, fun k hk => ?_, H.bare⟩
    · rw [lastGiven_concat, hcall]
      rfl
    · exact absurd (hempty ▸ hk) List.not_mem_nil
  | sets hcall _ hf => exact H.update hcall hf
  | refuses hcall hne =>
    have hlast : lastLevel (calls ++ [call]) = lastLevel calls := by
      rw [lastLevel_concat, Call.sets?, hcall]
      rfl
    exact ⟨fun hempty => absurd hempty hne, hlast ▸ H.level, hlast ▸ H.made, H.bare⟩
  | misformatted hcall => exact H.concat (gives?_of_misformatted hcall)

/-! ## After any calls -/

variable {later : List Call}

theorem afterAll_concat (r : Registry) (calls : List Call) (call : Call) :
    r.afterAll (calls ++ [call]) = (r.afterAll calls).after call := by
  rw [afterAll, List.foldl_append]
  rfl

/-- Loggers are asked for under a name, and one is handed out. -/
def Gets (r : Registry) (calls : List Call) (name : Option String) : Prop :=
  ∃ before, before ++ [.get name] <+: calls ∧
    ∃ s, (Call.get name).run (r.afterAll before) = .ok () s

theorem gets_concat {name : Option String} : r.Gets (calls ++ [call]) name ↔
    r.Gets calls name ∨ call = .get name ∧ ∃ s, call.run (r.afterAll calls) = .ok () s := by
  constructor
  · rintro ⟨before, hbefore, hs⟩
    rcases List.prefix_concat_iff.mp hbefore with heq | hbefore
    · obtain ⟨rfl, hcall⟩ := List.append_inj' heq rfl
      cases hcall
      exact .inr ⟨rfl, hs⟩
    · exact .inl ⟨before, hbefore, hs⟩
  · rintro (⟨before, hbefore, hs⟩ | ⟨rfl, hs⟩)
    · exact ⟨before, hbefore.trans (List.prefix_append _ _), hs⟩
    · exact ⟨calls, List.prefix_rfl, hs⟩

/-- What calls lead to. -/
structure Leads (r : Registry) (calls : List Call) (s : Registry) : Prop where
  fullName : ∀ name, s.fullName name = r.fullName name
  names : r.names <+: s.names
  registered : ∀ k, k ∈ s.registered ↔
    k ∈ r.registered ∨ ∃ name, r.Gets calls name ∧ r.fullName name = k

theorem Uniform.leads (H : r.Uniform calls) (later : List Call) :
    (r.afterAll later).Uniform (calls ++ later) ∧ r.Leads later (r.afterAll later) := by
  induction later using List.reverseRecOn with
  | nil =>
    refine ⟨by rwa [List.append_nil], fun _ => rfl, List.prefix_rfl, fun k => ?_⟩
    refine ⟨.inl, fun h => h.elim id ?_⟩
    rintro ⟨name, ⟨before, hbefore, _⟩, _⟩
    simp at hbefore
  | append_singleton later call ih =>
    obtain ⟨huniform, hfull, hnames, hregistered⟩ := ih
    have hstep := huniform.bare.step call
    rw [afterAll_concat, ← List.append_assoc]
    refine ⟨huniform.step hstep, fun name => (hstep.fullName name).trans (hfull name),
      hnames.trans hstep.names, fun k => hstep.mem_registered.trans ?_⟩
    simp only [hregistered, gets_concat, or_and_right, exists_or, or_assoc]
    refine or_congr_right (or_congr_right (exists_congr fun name => ?_))
    rw [hfull, and_right_comm, and_assoc]

/-- The place of the logger that is handed out does not change any more. -/
theorem Uniform.place?_of_handedOut? (H : r.Uniform calls) {name : Option String} {i : Nat}
    (hi : r.handedOut? name = some i) (later : List Call) :
    ((r.after (.get name)).afterAll later).place? (r.fullName name) = some i := by
  have hafter : (r.after (.get name)).place? (r.fullName name) = some i := by
    rw [handedOut?] at hi
    rw [after, Change.after]
    change (Change.Result.registry ((Call.get name).run r)).place? _ = _
    generalize (Call.get name).run r = result at hi ⊢
    cases result with
    | ok => exact hi
    | error => cases hi
  have hstep := H.step (H.bare.step (.get name))
  exact place?_mono (hstep.leads later).2.names hafter

/-- What can be relied on after any calls. -/
structure Agreement (r : Registry) (calls : List Call) (s : Registry) : Prop where
  /-- Those are registered that were asked for and handed out. -/
  registered : ∀ k, k ∈ s.registered ↔ ∃ name, r.Gets calls name ∧ r.fullName name = k
  level : ∀ k ∈ s.registered, ∃ l, s.logger? k = some l ∧ l.IsAt (lastLevel calls)
  /-- Names get the same logger, at whatever time, if their full names are the same. -/
  same : ∀ {a b later i j}, s.handedOut? a = some i →
    ((s.after (.get a)).afterAll later).handedOut? b = some j →
      (i = j ↔ r.fullName a = r.fullName b)
  /-- A text that is no template changes nothing. -/
  misformatted : ∀ {call : Call}, call.misformatted = true → call.run s = .error .template s
  sets : ∀ {call : Call} {level}, call.gives? = some (.ok level) → ∃ t, call.run s = .ok () t
  /-- What is no level changes nothing once there are loggers. -/
  refuses : ∀ {call : Call} {e}, call.gives? = some (.error e) → s.registered ≠ [] →
    call.run s = .error (.level e) s
  /-- Before there are loggers it is kept, and then none is handed out. -/
  keeps : ∀ {call : Call} {e}, call.gives? = some (.error e) → s.registered = [] →
    call.run s = .ok () { s with level := .error e }
  gets : ∀ name, (∃ i, s.handedOut? name = some i) ↔
    s.registered ≠ [] ∨ ∃ level, lastGiven calls = .ok level

theorem Uniform.handedOut?_isSome (H : r.Uniform calls) (name : Option String) :
    (∃ i, r.handedOut? name = some i) ↔
      r.registered ≠ [] ∨ ∃ level, lastGiven calls = .ok level := by
  have hstep := H.bare.step (.get name)
  have hplace {s : Registry} {l : Logger} (hl : s.logger? (r.fullName name) = some l) :
      ∃ i, s.place? (r.fullName name) = some i :=
    Option.isSome_iff_exists.mp (isSome_place?_iff.mpr (mem_names_of_logger? hl))
  rw [handedOut?]
  generalize (Call.get name).run r = result at hstep ⊢
  cases hstep with
  | finds hname =>
    obtain ⟨l, hl, _⟩ := H.made _ hname
    exact iff_of_true (hplace hl) (.inl (List.ne_nil_of_mem hname))
  | @makes _ level l _ hlevel _ =>
    refine iff_of_true (hplace (l := l) ?_) ?_
    · change (r.put _ l).logger? _ = _
      rw [logger?_put, if_pos (beq_self_eq_true _)]
    · by_cases hempty : r.registered = []
      · exact .inr ⟨level, (H.given hempty).symm.trans hlevel⟩
      · exact .inl hempty
  | makesNone _ hlevel =>
    have hempty := H.registered_eq_nil hlevel
    refine iff_of_false (fun ⟨_, hi⟩ => nomatch hi) ?_
    rintro (hne | ⟨_, hgiven⟩)
    · exact hne hempty
    · cases hgiven.symm.trans ((H.given hempty).symm.trans hlevel)
  | keeps hcall | sets hcall | refuses hcall | misformatted hcall => cases hcall

theorem Fresh.loggers_agree (H : r.Fresh) (calls : List Call) :
    r.Agreement calls (r.afterAll calls) := by
  obtain ⟨huniform, hleads⟩ := H.uniform.leads calls
  rw [List.nil_append] at huniform
  refine ⟨fun k => ?_, huniform.made, ?_, run_misformatted, ?_, ?_, ?_,
    huniform.handedOut?_isSome⟩
  · rw [hleads.registered, H.registered]
    simp
  · intro a b later i j hi hj
    obtain ⟨hlater, hleads'⟩ := (huniform.step (huniform.bare.step (.get a))).leads later
    have ha := huniform.place?_of_handedOut? hi (later ++ [.get b])
    have hb := hlater.place?_of_handedOut? hj []
    have hget := huniform.bare.step (.get a)
    rw [afterAll_concat] at ha
    rw [hleads'.fullName, hget.fullName] at hb
    rw [← hleads.fullName, ← hleads.fullName]
    constructor
    · rintro rfl
      exact eq_of_place?_eq ha hb
    · intro hfull
      rw [hfull] at ha
      exact Option.some.inj (ha.symm.trans hb)
  · intro call level hcall
    obtain ⟨f, _, hrun⟩ := exists_updating hcall
    rw [hrun]
    by_cases hempty : (r.afterAll calls).registered = []
    · exact ⟨_, run_updating_empty hempty⟩
    · exact ⟨_, run_updating hempty⟩
  · intro call e hcall hne
    obtain ⟨f, _, hrun⟩ := exists_updating hcall
    rw [hrun, run_updating hne]
  · intro call e hcall hempty
    obtain ⟨f, _, hrun⟩ := exists_updating hcall
    rw [hrun, run_updating_empty hempty]

/-- The logger of a name that is asked for after two calls that failed, and asked for again. -/
theorem loggers_agree_again :
    let r : Registry := { package := "symopt", loggers := [("symopt.a", { level := .critical })] }
    let calls : List Call := [.get (some "a"), .setLevel (.name "deBug"),
      .configure (.number .error) (some "no field") none, .setLevel (.name "_styles"),
      .get (some "symopt.b")]
    let s := r.afterAll calls
    (∃ l, s.logger? "symopt.b" = some l ∧ l.IsAt .debug) ∧
      ∃ i, s.handedOut? (some "b") = some i ∧
        ((s.after (.get (some "b"))).afterAll [.setLevel (.name "no name")]).handedOut?
          (some "symopt.b") = some i := by
  intro r calls s
  have hfresh : r.Fresh := ⟨rfl, rfl, by decide⟩
  have H : r.Agreement calls s := hfresh.loggers_agree calls
  have hregistered : "symopt.b" ∈ s.registered := by decide +kernel
  have hlevel : lastLevel calls = .debug := by decide +kernel
  have hagain : ((s.after (.get (some "b"))).afterAll [.setLevel (.name "no name")]).handedOut?
      (some "symopt.b") = some 1 := by
    decide +kernel
  obtain ⟨i, hi⟩ := (H.gets (some "b")).mpr (.inl (List.ne_nil_of_mem hregistered))
  have hfull : r.fullName (some "b") = r.fullName (some "symopt.b") := by decide +kernel
  have hsame : i = 1 := (H.same hi hagain).mpr hfull
  obtain ⟨l, hl, hat⟩ := H.level _ hregistered
  refine ⟨⟨l, hl, ?_⟩, i, hi, ?_⟩
  · rw [← hlevel]
    exact hat
  · rw [hsame]
    exact hagain

/-- A name that is no level's is refused where it is the name of something else. -/
theorem misnomer_refused :
    let r : Registry := { package := "symopt" }
    let calls : List Call := [.get (some "a"), .setLevel (.number .debug)]
    let call : Call := .setLevel (.name "basic_format")
    let s := r.afterAll calls
    Level.names.lookup (Level.capitalized "basic_format") = none ∧
      call.run s = .error (.level .text) s ∧
      ∃ l, (r.afterAll (calls ++ [call])).logger? "symopt.a" = some l ∧ l.IsAt .debug ∧
        ¬l.IsAt .warning := by
  intro r calls call s
  have hgives : call.gives? = some (.error .text) := by decide +kernel
  have hregistered : "symopt.a" ∈ s.registered := by decide +kernel
  obtain ⟨f, _, hrun⟩ := exists_updating hgives
  refine ⟨by decide +kernel, by rw [hrun, run_updating (List.ne_nil_of_mem hregistered)],
    newLogger .debug, by decide +kernel, isAt_newLogger .debug, ?_⟩
  exact fun H => absurd H.own (by decide)

end Registry

end Downhill
