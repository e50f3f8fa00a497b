import Downhill.Association
import Downhill.Journal.Template

/-!
# A registry of loggers

The loggers of one package, by dotted name. A logger is made when it is first asked for, with one
handler on the error stream, both at the level in force; later changes of level and of handlers
reach all loggers made so far. Handlers that somebody else attached are taken as they are, and such
a logger also passes records on to its ancestors.

A level that is none is refused by the loggers. Before there are any it is kept like a level, and
the first logger to be made refuses it.
-/

namespace Downhill

structure Handler where
  level : Level
  template : Template
  /-- The stream written to, if it is one that is known here. -/
  stream : Option String
  deriving DecidableEq, Repr

structure Logger where
  level : Level := .notSet
  handlers : List Handler := []
  propagates : Bool := true
  deriving DecidableEq, Repr

structure Registry where
  package : String
  loggers : List (String × Logger) := []
  /-- The names of the loggers made here. -/
  registered : List String := []
  /-- What was given as the level of loggers yet to be made. -/
  level : Except LevelError Level := .ok .warning

/-- Why loggers are left as they are. -/
inductive JournalError where
  | template
  | level (e : LevelError)
  deriving DecidableEq, Repr

/-- A change of a registry, which may fail on the way. What was done by then stays done. -/
abbrev Change := EStateM JournalError Registry Unit

/-- What came of a change, and the registry that it left. -/
abbrev Change.Result := EStateM.Result JournalError Registry Unit

def Change.Result.registry : Change.Result → Registry
  | .ok _ r | .error _ r => r

def Change.after (change : Change) (r : Registry) : Registry :=
  Change.Result.registry (change.run r)

namespace Registry

def errorStream : String := "stderr"

/-- Names outside the package are taken as names within it. -/
def fullName (r : Registry) : Option String → String
  | none => r.package
  | some name =>
    if name == r.package || (r.package ++ ".").isPrefixOf name then name
    else r.package ++ "." ++ name

def logger? (r : Registry) (name : String) : Option Logger := r.loggers.lookup name

/-- Where a logger stands, by which it is told from others. -/
def place? (r : Registry) (name : String) : Option Nat := r.loggers.findIdx? (·.1 == name)

def put (r : Registry) (name : String) (l : Logger) : Registry :=
  { r with loggers := assign name l r.loggers }

/-- A logger as it is made here. -/
def newLogger (level : Level) : Logger :=
  { level, propagates := false, handlers := [⟨level, .standard, some errorStream⟩] }

/-- Enters the logger of a full name, unless it is entered. It is there, without handlers, before it
is given a level. -/
def register (name : String) : Change := do
  let r ← get
  unless r.registered.contains name do
    let found := (r.logger? name).getD {}
    set (r.put name found)
    let logger ←
      if found.handlers.isEmpty then newLogger <$> ofExcept (r.level.mapError .level)
      else pure found
    modify fun r => { r.put name logger with registered := r.registered ++ [name] }

/-- A registry in which some loggers were made. -/
def ofNames (package : String) (names : List String) : Registry :=
  names.foldl (fun r name => (register name).after r) { package }

/-- Changes the loggers made so far. -/
def update (r : Registry) (f : Logger → Logger) : Registry :=
  { r with
    loggers := r.loggers.map fun (name, l) =>
      (name, if r.registered.contains name then f l else l) }

/-- Has all loggers follow a level, which is kept for those yet to be made. -/
def updating (level : Except LevelError Level) (f : Level → Logger → Logger) : Change := do
  unless (← get).registered.isEmpty do
    let level ← ofExcept (level.mapError .level)
    modify (·.update (f level))
  modify ({ · with level })

def settingLevel (level : Except LevelError Level) : Change :=
  updating level fun level l => { l with level, handlers := l.handlers.map ({ · with level }) }

/-- The template of a text; without one it is the standard one. -/
def templateOf : Option String → Except JournalError Template
  | none | some "" => .ok .standard
  | some s =>
    match Template.parse? s with
    | some t => .ok t
    | none => .error .template

/-- Gives all loggers one new handler. The template is looked at before the level. -/
def configuring (level : Except LevelError Level) (format stream : Option String) : Change := do
  let template ← ofExcept (templateOf format)
  updating level fun level l =>
    { l with level, handlers := [⟨level, template, some (stream.getD errorStream)⟩] }

/-- Attaches a handler of somebody else's, of which only the level is known. -/
def attachForeign (r : Registry) (name : String) : Registry :=
  let l := (r.logger? name).getD {}
  r.put name { l with handlers := l.handlers ++ [⟨.notSet, .standard, none⟩] }

/-- The names above a dotted name, the nearest first. -/
def ancestors (name : String) : List String :=
  let parts := name.splitOn "."
  ((List.range parts.length).drop 1).reverse.map fun n => ".".intercalate (parts.take n)

/-- A logger and those above it that exist. -/
def lineage (r : Registry) (name : String) : List Logger :=
  (name :: ancestors name).filterMap r.logger?

/-- The nearest level that is set, or else that of warnings. -/
def effectiveLevel (r : Registry) (name : String) : Level :=
  (((r.lineage name).map Logger.level).find? (· ≠ Level.notSet)).getD .warning

/-- The handlers that see a record, along a lineage. -/
def reached : List Logger → List Handler
  | [] => []
  | l :: rest => l.handlers ++ if l.propagates then reached rest else []

/-- What a record of a logger writes, and on which streams. A level of zero or below is never
enough. -/
def write (r : Registry) (name : String) (level : Level) (message : String) :
    List (String × String) :=
  if level ≤ Level.notSet ∨ level < r.effectiveLevel name then []
  else
    (reached (r.lineage name)).filterMap fun h => do
      guard (h.level ≤ level)
      let line ← h.template.render? level name message
      return (← h.stream, line ++ "\n")

end Registry

end Downhill
