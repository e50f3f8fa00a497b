/-!
# Levels of importance

A level is a number; the higher, the more important. Some have names, which are read in any case.
Two names belong to something else, a text and a table, and are no levels.
-/

namespace Downhill

abbrev Level := Int

/-- What goes by a name that is no level. -/
inductive LevelError where
  | text
  | table
  deriving DecidableEq, Repr

namespace Level

def notSet : Level := 0
def debug : Level := 10
def info : Level := 20
def warning : Level := 30
def error : Level := 40
def critical : Level := 50

/-- The names that are read as levels. -/
def names : List (String × Level) :=
  [("NOTSET", notSet), ("DEBUG", debug), ("INFO", info), ("WARNING", warning), ("WARN", warning),
    ("ERROR", error), ("CRITICAL", critical), ("FATAL", critical)]

def misnomers : List (String × LevelError) := [("BASIC_FORMAT", .text), ("_STYLES", .table)]

/-- The capitals of a letter, of those that have ASCII ones. -/
def capitals (c : Char) : List Char :=
  if c = 'ı' then ['I']
  else if c = 'ſ' then ['S']
  else if c = 'ß' then ['S', 'S']
  else if c = 'ﬀ' then ['F', 'F']
  else if c = 'ﬁ' then ['F', 'I']
  else if c = 'ﬂ' then ['F', 'L']
  else if c = 'ﬃ' then ['F', 'F', 'I']
  else if c = 'ﬄ' then ['F', 'F', 'L']
  else if c = 'ﬅ' ∨ c = 'ﬆ' then ['S', 'T']
  else [c.toUpper]

def capitalized (name : String) : String := String.ofList (name.toList.flatMap capitals)

/-- The level of a name; an unknown name stands for a warning. -/
def ofName (name : String) : Except LevelError Level :=
  let name := capitalized name
  match misnomers.lookup name with
  | some e => .error e
  | none => .ok ((names.lookup name).getD warning)

/-- How a level is written. -/
def text (l : Level) : String :=
  match names.find? (·.2 == l) with
  | some (name, _) => name
  | none => s!"Level {l}"

end Level

end Downhill
