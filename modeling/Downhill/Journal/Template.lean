import Downhill.Journal.Character
import Downhill.Journal.Level

/-!
# Line templates

A template says how a record becomes a line: text with fields in it such as `%(message)-9s`. A field
gives a name, flags, a least and a greatest width, each by a star or by digits, and a conversion.
Only a text with a field in it is a template. What else is in the text shows when a line is made: a
percent sign that is doubled stands for itself, any other has to begin a field of the record, with
widths in ASCII digits, that is written as it is. Where this is not so, no line is made.
-/

namespace Downhill

/-! ## How fields are spelled -/

namespace FieldPattern

def isFlag (c : Char) : Bool := "#0+ -".toList.contains c

/-- Letters count in either case, and so do those that have an ASCII letter as their other case. -/
def isConversion (c : Char) : Bool := "diouxefgcrsaDIOUXEFGCRSAİıſ%".toList.contains c

/-- What follows a width. -/
def afterWidth? : List Char → Option (List Char)
  | '*' :: cs => some cs
  | c :: cs =>
    if Character.isDigit c then some (cs.dropWhile Character.isDigit) else none
  | [] => none

def skipWidth (cs : List Char) : List Char := (afterWidth? cs).getD cs

/-- A greatest width has a point before it. -/
def skipLimit : List Char → List Char
  | '.' :: cs => (afterWidth? cs).getD ('.' :: cs)
  | cs => cs

/-- Whether the rest of a field follows a percent sign. -/
def followsPercent : List Char → Bool
  | '(' :: cs =>
    match cs.takeWhile Character.isWord, cs.dropWhile Character.isWord with
    | _ :: _, ')' :: cs =>
      (skipLimit (skipWidth (cs.dropWhile isFlag))).head?.any isConversion
    | _, _ => false
  | _ => false

def hasField : List Char → Bool
  | [] => false
  | c :: cs => (c == '%' && followsPercent cs) || hasField cs

end FieldPattern

/-! ## Pieces -/

inductive Field where
  | levelName
  | name
  | message
  deriving DecidableEq, Repr

def Field.ofName? : String → Option Field
  | "levelname" => some levelName
  | "name" => some name
  | "message" => some message
  | _ => none

/-- How the value of a field is fitted into a line. -/
structure Fitting where
  left : Bool := false
  width : Nat := 0
  limit : Option Nat := none
  deriving DecidableEq, Repr

def Fitting.apply (f : Fitting) (s : String) : String :=
  let s := (f.limit.map fun n => String.ofList (s.toList.take n)).getD s
  let padding := "".pushn ' ' (f.width - s.length)
  if f.left then s ++ padding else padding ++ s

inductive Piece where
  | literal (c : Char)
  | field (f : Field) (fitting : Fitting)
  deriving DecidableEq, Repr

/-- The pieces of a line, if lines can be made. -/
structure Template where
  pieces? : Option (List Piece)
  deriving DecidableEq, Repr

namespace Template

def number (digits : List Char) : Nat :=
  digits.foldl (fun n c => 10 * n + (c.toNat - '0'.toNat)) 0

/-- A greatest width, and what follows it. -/
def limitOf : List Char → Option Nat × List Char
  | '.' :: cs => (some (number (cs.takeWhile Char.isDigit)), cs.dropWhile Char.isDigit)
  | cs => (none, cs)

/-- The field that is filled in after a percent sign, and what follows it. -/
def field? : List Char → Option (Piece × List Char)
  | '(' :: cs => do
    let field ← Field.ofName? (String.ofList (cs.takeWhile (· != ')')))
    let cs := (cs.dropWhile (· != ')')).drop 1
    let left := (cs.takeWhile FieldPattern.isFlag).contains '-'
    let cs := cs.dropWhile FieldPattern.isFlag
    let width := number (cs.takeWhile Char.isDigit)
    let (limit, cs) := limitOf (cs.dropWhile Char.isDigit)
    match cs with
    | 's' :: cs => return (.field field { left, width, limit }, cs)
    | _ => none
  | _ => none

/-- The pieces of a text, with as much fuel as there are characters. -/
def piecesOf? : (fuel : Nat) → List Char → Option (List Piece)
  | 0, _ | _, [] => some []
  | fuel + 1, '%' :: '%' :: cs => return .literal '%' :: (← piecesOf? fuel cs)
  | fuel + 1, '%' :: cs => do
    let (piece, cs) ← field? cs
    return piece :: (← piecesOf? fuel cs)
  | fuel + 1, c :: cs => return .literal c :: (← piecesOf? fuel cs)

def parse? (s : String) : Option Template :=
  if FieldPattern.hasField s.toList then some ⟨piecesOf? s.length s.toList⟩ else none

/-- The template used where none is asked for: level, name and message. -/
def standard : Template :=
  ⟨some [.literal '[', .field .levelName {}, .literal ']', .literal ' ', .field .name {},
    .literal ':', .literal ' ', .field .message {}]⟩

example : parse? "[%(levelname)s] %(name)s: %(message)s" = some standard := by decide +kernel

/-- The line of a record, without its end. -/
def render? (t : Template) (level : Level) (name message : String) : Option String :=
  t.pieces?.map fun pieces => String.join (pieces.map fun
    | .literal c => c.toString
    | .field f fitting =>
      fitting.apply
        (match f with
          | .levelName => level.text
          | .name => name
          | .message => message))

end Template

end Downhill
