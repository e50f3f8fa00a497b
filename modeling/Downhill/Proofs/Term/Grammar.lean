import Downhill.Graph.Term
import Downhill.Proofs.Decimal.Nearest

/-!
# Reading infix text

How the text of an expression is read by whoever knows the usual rules. Characters make up tokens,
as long ones as possible. Of the operators around an operand the one that binds more tightly gets
it; a power binds more tightly than a minus before its base, a minus more tightly than products and
quotients, and those more than sums and differences. Among operators that bind equally tightly the
first one gets it, except for powers.
-/

namespace Downhill

/-! ## Tokens -/

inductive Token where
  | number (l : List Char)
  | name (l : List Char)
  /-- An operator between operands, or a minus before one. -/
  | operator (op : BinaryOp)
  | opening
  | closing
  | openingBracket
  | closingBracket
  deriving DecidableEq, Repr

/-- How far a number has been read. -/
inductive Part where
  | whole | fraction | mark | sign | exponent
  deriving DecidableEq, Repr

namespace Part

def next? (part : Part) (c : Char) : Option Part :=
  match part with
  | whole => if c.isDigit then some whole else if c = '.' then some fraction
    else if c = 'e' then some mark else none
  | fraction => if c.isDigit then some fraction else if c = 'e' then some mark else none
  | mark => if c.isDigit then some exponent else if c = '+' ∨ c = '-' then some sign else none
  | sign | exponent => if c.isDigit then some exponent else none

/-- Whether a number may end here. -/
def ends : Part → Bool
  | whole | fraction | exponent => true
  | mark | sign => false

end Part

def isWordChar (c : Char) : Bool := c.isAlpha || c.isDigit || c == '_'

/-- What has been read of a token that may go on. -/
inductive Pending where
  | nothing
  | star
  | number (part : Part) (read : List Char)
  | name (read : List Char)
  deriving DecidableEq, Repr

namespace Pending

/-- The tokens there are if the token does not go on. -/
def done? : Pending → Option (List Token)
  | nothing => some []
  | star => some [.operator .mul]
  | number part read => if part.ends then some [.number read] else none
  | name read => some [.name read]

/-- The token goes on. -/
def next? : Pending → Char → Option (List Token × Pending)
  | nothing, _ => none
  | star, c => if c = '*' then some ([.operator .pow], nothing) else none
  | number part read, c => (part.next? c).map fun part => ([], number part (read ++ [c]))
  | name read, c => if isWordChar c then some ([], name (read ++ [c])) else none

/-- A new token begins, or a blank. -/
def mark? : Char → Option (List Token × Pending)
  | ' ' => some ([], nothing)
  | '(' => some ([.opening], nothing)
  | ')' => some ([.closing], nothing)
  | '[' => some ([.openingBracket], nothing)
  | ']' => some ([.closingBracket], nothing)
  | '+' => some ([.operator .add], nothing)
  | '-' => some ([.operator .sub], nothing)
  | '*' => some ([], star)
  | '/' => some ([.operator .div], nothing)
  | _ => none

def first? (c : Char) : Option (List Token × Pending) :=
  if c.isDigit then some ([], number .whole [c])
  else if isWordChar c then some ([], name [c])
  else mark? c

def step? (pending : Pending) (c : Char) : Option (List Token × Pending) :=
  (pending.next? c).or
    (pending.done?.bind fun done => (first? c).map fun r => (done ++ r.1, r.2))

/-- The tokens of a text, after what is pending. -/
def tokens? (pending : Pending) : List Char → Option (List Token)
  | [] => pending.done?
  | c :: l => (pending.step? c).bind fun r => (r.2.tokens? l).map (r.1 ++ ·)

end Pending

/-! ## Operators -/

namespace BinaryOp

/-- The more, the more tightly an operator binds. -/
def precedence : BinaryOp → Nat
  | add | sub => 1
  | mul | div => 2
  | pow => 4

/-- Whether the first of two operators that bind equally tightly is carried out first. -/
def leftToRight (op : BinaryOp) : Bool := op != pow

end BinaryOp

def minusPrecedence : Nat := 3

/-- What waits for an operand behind it. -/
inductive Waiting where
  | minus
  | operator (op : BinaryOp) (left : Term Numeral)
  | parenthesis
  | function (op : UnaryOp)
  deriving Repr

namespace Waiting

def isOperation : Waiting → Bool
  | minus | operator .. => true
  | parenthesis | function _ => false

/-- Whether an operation gets the operand that stands before the operator `op`. -/
def before (op : BinaryOp) : Waiting → Bool
  | minus => op.precedence < minusPrecedence
  | operator op' _ =>
    op.precedence < op'.precedence || (op.precedence == op'.precedence && op.leftToRight)
  | parenthesis | function _ => false

def apply (t : Term Numeral) : Waiting → Term Numeral
  | minus => .unary .neg t
  | operator op s => .binary op s t
  | parenthesis => t
  | function op => .unary op t

/-- The operand taken by all that get it, the last first. -/
def settle (gets : Waiting → Bool) : List Waiting → Term Numeral → List Waiting × Term Numeral
  | [], t => ([], t)
  | w :: ws, t => if gets w then settle gets ws (w.apply t) else (w :: ws, t)

end Waiting

/-! ## Expressions -/

/-- What may follow. -/
inductive Position where
  | operand
  | argument (op : UnaryOp)
  | bracket
  | index
  | closingBracket (i : Nat)
  | behind (t : Term Numeral)
  deriving Repr

structure Reader where
  waiting : List Waiting := []
  position : Position := .operand
  deriving Repr

/-- The functions, by their names. -/
def UnaryOp.ofName? (l : List Char) : Option UnaryOp :=
  all.find? fun op => op != .neg && op.name.toList == l

namespace Reader

def step? (r : Reader) (token : Token) : Option Reader :=
  match r.position, token with
  | .operand, .number l => some { r with position := .behind (.num (.decimal (readDecimal l))) }
  | .operand, .operator .sub => some { r with waiting := .minus :: r.waiting }
  | .operand, .opening => some { r with waiting := .parenthesis :: r.waiting }
  | .operand, .name l =>
    if l = ['x'] then some { r with position := .bracket }
    else if l = ['i', 'n', 'f'] then some { r with position := .behind (.num .infinity) }
    else (UnaryOp.ofName? l).map fun op => { r with position := .argument op }
  | .argument op, .opening => some ⟨.function op :: r.waiting, .operand⟩
  | .bracket, .openingBracket => some { r with position := .index }
  | .index, .number l =>
    if l.all Char.isDigit then
      some { r with position := .closingBracket (Nat.ofDigitChars 10 l 0) }
    else none
  | .closingBracket i, .closingBracket => some { r with position := .behind (.var i) }
  | .behind t, .operator op =>
    let (waiting, t) := Waiting.settle (Waiting.before op) r.waiting t
    some ⟨.operator op t :: waiting, .operand⟩
  | .behind t, .closing =>
    match Waiting.settle Waiting.isOperation r.waiting t with
    | (w :: waiting, t) => some ⟨waiting, .behind (w.apply t)⟩
    | ([], _) => none
  | _, _ => none

/-- The expression that has been read, if nothing is open. -/
def expression? (r : Reader) : Option (Term Numeral) :=
  match r.position with
  | .behind t =>
    match Waiting.settle Waiting.isOperation r.waiting t with
    | ([], t) => some t
    | (_ :: _, _) => none
  | _ => none

end Reader

/-- The expression that a text is read as. -/
def readText? (s : String) : Option (Term Numeral) :=
  (Pending.nothing.tokens? s.toList).bind fun tokens =>
    (tokens.foldlM Reader.step? {}).bind Reader.expression?

/-- The minus gets the power. -/
example : readText? "-x[0] ** 2" =
    some (.unary .neg (.binary .pow (.var 0) (.num (.decimal ⟨2, 0⟩)))) := by rfl

/-- Differences are taken from the left, powers from the right. -/
example : readText? "8 - 4 - 2 ** 3 ** 2" =
    some (.binary .sub (.binary .sub (.num (.decimal ⟨8, 0⟩)) (.num (.decimal ⟨4, 0⟩)))
      (.binary .pow (.num (.decimal ⟨2, 0⟩))
        (.binary .pow (.num (.decimal ⟨3, 0⟩)) (.num (.decimal ⟨2, 0⟩))))) := by rfl

end Downhill
