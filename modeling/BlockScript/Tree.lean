import BlockScript.Token
import BlockScript.Text.Characters

/-! Programs as trees. A tree built by hand may lack a child where the grammar requires one; `absent`
stands in its place, and also where a variable has no initial value or a condition no second
branch. -/

namespace BlockScript

inductive Expr
  | absent
  | assign (target : Token) (value : Expr)
  | binary (left : Expr) (operator : Token) (right : Expr)
  | grouping (inner : Expr)
  | literal (value : Literal)
  | logical (left : Expr) (operator : Token) (right : Expr)
  | unary (operator : Token) (operand : Expr)
  | name (token : Token)
  deriving DecidableEq

instance : Inhabited Expr := ⟨.absent⟩

inductive Stmt
  | absent
  | block (body : List Stmt)
  | expression (e : Expr)
  | ifElse (condition : Expr) (onTrue onFalse : Stmt)
  | print (e : Expr)
  | declare (name : Token) (initial : Expr)

instance : Inhabited Stmt := ⟨.absent⟩

namespace Expr

def kind : Expr → String
  | absent => "nil"
  | assign .. => "Assign"
  | binary .. => "Binary"
  | grouping _ => "Grouping"
  | literal _ => "Literal"
  | logical .. => "Logical"
  | unary .. => "Unary"
  | name _ => "Variable"

def firstLine (a b : Int) : Int := if 0 < a then a else b

/-- The line of the first name or operator in source order, zero if there is none. -/
def line : Expr → Int
  | absent => 0
  | assign target _ => target.line
  | binary left operator _ => firstLine left.line operator.line
  | logical left operator _ => firstLine left.line operator.line
  | grouping inner => inner.line
  | unary operator _ => operator.line
  | name token => token.line
  | literal _ => 0

def isAbsent : Expr → Bool
  | absent => true
  | _ => false

@[simp] theorem isAbsent_iff {e : Expr} : e.isAbsent = true ↔ e = absent := by
  cases e <;> simp [isAbsent]

end Expr

namespace Stmt

def kind : Stmt → String
  | absent => "nil"
  | block _ => "Block"
  | expression _ => "Expression"
  | ifElse .. => "If"
  | print _ => "Print"
  | declare .. => "Var"

mutual

/-- The line of the first name or operator in source order, zero if there is none. Of a condition
only the tested expression counts. -/
def line : Stmt → Int
  | absent => 0
  | block body => firstLineOf body
  | expression e => e.line
  | ifElse condition _ _ => condition.line
  | print e => e.line
  | declare name _ => name.line

def firstLineOf : List Stmt → Int
  | [] => 0
  | s :: rest => if 0 < s.line then s.line else firstLineOf rest

end

def isAbsent : Stmt → Bool
  | absent => true
  | _ => false

@[simp] theorem isAbsent_iff {s : Stmt} : s.isAbsent = true ↔ s = absent := by
  cases s <;> simp [isAbsent]

end Stmt

/-! Trees as text: every inner node is a parenthesised list that starts with its operator. -/

def parenthesized (head : Bytes) (parts : List Bytes) : Bytes :=
  40 :: head ++ parts.flatMap (32 :: ·) ++ [41]

def absentText : Bytes := Bytes.ofString "<nil>"

def Literal.dump : Literal → Bytes
  | .null => Bytes.ofString "null"
  | .bool b => Bytes.ofString (if b then "true" else "false")
  | .number x => Decimal.Layout.program.text x
  | .string s => Text.quote s
  | .integer _ => Bytes.ofString "?"

def Expr.dump : Expr → Bytes
  | .absent => absentText
  | .assign target value => parenthesized (Bytes.ofString "= " ++ target.lexeme) [value.dump]
  | .binary left operator right => parenthesized operator.lexeme [left.dump, right.dump]
  | .logical left operator right => parenthesized operator.lexeme [left.dump, right.dump]
  | .grouping inner => parenthesized (Bytes.ofString "group") [inner.dump]
  | .unary operator operand => parenthesized operator.lexeme [operand.dump]
  | .name token => token.lexeme
  | .literal value => value.dump

mutual

def Stmt.dump : Stmt → Bytes
  | .absent => absentText
  | .block body => parenthesized (Bytes.ofString "block") (dumpEach body)
  | .expression e => parenthesized (Bytes.ofString ";") [e.dump]
  | .print e => parenthesized (Bytes.ofString "print") [e.dump]
  | .declare name .absent => parenthesized (Bytes.ofString "var " ++ name.lexeme) []
  | .declare name initial => parenthesized (Bytes.ofString "var " ++ name.lexeme) [initial.dump]
  | .ifElse condition onTrue .absent =>
    parenthesized (Bytes.ofString "if") [condition.dump, Stmt.dump onTrue]
  | .ifElse condition onTrue onFalse =>
    parenthesized (Bytes.ofString "if") [condition.dump, Stmt.dump onTrue, Stmt.dump onFalse]

def dumpEach : List Stmt → List Bytes
  | [] => []
  | s :: rest => Stmt.dump s :: dumpEach rest

end

def dumpProgram (program : List Stmt) : Bytes := Bytes.join [Bytes.lineFeed] (dumpEach program)

/-! Programs in canonical source form: one statement a line, two blanks for each level of nesting, and
parentheses only where grouping nodes or the binding strengths ask for them. -/

namespace Format

def strength : Token.Kind → Nat
  | .orWord => 1
  | .andWord => 2
  | .equalEqual | .bangEqual => 3
  | .greater | .greaterEqual | .less | .lessEqual => 4
  | .plus | .minus => 5
  | .star | .slash => 6
  | _ => 0

/-- The binding strength of an expression's outermost operator, if it has one that an enclosing
operator could take apart. -/
def looseness? : Expr → Option Nat
  | .assign .. => some 0
  | .binary _ operator _ | .logical _ operator _ => some (strength operator.kind)
  | _ => none

/-- Operands on the right need parentheses already at equal strength, because chains group to the
left. -/
def needsParens (child : Expr) (parent : Nat) (onRight : Bool) : Bool :=
  match looseness? child with
  | none => false
  | some own => own < parent || (own == parent && onRight)

def parenthesizedIf (wanted : Bool) (text : Bytes) : Bytes :=
  if wanted then 40 :: text ++ [41] else text

/-- Only a tree built by hand holds a number with a sign. -/
def isSignedNumber : Expr → Bool
  | .literal (.number x) => Decimal.isNegative x
  | _ => false

def infixed (left : Bytes) (operator : Bytes) (right : Bytes) : Bytes :=
  left ++ 32 :: operator ++ 32 :: right

def indent (depth : Nat) : Bytes := List.replicate (2 * depth) 32

def isBlock : Stmt → Bool
  | .block _ => true
  | _ => false

def isCondition : Stmt → Bool
  | .ifElse .. => true
  | _ => false

/-- Whether a statement ends in a condition without a second branch, which would take a following
`else` for its own. -/
def dangles : Stmt → Bool
  | .ifElse _ _ .absent => true
  | .ifElse _ _ onFalse => dangles onFalse
  | _ => false

def margin (depth : Nat) (s : Stmt) : Bytes := if s.isAbsent then [] else indent depth

end Format

open Format

def Literal.source : Literal → Bytes
  | .null | .integer _ => Bytes.ofString "null"
  | .bool b => Bytes.ofString (if b then "true" else "false")
  | .number x => Decimal.Layout.program.text x
  | .string s => 34 :: s ++ [34]

def Expr.source : Expr → Bytes
  | .absent => []
  | .literal value => value.source
  | .name token => token.lexeme
  | .grouping inner => parenthesizedIf true inner.source
  | .assign target value => infixed target.lexeme (Bytes.ofString "=") value.source
  | .binary left operator right =>
    let own := strength operator.kind
    infixed (parenthesizedIf (needsParens left own false) left.source) operator.lexeme
      (parenthesizedIf (needsParens right own true) right.source)
  | .logical left operator right =>
    let own := strength operator.kind
    infixed (parenthesizedIf (needsParens left own false) left.source) operator.lexeme
      (parenthesizedIf (needsParens right own true) right.source)
  | .unary operator operand =>
    operator.lexeme ++
      parenthesizedIf ((looseness? operand).isSome || isSignedNumber operand) operand.source

mutual

/-- A statement nested `depth` levels deep, without the blanks in front of its first line. -/
def Stmt.source (depth : Nat) : Stmt → Bytes
  | .absent => []
  | .expression e => e.source ++ [59]
  | .print e => Bytes.ofString "print " ++ e.source ++ [59]
  | .declare name .absent => Bytes.ofString "var " ++ name.lexeme ++ [59]
  | .declare name initial =>
    Bytes.ofString "var " ++ infixed name.lexeme (Bytes.ofString "=") initial.source ++ [59]
  | .block [] => [123, 125]
  | .block (s :: rest) =>
    [123, 10] ++ Bytes.join [10] (sourceLines (depth + 1) (s :: rest)) ++ 10 :: indent depth ++ [125]
  | .ifElse condition onTrue .absent =>
    Bytes.ofString "if (" ++ condition.source ++ [41] ++
      if isBlock onTrue then 32 :: Stmt.source depth onTrue
      else 10 :: margin (depth + 1) onTrue ++ Stmt.source (depth + 1) onTrue
  | .ifElse condition onTrue onFalse =>
    Bytes.ofString "if (" ++ condition.source ++ [41] ++
      (if dangles onTrue then
        [32, 123, 10] ++ indent (depth + 1) ++ Stmt.source (depth + 1) onTrue ++ 10 :: indent depth ++
          Bytes.ofString "\x7d else"
      else if isBlock onTrue then 32 :: Stmt.source depth onTrue ++ Bytes.ofString " else"
      else
        10 :: margin (depth + 1) onTrue ++ Stmt.source (depth + 1) onTrue ++ 10 :: indent depth ++
          Bytes.ofString "else") ++
      if isBlock onFalse || isCondition onFalse then 32 :: Stmt.source depth onFalse
      else 10 :: margin (depth + 1) onFalse ++ Stmt.source (depth + 1) onFalse

def sourceLines (depth : Nat) : List Stmt → List Bytes
  | [] => []
  | s :: rest => (margin depth s ++ Stmt.source depth s) :: sourceLines depth rest

end

/-- A whole program; its last line is ended too. -/
def formatProgram (program : List Stmt) : Bytes :=
  match program with
  | [] => []
  | s :: rest => Bytes.join [10] (sourceLines 0 (s :: rest)) ++ [10]

/-- Whether a source has a comment, which formatting would lose. Quote marks switch between strings
and what lies outside them. -/
def hasComment (inString : Bool) : Bytes → Bool
  | [] => false
  | b :: rest =>
    if b = Bytes.quoteMark then hasComment (!inString) rest
    else if !inString && b == 47 && rest.head? == some 47 then true
    else hasComment inString rest

end BlockScript
