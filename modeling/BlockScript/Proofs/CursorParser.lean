import BlockScript.Parser
import BlockScript.Proofs.Grammar

/-! The parser once more, as a cursor that moves over a list of tokens by index. Here it can go
wrong where the parser on lists cannot: it may ask for a token outside the list, or for the one
before the first, and nothing says that it ever ends. So calls may be nested only to a given depth;
a cursor that leaves the list or needs more depth has no result. The cursor keeps a history of what
it looked at and of the declarations it began and ended. -/

namespace BlockScript.Parser

open Grammar (operators)

inductive Access
  | current (position : Nat)
  | previous (position : Nat)
  deriving DecidableEq

/-- A declaration is noted with the positions at which it began and ended. -/
structure Cursor where
  position : Nat := 0
  diagnostics : List Diagnostic := []
  accesses : List Access := []
  declarations : List (Nat × Nat) := []

structure Refusal where
  token : Token
  cause : Cause
  deriving DecidableEq

def Refusal.diagnostic (r : Refusal) : Diagnostic :=
  ⟨.parse, r.token.line,
    if r.token.kind = .endOfFile then Bytes.ofString " at end"
    else Diagnostic.atLexeme r.token.lexeme,
    Bytes.ofString r.cause.message⟩

abbrev Walk := StateT Cursor Option

namespace Cursor

abbrev andThen {α β : Type} (first : Walk (Except Refusal α))
    (next : α → Walk (Except Refusal β)) : Walk (Except Refusal β) := do
  match ← first with
  | .error refusal => return .error refusal
  | .ok a => next a

def position? : Walk Nat := fun c => some (c.position, c)

def report (r : Refusal) : Walk Unit :=
  modify fun c => { c with diagnostics := c.diagnostics ++ [r.diagnostic] }

def note (start : Nat) : Walk Unit :=
  modify fun c => { c with declarations := (start, c.position) :: c.declarations }

section Productions

variable (tokens : List Token)

def current : Walk Token := fun c =>
  (tokens[c.position]?).map fun t =>
    (t, { c with accesses := .current c.position :: c.accesses })

def previous : Walk Token := fun c =>
  match c.position with
  | 0 => none
  | before + 1 =>
    (tokens[before]?).map fun t =>
      (t, { c with accesses := .previous c.position :: c.accesses })

def atEnd : Walk Bool := do
  let t ← current tokens
  return t.kind = .endOfFile

def check (kind : Token.Kind) : Walk Bool := do
  if ← atEnd tokens then return false
  else
    let t ← current tokens
    return t.kind = kind

/-- Moves on, but not past an end marker, and gives the token before the cursor. -/
def advance : Walk Token := do
  if ← atEnd tokens then previous tokens
  else
    modify fun c => { c with position := c.position + 1 }
    previous tokens

def accept : List Token.Kind → Walk Bool
  | [] => return false
  | kind :: kinds => do
    if ← check tokens kind then
      let _ ← advance tokens
      return true
    else accept kinds

def consume (kind : Token.Kind) (cause : Cause) : Walk (Except Refusal Token) := do
  if ← check tokens kind then
    let t ← advance tokens
    return .ok t
  else
    let t ← current tokens
    return .error ⟨t, cause⟩

def skip : (depth : Nat) → Walk Unit
  | 0 => failure
  | depth + 1 => do
    if ← atEnd tokens then return ()
    else
      let last ← previous tokens
      if last.kind = .semicolon then return ()
      else
        let t ← current tokens
        if t.kind.startsStatement then return ()
        else
          let _ ← advance tokens
          skip depth

def resynchronize (depth : Nat) : Walk Unit := do
  let _ ← advance tokens
  skip tokens depth

mutual

def readExpression : (depth : Nat) → Walk (Except Refusal Expr)
  | 0 => failure
  | depth + 1 =>
    andThen (readChain depth loosest) fun left => do
      if ← accept tokens [.equal] then
        let equals ← previous tokens
        andThen (readExpression depth) fun value =>
          match left with
          | .name target => return .ok (.assign target value)
          | _ => do
            report ⟨equals, .assignmentTarget⟩
            return .ok left
      else return .ok left

def readChain : (depth level : Nat) → Walk (Except Refusal Expr)
  | 0, _ => failure
  | depth + 1, 0 => readUnary depth
  | depth + 1, below + 1 => andThen (readChain depth below) (extendChain depth below)

def extendChain : (depth below : Nat) → (left : Expr) → Walk (Except Refusal Expr)
  | 0, _, _ => failure
  | depth + 1, below, left => do
    if ← accept tokens (operators (below + 1)) then
      let operator ← previous tokens
      andThen (readChain depth below) fun right =>
        extendChain depth below (join (below + 1) left operator right)
    else return .ok left

def readUnary : (depth : Nat) → Walk (Except Refusal Expr)
  | 0 => failure
  | depth + 1 => do
    if ← accept tokens [.bang, .minus] then
      let operator ← previous tokens
      andThen (readUnary depth) fun operand => return .ok (.unary operator operand)
    else readPrimary depth

def readPrimary : (depth : Nat) → Walk (Except Refusal Expr)
  | 0 => failure
  | depth + 1 => do
    if ← accept tokens [.falseWord] then return .ok (.literal (.bool false))
    else if ← accept tokens [.trueWord] then return .ok (.literal (.bool true))
    else if ← accept tokens [.nullWord] then return .ok (.literal .null)
    else if ← accept tokens [.number, .string] then
      let t ← previous tokens
      return .ok (.literal t.literal)
    else if ← accept tokens [.identifier] then
      let t ← previous tokens
      return .ok (.name t)
    else if ← accept tokens [.leftParen] then
      andThen (readExpression depth) fun inner =>
        andThen (consume tokens .rightParen .parenAfterExpression) fun _ =>
          return .ok (.grouping inner)
    else
      let t ← current tokens
      return .error ⟨t, .expression⟩

end

def readTerminated (depth : Nat) (build : Expr → Stmt) (cause : Cause) :
    Walk (Except Refusal Stmt) :=
  andThen (readExpression tokens depth) fun value =>
    andThen (consume tokens .semicolon cause) fun _ => return .ok (build value)

def readVariable (depth : Nat) : Walk (Except Refusal Stmt) :=
  andThen (consume tokens .identifier .variableName) fun name => do
    if ← accept tokens [.equal] then
      andThen (readExpression tokens depth) fun initial =>
        andThen (consume tokens .semicolon .semicolonAfterVariable) fun _ =>
          return .ok (.declare name initial)
    else
      andThen (consume tokens .semicolon .semicolonAfterVariable) fun _ =>
        return .ok (.declare name .absent)

def conclude (depth start : Nat) (result : Except Refusal Stmt) : Walk (Option Stmt) :=
  match result with
  | .ok statement => do
    note start
    return some statement
  | .error refusal => do
    report refusal
    resynchronize tokens depth
    note start
    return none

mutual

def readStatement : (depth : Nat) → Walk (Except Refusal Stmt)
  | 0 => failure
  | depth + 1 => do
    if ← accept tokens [.ifWord] then
      andThen (consume tokens .leftParen .parenAfterIf) fun _ =>
        andThen (readExpression tokens depth) fun condition =>
          andThen (consume tokens .rightParen .parenAfterCondition) fun _ =>
            andThen (readStatement depth) fun onTrue => do
              if ← accept tokens [.elseWord] then
                andThen (readStatement depth) fun onFalse =>
                  return .ok (.ifElse condition onTrue onFalse)
              else return .ok (.ifElse condition onTrue .absent)
    else if ← accept tokens [.printWord] then
      readTerminated tokens depth .print .semicolonAfterValue
    else if ← accept tokens [.leftBrace] then
      let body ← readBody depth
      andThen (consume tokens .rightBrace .braceAfterBlock) fun _ => return .ok (.block body)
    else readTerminated tokens depth .expression .semicolonAfterExpression

def readDeclaration : (depth : Nat) → Walk (Option Stmt)
  | 0 => failure
  | depth + 1 => do
    let start ← position?
    if ← accept tokens [.varWord] then
      let result ← readVariable tokens depth
      conclude tokens depth start result
    else
      let result ← readStatement depth
      conclude tokens depth start result

def readBody : (depth : Nat) → Walk (List Stmt)
  | 0 => failure
  | depth + 1 => do
    if ← check tokens .rightBrace then return []
    else if ← atEnd tokens then return []
    else
      let first ← readDeclaration depth
      let rest ← readBody depth
      return first.toList ++ rest

end

def readProgram : (depth : Nat) → Walk (List Stmt)
  | 0 => failure
  | depth + 1 => do
    if ← atEnd tokens then return []
    else
      let first ← readDeclaration tokens depth
      let rest ← readProgram depth
      return first.toList ++ rest

end Productions

/-- The end marker for tokens that do not end with one. -/
def closing (tokens : List Token) : List Token :=
  match tokens.getLast? with
  | none => [⟨.endOfFile, [], 1, .null⟩]
  | some last => if last.kind = .endOfFile then [] else [⟨.endOfFile, [], last.line, .null⟩]

def marked (tokens : List Token) : List Token := tokens ++ closing tokens

def parse (depth : Nat) (tokens : List Token) : Option (Parsed × Cursor) := do
  let (statements, c) ← readProgram (marked tokens) depth {}
  return (⟨statements, c.diagnostics⟩, c)

end Cursor

end BlockScript.Parser
