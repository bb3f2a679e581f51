import BlockScript.Diagnostic
import BlockScript.Tree
import BlockScript.Token

/-! What a parsing step hands back: a tree or a fault, the tokens not yet read, and what was reported
on the way without giving up. Steps only ever move forward, which their type records. -/

namespace BlockScript.Parser

inductive Cause
  | variableName
  | semicolonAfterVariable
  | parenAfterIf
  | parenAfterCondition
  | semicolonAfterValue
  | semicolonAfterExpression
  | braceAfterBlock
  | parenAfterExpression
  | expression
  | assignmentTarget
  deriving DecidableEq, Repr

def Cause.message : Cause → String
  | variableName => "Expect variable name."
  | semicolonAfterVariable => "Expect ';' after variable declaration."
  | parenAfterIf => "Expect '(' after 'if'."
  | parenAfterCondition => "Expect ')' after if condition."
  | semicolonAfterValue => "Expect ';' after value."
  | semicolonAfterExpression => "Expect ';' after expression."
  | braceAfterBlock => "Expect '\x7d' after block."
  | parenAfterExpression => "Expect ')' after expression."
  | expression => "Expect expression."
  | assignmentTarget => "Invalid assignment target."

/-- A fault at the token found, or at the end of the input if there was none. -/
structure Fault where
  found : Option Token
  cause : Cause
  deriving DecidableEq

def Fault.diagnostic (lastLine : Int) (f : Fault) : Diagnostic :=
  match f.found with
  | some t => ⟨.parse, t.line, Diagnostic.atLexeme t.lexeme, Bytes.ofString f.cause.message⟩
  | none => ⟨.parse, lastLine, Bytes.ofString " at end", Bytes.ofString f.cause.message⟩

structure Reply (α : Type) where
  outcome : Except Fault α
  rest : List Token
  reports : List Fault

/-- A reply that has read a part of `tokens`, possibly nothing. -/
abbrev Step (α : Type) (tokens : List Token) := { r : Reply α // r.rest.length ≤ tokens.length }

theorem length_le_cons (t : Token) (after : List Token) : after.length ≤ (t :: after).length :=
  Nat.le_succ _

def expect (kind : Token.Kind) (cause : Cause) (tokens : List Token) : Step Token tokens :=
  match tokens with
  | [] => ⟨⟨.error ⟨none, cause⟩, [], []⟩, Nat.le_refl _⟩
  | t :: rest =>
    if t.kind = kind then ⟨⟨.ok t, rest, []⟩, Nat.le_succ _⟩
    else ⟨⟨.error ⟨some t, cause⟩, t :: rest, []⟩, Nat.le_refl _⟩

/-- Goes on with the rest of a reply if it succeeded; the reports of both parts are kept. -/
def Step.andThen {α β : Type} {tokens : List Token} (first : Step α tokens)
    (next : (a : α) → (rest : List Token) → rest.length ≤ tokens.length → Step β rest) :
    Step β tokens :=
  match first.val.outcome with
  | .error f => ⟨⟨.error f, first.val.rest, first.val.reports⟩, first.property⟩
  | .ok a =>
    let second := next a first.val.rest first.property
    ⟨⟨second.val.outcome, second.val.rest, first.val.reports ++ second.val.reports⟩,
      Nat.le_trans second.property first.property⟩

def Step.done {α : Type} (a : α) (tokens : List Token) : Step α tokens :=
  ⟨⟨.ok a, tokens, []⟩, Nat.le_refl _⟩

def Step.fail {α : Type} (cause : Cause) (tokens : List Token) : Step α tokens :=
  ⟨⟨.error ⟨tokens.head?, cause⟩, tokens, []⟩, Nat.le_refl _⟩

def Step.after {α : Type} {rest tokens : List Token} (s : Step α rest)
    (h : rest.length ≤ tokens.length) : Step α tokens :=
  ⟨s.val, Nat.le_trans s.property h⟩

def Step.report {α : Type} {tokens : List Token} (s : Step α tokens) (f : Fault) : Step α tokens :=
  ⟨{ s.val with reports := s.val.reports ++ [f] }, s.property⟩

/-! Expressions by levels of binding strength. Level zero holds the unary operators and what binds
tighter; each level above is a left-associative chain of the one below. Assignment is loosest and
groups to the right: its left side is read as any expression and must turn out to be a name. -/

def joins (level : Nat) (kind : Token.Kind) : Bool :=
  match level, kind with
  | 1, .slash | 1, .star => true
  | 2, .minus | 2, .plus => true
  | 3, .greater | 3, .greaterEqual | 3, .less | 3, .lessEqual => true
  | 4, .bangEqual | 4, .equalEqual => true
  | 5, .andWord => true
  | 6, .orWord => true
  | _, _ => false

def loosest : Nat := 6

/-- The two loosest levels do not evaluate both operands, so their nodes are of another sort. -/
def join (level : Nat) (left : Expr) (operator : Token) (right : Expr) : Expr :=
  if 5 ≤ level then .logical left operator right else .binary left operator right

-- Between two tokens a rule is within fewer than sixteen others, so the measures count a token as
-- sixteen and add the height of the rule.
mutual

def expression (tokens : List Token) : Step Expr tokens :=
  (climb loosest tokens).andThen fun left rest _ =>
    match rest with
    | [] => .done left []
    | t :: after =>
      if t.kind = .equal then
        let right := (expression after).after (length_le_cons t after)
        match left with
        | .name target => right.andThen fun value rest _ => .done (.assign target value) rest
        | _ => right.andThen fun _ rest _ => (Step.done left rest).report ⟨some t, .assignmentTarget⟩
      else .done left (t :: after)
termination_by 16 * tokens.length + loosest + 4
decreasing_by
  · omega
  · simp only [List.length_cons] at *
    omega

def climb (level : Nat) (tokens : List Token) : Step Expr tokens :=
  match level with
  | 0 => unary tokens
  | below + 1 => (climb below tokens).andThen fun left rest _ => climbOn below left rest
termination_by 16 * tokens.length + level + 3

def climbOn (below : Nat) (left : Expr) (tokens : List Token) : Step Expr tokens :=
  match tokens with
  | [] => .done left []
  | t :: after =>
    if joins (below + 1) t.kind then
      ((climb below after).andThen fun right rest _ =>
        climbOn below (join (below + 1) left t right) rest).after (length_le_cons t after)
    else .done left (t :: after)
termination_by 16 * tokens.length + below + 3

def unary (tokens : List Token) : Step Expr tokens :=
  match tokens with
  | [] => .fail .expression []
  | t :: after =>
    if t.kind = .bang ∨ t.kind = .minus then
      ((unary after).andThen fun operand rest _ => .done (.unary t operand) rest).after
        (length_le_cons t after)
    else primary t after
termination_by 16 * tokens.length + 2

def primary (t : Token) (after : List Token) : Step Expr (t :: after) :=
  match t.kind with
  | .falseWord => (Step.done (.literal (.bool false)) after).after (length_le_cons t after)
  | .trueWord => (Step.done (.literal (.bool true)) after).after (length_le_cons t after)
  | .nullWord => (Step.done (.literal .null) after).after (length_le_cons t after)
  | .number | .string => (Step.done (.literal t.literal) after).after (length_le_cons t after)
  | .identifier => (Step.done (.name t) after).after (length_le_cons t after)
  | .leftParen =>
    ((expression after).andThen fun inner rest _ =>
      (expect .rightParen .parenAfterExpression rest).andThen fun _ rest _ =>
        .done (.grouping inner) rest).after (length_le_cons t after)
  | _ => .fail .expression (t :: after)
termination_by 16 * after.length + 11
decreasing_by
  rw [loosest]
  omega

end

/-! Statements, and recovery from broken ones. A declaration that fails is reported and dropped, and
reading resumes behind the next semicolon or before the next word that starts a statement. Every
declaration reads at least one token, so reading always ends. -/

/-- Skips from behind `last` to where a statement may begin. -/
def resume (last : Token) : List Token → List Token
  | [] => []
  | t :: after =>
    if last.kind = .semicolon ∨ t.kind.startsStatement then t :: after else resume t after

theorem resume_length (last : Token) (tokens : List Token) :
    (resume last tokens).length ≤ tokens.length := by
  induction tokens generalizing last with
  | nil => simp [resume]
  | cons t after ih =>
    unfold resume
    split
    · exact Nat.le_refl _
    · exact Nat.le_succ_of_le (ih t)

/-- Skips at least one token if there is one. -/
def synchronize : List Token → List Token
  | [] => []
  | t :: after => resume t after

theorem synchronize_length (tokens : List Token) :
    (synchronize tokens).length ≤ tokens.length - 1 := by
  cases tokens with
  | nil => simp [synchronize]
  | cons t after => simpa [synchronize] using resume_length t after

structure Body where
  statements : List Stmt
  rest : List Token
  reports : List Fault

/-- Puts a dropped or kept declaration in front of what follows it. -/
def Body.prepend (first next : Body) : Body :=
  ⟨first.statements ++ next.statements, next.rest, first.reports ++ next.reports⟩

/-- Ends the attempt to read a declaration: a failure is reported and skipped. -/
def settle {tokens : List Token} (s : Step Stmt tokens) : Body :=
  match s.val.outcome with
  | .ok statement => ⟨[statement], s.val.rest, s.val.reports⟩
  | .error f => ⟨[], synchronize s.val.rest, s.val.reports ++ [f]⟩

theorem settle_length {tokens : List Token} (s : Step Stmt tokens) :
    (settle s).rest.length ≤ s.val.rest.length := by
  unfold settle
  split
  · exact Nat.le_refl _
  · exact Nat.le_trans (synchronize_length _) (Nat.sub_le _ _)

/-- The tail of a variable declaration, from its name on. -/
def declaration (tokens : List Token) : Step Stmt tokens :=
  (expect .identifier .variableName tokens).andThen fun name rest _ =>
    match rest with
    | [] => .fail .semicolonAfterVariable []
    | t :: after =>
      if t.kind = .equal then
        ((expression after).andThen fun initial rest _ =>
          (expect .semicolon .semicolonAfterVariable rest).andThen fun _ rest _ =>
            .done (.declare name initial) rest).after (length_le_cons t after)
      else
        (expect .semicolon .semicolonAfterVariable (t :: after)).andThen fun _ rest _ =>
          .done (.declare name .absent) rest

/-- A step that has read at least one token if it succeeded. -/
abbrev Stride (α : Type) (tokens : List Token) :=
  { r : Reply α // r.rest.length ≤ tokens.length ∧
      ∀ a, r.outcome = .ok a → r.rest.length < tokens.length }

def Stride.toStep {α : Type} {tokens : List Token} (s : Stride α tokens) : Step α tokens :=
  ⟨s.val, s.property.1⟩

def Step.behind {α : Type} {after : List Token} (s : Step α after) (t : Token) :
    Stride α (t :: after) :=
  ⟨s.val, Nat.le_succ_of_le s.property, fun _ _ => Nat.lt_succ_of_le s.property⟩

def terminated (build : Expr → Stmt) (cause : Cause) (tokens : List Token) : Stride Stmt tokens :=
  let e := expression tokens
  match e.val.outcome with
  | .error f => ⟨⟨.error f, e.val.rest, e.val.reports⟩, e.property, fun _ h => by cases h⟩
  | .ok value =>
    match h : e.val.rest with
    | [] => ⟨⟨.error ⟨none, cause⟩, [], e.val.reports⟩, Nat.zero_le _, fun _ h => by cases h⟩
    | t :: after =>
      have shorter : after.length < tokens.length := by
        have bound := e.property
        rw [h] at bound
        exact bound
      if t.kind = .semicolon then
        ⟨⟨.ok (build value), after, e.val.reports⟩, Nat.le_of_lt shorter, fun _ _ => shorter⟩
      else
        ⟨⟨.error ⟨some t, cause⟩, t :: after, e.val.reports⟩, h ▸ e.property, fun _ h => by cases h⟩

def Body.step (b : Body) {tokens : List Token} (h : b.rest.length ≤ tokens.length) :
    Step (List Stmt) tokens :=
  ⟨⟨.ok b.statements, b.rest, b.reports⟩, h⟩

theorem settle_stride {t : Token} {after : List Token} (s : Stride Stmt (t :: after)) :
    (settle s.toStep).rest.length ≤ after.length := by
  have hle := s.property.1
  unfold settle Stride.toStep
  split
  · next statement h => exact Nat.le_of_lt_succ (s.property.2 statement h)
  · have := synchronize_length s.val.rest
    simp only [List.length_cons] at hle
    dsimp only
    omega

mutual

def statement (tokens : List Token) : Stride Stmt tokens :=
  match tokens with
  | [] => terminated .expression .semicolonAfterExpression []
  | t :: after =>
    match t.kind with
    | .ifWord =>
      Step.behind ((expect .leftParen .parenAfterIf after).andThen fun _ rest _ =>
        (expression rest).andThen fun condition rest _ =>
          (expect .rightParen .parenAfterCondition rest).andThen fun _ rest _ =>
            (statement rest).toStep.andThen fun onTrue rest _ =>
              match rest with
              | [] => .done (.ifElse condition onTrue .absent) []
              | e :: next =>
                if e.kind = .elseWord then
                  ((statement next).toStep.andThen fun onFalse rest _ =>
                    .done (.ifElse condition onTrue onFalse) rest).after (length_le_cons e next)
                else .done (.ifElse condition onTrue .absent) (e :: next)) t
    | .printWord => (terminated .print .semicolonAfterValue after).toStep.behind t
    | .leftBrace =>
      Step.behind (((block after).val.step (block after).property).andThen fun body rest _ =>
        (expect .rightBrace .braceAfterBlock rest).andThen fun _ rest _ =>
          .done (.block body) rest) t
    | _ => terminated .expression .semicolonAfterExpression (t :: after)
termination_by 4 * tokens.length
decreasing_by
  all_goals
    simp only [List.length_cons] at *
    omega

def declared (t : Token) (after : List Token) : { b : Body // b.rest.length ≤ after.length } :=
  if t.kind = .varWord then
    ⟨settle (declaration after), Nat.le_trans (settle_length _) (declaration after).property⟩
  else ⟨settle (statement (t :: after)).toStep, settle_stride _⟩
termination_by 4 * after.length + 5
decreasing_by
  simp only [List.length_cons]
  omega

/-- Declarations up to a closing brace or the end. -/
def block (tokens : List Token) : { b : Body // b.rest.length ≤ tokens.length } :=
  match tokens with
  | [] => ⟨⟨[], [], []⟩, Nat.le_refl _⟩
  | t :: after =>
    if t.kind = .rightBrace then ⟨⟨[], t :: after, []⟩, Nat.le_refl _⟩
    else
      match declared t after with
      | ⟨first, hfirst⟩ =>
        ⟨first.prepend (block first.rest).val,
          Nat.le_trans (block first.rest).property (Nat.le_succ_of_le hfirst)⟩
termination_by 4 * tokens.length + 2
decreasing_by
  all_goals
    simp only [List.length_cons]
    omega

end

def program (tokens : List Token) : Body :=
  match tokens with
  | [] => ⟨[], [], []⟩
  | t :: after => (declared t after).val.prepend (program (declared t after).val.rest)
termination_by tokens.length
decreasing_by
  have := (declared t after).property
  simp only [List.length_cons]
  omega

end BlockScript.Parser

/-! From tokens and from source text to programs. Only the tokens before the first end marker
count. -/

namespace BlockScript

structure Parsed where
  statements : List Stmt
  diagnostics : List Diagnostic

/-- The line of the first end marker. Without a marker the input ends on the line of its last token,
and an empty input on the first line. -/
def Parser.lastLine (tokens : List Token) : Int :=
  match tokens.find? (·.kind = .endOfFile), tokens.getLast? with
  | some t, _ => t.line
  | none, some t => t.line
  | none, none => 1

def Parsed.ofTokens (tokens : List Token) : Parsed :=
  let body := Parser.program (tokens.takeWhile (·.kind ≠ .endOfFile))
  ⟨body.statements, body.reports.map (·.diagnostic (Parser.lastLine tokens))⟩

/-- Lexical diagnostics come before those of the parser. -/
def Parsed.ofSource (source : Bytes) : Parsed :=
  let lexed := Token.lex source
  let parsed := Parsed.ofTokens lexed.tokens
  ⟨parsed.statements, lexed.diagnostics ++ parsed.diagnostics⟩

end BlockScript
