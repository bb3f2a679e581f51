import BlockScript.Scope
import BlockScript.Trace
import BlockScript.Tree
import BlockScript.Parser

/-! Running a program. Expressions read and change variables; statements also print, open scopes and
leave a trace. A run stops at the first failure, and what was done before it stays done. -/

namespace BlockScript

namespace Fault

/-- What went wrong in a running program. A host may raise faults with a code and a text of its
own. -/
inductive Cause
  | operandNotNumber
  | operandsNotNumbers
  | operandsMismatched
  | unknownUnary (operator : Bytes)
  | unknownBinary (operator : Bytes)
  | undefined (name : Bytes)
  | reported (code : Diagnostic.Code) (message : Bytes)
  deriving DecidableEq

def Cause.code : Cause → Diagnostic.Code
  | undefined _ => .undefined
  | reported code _ => code
  | _ => .type

def Cause.message : Cause → Bytes
  | operandNotNumber => Bytes.ofString "Operand must be a number."
  | operandsNotNumbers => Bytes.ofString "Operands must be numbers."
  | operandsMismatched => Bytes.ofString "Operands must be two numbers or two strings."
  | unknownUnary operator => Bytes.ofString "Unknown unary operator '" ++ operator ++ Bytes.ofString "'."
  | unknownBinary operator =>
    Bytes.ofString "Unknown binary operator '" ++ operator ++ Bytes.ofString "'."
  | undefined name => Bytes.ofString "Undefined variable '" ++ name ++ Bytes.ofString "'."
  | reported _ message => message

end Fault

structure Fault where
  token : Token
  cause : Fault.Cause
  deriving DecidableEq

/-- Only a type error names the operator it is about. -/
def Fault.diagnostic (f : Fault) : Diagnostic :=
  ⟨f.cause.code, f.token.line,
    if f.cause.code = .type then Diagnostic.atLexeme f.token.lexeme else [], f.cause.message⟩

/-- An error of a service or of a host: its text, and the diagnostics and the fault that are found in
it or in an error it wraps. -/
structure Failure where
  message : Bytes
  diagnostics? : Option (List Diagnostic) := none
  fault? : Option Fault := none
  deriving DecidableEq

namespace Failure

def diagnostics (ds : List Diagnostic) : Failure where
  message :=
    Bytes.join (Bytes.ofString "; ") (ds.map fun d => d.code.name ++ Bytes.ofString ": " ++ d.message)
  diagnostics? := some ds

def fault (f : Fault) : Failure where
  message := f.cause.message
  fault? := some f

/-- A wrapped error is still found. -/
def within (context : Bytes) (inner : Failure) : Failure :=
  { inner with message := context ++ Bytes.ofString ": " ++ inner.message }

/-- What is reported: the diagnostics there are, or the whole message as one. -/
def report (f : Failure) : List Diagnostic :=
  match f.diagnostics?, f.fault? with
  | some ds, _ => ds
  | none, some raised => [raised.diagnostic]
  | none, none => [⟨.io, 0, [], f.message⟩]

def exitCode (f : Failure) : Nat :=
  match f.diagnostics?, f.fault? with
  | some ds, _ => if Diagnostic.anyCompileTime ds then 65 else 1
  | none, some _ => 70
  | none, none => 74

end Failure

/-- Why a run stopped early. The last two cannot happen to a program read from source. The kind of a
statement is asked for before all else, and where there is no statement the host process crashes. -/
inductive Halt
  | fault (f : Fault)
  | refused (reason : Failure)
  | absentExpression
  | crash
  deriving DecidableEq

/-- The error that a host gets. A crash leaves it none, so there is no text for it. -/
def Failure.ofHalt : Halt → Failure
  | .fault f => fault f
  | .refused reason => within (Bytes.ofString "print") reason
  | .absentExpression => { message := Bytes.ofString "unsupported expression type: <nil>" }
  | .crash => { message := [] }

def Halt.fault? (halt : Halt) : Option Fault := (Failure.ofHalt halt).fault?

namespace Evaluator

def undefined {α : Type} (name : Token) : Except Halt α := .error (.fault ⟨name, .undefined name.lexeme⟩)

def applyUnary (operator : Token) (v : Value) : Except Halt Value :=
  match operator.kind with
  | .bang => .ok (.bool !v.truthy)
  | .minus =>
    match v with
    | .number x => .ok (.number (-x))
    | _ => .error (.fault ⟨operator, .operandNotNumber⟩)
  | _ => .error (.fault ⟨operator, .unknownUnary operator.lexeme⟩)

def applyNumbers (operator : Token) (x y : Float) : Except Halt Value :=
  match operator.kind with
  | .minus => .ok (.number (x - y))
  | .star => .ok (.number (x * y))
  | .slash => .ok (.number (x / y))
  | .greater => .ok (.bool (y < x))
  | .greaterEqual => .ok (.bool (y ≤ x))
  | .less => .ok (.bool (x < y))
  | .lessEqual => .ok (.bool (x ≤ y))
  | _ => .error (.fault ⟨operator, .unknownBinary operator.lexeme⟩)

def applyBinary (operator : Token) (left right : Value) : Except Halt Value :=
  match operator.kind with
  | .equalEqual => .ok (.bool (left.equals right))
  | .bangEqual => .ok (.bool !left.equals right)
  | .plus =>
    match left, right with
    | .number x, .number y => .ok (.number (x + y))
    | .string s, .string t => .ok (.string (s ++ t))
    | _, _ => .error (.fault ⟨operator, .operandsMismatched⟩)
  | _ =>
    match left, right with
    | .number x, .number y => applyNumbers operator x y
    | _, _ => .error (.fault ⟨operator, .operandsNotNumbers⟩)

/-- Whether the left operand already decides a logical expression. Every operator but `or` acts as
`and`. -/
def decides (operator : Token) (left : Value) : Bool :=
  if operator.kind = .orWord then left.truthy else !left.truthy

end Evaluator

open Evaluator

def Expr.eval : Expr → Scopes → Except Halt Value × Scopes
  | .absent, scopes => (.error .absentExpression, scopes)
  | .literal value, scopes => (.ok (.ofLiteral value), scopes)
  | .grouping inner, scopes => inner.eval scopes
  | .name token, scopes =>
    match scopes.get? token.lexeme with
    | some v => (.ok v, scopes)
    | none => (undefined token, scopes)
  | .assign target value, scopes =>
    match value.eval scopes with
    | (.error halt, scopes) => (.error halt, scopes)
    | (.ok v, scopes) =>
      match scopes.assign? target.lexeme v with
      | some scopes => (.ok v, scopes)
      | none => (undefined target, scopes)
  | .unary operator operand, scopes =>
    match operand.eval scopes with
    | (.error halt, scopes) => (.error halt, scopes)
    | (.ok v, scopes) => (applyUnary operator v, scopes)
  | .binary left operator right, scopes =>
    match left.eval scopes with
    | (.error halt, scopes) => (.error halt, scopes)
    | (.ok v, scopes) =>
      match right.eval scopes with
      | (.error halt, scopes) => (.error halt, scopes)
      | (.ok w, scopes) => (applyBinary operator v w, scopes)
  | .logical left operator right, scopes =>
    match left.eval scopes with
    | (.error halt, scopes) => (.error halt, scopes)
    | (.ok v, scopes) => if decides operator v then (.ok v, scopes) else right.eval scopes

/-- Where printed text goes. A write is taken whole or refused with an error, which may depend on
everything offered and taken before. -/
structure Sink where
  refusal : (offered : List Bytes) → (taken : Bytes) → (text : Bytes) → Option Failure :=
    fun _ _ _ => none
  offered : List Bytes := []
  taken : Bytes := []

/-- A sink with room for a number of bytes in all. -/
def Sink.limited (room : Nat) : Sink :=
  { refusal := fun _ taken text =>
      if room < taken.length + text.length then some { message := Bytes.ofString "sink full" }
      else none }

/-- The refusal, if any, and the sink afterwards. -/
def Sink.write (s : Sink) (text : Bytes) : Option Failure × Sink :=
  match s.refusal s.offered s.taken text with
  | some reason => (some reason, { s with offered := text :: s.offered })
  | none => (none, { s with offered := text :: s.offered, taken := s.taken ++ text })

structure Machine where
  scopes : Scopes := {}
  sink : Sink := {}
  events : Array Trace.Event := #[]

namespace Machine

def emit (m : Machine) (e : Trace.Event) : Machine := { m with events := m.events.push e }

def define (m : Machine) (name : Bytes) (v : Value) : Machine :=
  { m with scopes := m.scopes.define name v }

def begun (m : Machine) (s : Stmt) : Machine := m.emit (.stmtStart s.line s.kind)

def inBlock (m : Machine) (s : Stmt) : Machine :=
  { (m.begun s).emit (.blockEnter s.line) with scopes := m.scopes.enter }

def eval (m : Machine) (e : Expr) : Except Halt Value × Machine :=
  let (result, scopes) := e.eval m.scopes
  (result, { m with scopes := scopes })

def withValue (m : Machine) (e : Expr) (next : Value → Machine → Option Halt × Machine) :
    Option Halt × Machine :=
  match m.eval e with
  | (.error halt, m) => (some halt, m)
  | (.ok v, m) => next v m

/-- Prints a value and a line feed in one write. -/
def print (m : Machine) (line : Int) (v : Value) : Option Halt × Machine :=
  let (refusal, sink) := m.sink.write (v.text ++ [Bytes.lineFeed])
  let m := { m with sink := sink }
  match refusal with
  | some reason => (some (.refused reason), m)
  | none => (none, m.emit (.print line v.text v.toJson.render))

end Machine

namespace Stmt

def finish (line : Int) : Option Halt × Machine → Option Halt × Machine
  | (some halt, m) => (some halt, m)
  | (none, m) => (none, m.emit (.stmtEnd line))

/-- Leaves the scope of a block, also if its body stopped. -/
def leaveBlock (line : Int) : Option Halt × Machine → Option Halt × Machine
  | (halt, m) => (halt, { m with scopes := m.scopes.leave }.emit (.blockExit line))

section

variable (line : Int) (r : Option Halt × Machine)

@[simp] theorem halt_finish : (finish line r).1 = r.1 := by
  obtain ⟨_ | halt, m⟩ := r <;> rfl

@[simp] theorem scopes_finish : (finish line r).2.scopes = r.2.scopes := by
  obtain ⟨_ | halt, m⟩ := r <;> rfl

@[simp] theorem sink_finish : (finish line r).2.sink = r.2.sink := by
  obtain ⟨_ | halt, m⟩ := r <;> rfl

end

end Stmt

mutual

/-- Runs a statement: why it stopped, if it did, and the machine afterwards. -/
def Stmt.exec : Stmt → Machine → Option Halt × Machine
  | .absent, m => (some .crash, m)
  | s@(.expression e), m =>
    Stmt.finish s.line <| (m.begun s).withValue e fun _ m => (none, m)
  | s@(.print e), m =>
    Stmt.finish s.line <| (m.begun s).withValue e fun v m => m.print s.line v
  | s@(.declare name initial), m =>
    Stmt.finish s.line <|
      if initial.isAbsent then (none, (m.begun s).define name.lexeme .null)
      else (m.begun s).withValue initial fun v m => (none, m.define name.lexeme v)
  | s@(.block body), m =>
    Stmt.finish s.line <| Stmt.leaveBlock s.line <| execAll body (m.inBlock s)
  | s@(.ifElse condition onTrue onFalse), m =>
    Stmt.finish s.line <| (m.begun s).withValue condition fun v m =>
      if v.truthy then onTrue.exec m
      else if onFalse.isAbsent then (none, m)
      else onFalse.exec m

def execAll : List Stmt → Machine → Option Halt × Machine
  | [], m => (none, m)
  | s :: rest, m =>
    match s.exec m with
    | (some halt, m) => (some halt, m)
    | (none, m) => execAll rest m

end

/-- Ends the trace of a run. A fault that stopped it is traced, also one that a sink wraps in its
error. -/
def Machine.ended (m : Machine) (halt : Option Halt) : Machine :=
  match halt.bind Halt.fault? with
  | some f => (m.emit (.runtimeError f.token.line f.cause.code f.cause.message)).emit .runEnd
  | none => m.emit .runEnd

@[simp] theorem Machine.scopes_ended (m : Machine) (halt : Option Halt) :
    (m.ended halt).scopes = m.scopes := by
  unfold ended
  split <;> rfl

@[simp] theorem Machine.sink_ended (m : Machine) (halt : Option Halt) :
    (m.ended halt).sink = m.sink := by
  unfold ended
  split <;> rfl

def Machine.run (m : Machine) (program : List Stmt) : Option Halt × Machine :=
  let (halt, m) := execAll program (m.emit .runStart)
  (halt, m.ended halt)

/-! The services offered on a source text. An engine keeps its machine from one
run to the next, so later runs see earlier variables. -/

def usageExit : Nat := 64

namespace Engine

def check (source : Bytes) : List Diagnostic := (Parsed.ofSource source).diagnostics

def compile (source : Bytes) : Except Failure (List Stmt) :=
  let parsed := Parsed.ofSource source
  if parsed.diagnostics.isEmpty then .ok parsed.statements else .error (.diagnostics parsed.diagnostics)

/-- Runs a source and counts its statements. A source with diagnostics does not run at all. -/
def run (m : Machine) (source : Bytes) : Except Failure Nat × Machine :=
  match compile source with
  | .error f => (.error f, m)
  | .ok program =>
    match m.run program with
    | (some halt, m) => (.error (.ofHalt halt), m)
    | (none, m) => (.ok program.length, m)

def format (source : Bytes) : Except Failure Bytes := (compile source).map formatProgram

def tree (source : Bytes) : Except Failure Bytes :=
  (compile source).map fun program =>
    if program.isEmpty then [] else dumpProgram program ++ [Bytes.lineFeed]

end Engine

end BlockScript
